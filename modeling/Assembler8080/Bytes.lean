/-! Byte strings, the text of this assembler. Source text is any sequence of bytes, so positions,
lengths and columns count bytes; only quoting and padding look at characters. The classes
below are the ones the grammar of a source line is written in. -/
namespace Assembler8080

abbrev Bytes := List UInt8

/-- The bytes of a text whose characters are all ASCII. -/
def ascii (s : String) : Bytes := s.toList.map fun c => UInt8.ofNat c.toNat

namespace Byte

@[match_pattern] abbrev tab : UInt8 := 0x09
@[match_pattern] abbrev lineFeed : UInt8 := 0x0A
@[match_pattern] abbrev verticalTab : UInt8 := 0x0B
@[match_pattern] abbrev formFeed : UInt8 := 0x0C
@[match_pattern] abbrev carriageReturn : UInt8 := 0x0D
@[match_pattern] abbrev blank : UInt8 := 0x20
@[match_pattern] abbrev doubleQuote : UInt8 := 0x22
@[match_pattern] abbrev dollar : UInt8 := 0x24
@[match_pattern] abbrev singleQuote : UInt8 := 0x27
@[match_pattern] abbrev leftParen : UInt8 := 0x28
@[match_pattern] abbrev rightParen : UInt8 := 0x29
@[match_pattern] abbrev comma : UInt8 := 0x2C
@[match_pattern] abbrev minus : UInt8 := 0x2D
@[match_pattern] abbrev dot : UInt8 := 0x2E
@[match_pattern] abbrev slash : UInt8 := 0x2F
@[match_pattern] abbrev zero : UInt8 := 0x30
@[match_pattern] abbrev colon : UInt8 := 0x3A
@[match_pattern] abbrev semicolon : UInt8 := 0x3B
@[match_pattern] abbrev equals : UInt8 := 0x3D
@[match_pattern] abbrev atSign : UInt8 := 0x40
@[match_pattern] abbrev backslash : UInt8 := 0x5C
@[match_pattern] abbrev underscore : UInt8 := 0x5F

/-- Blanks separate the parts of a line. A line feed is not one: it ends the line. -/
def isBlank (b : UInt8) : Bool :=
  b == blank || b == tab || b == carriageReturn || b == formFeed || b == verticalTab

def isUpper (b : UInt8) : Bool := 0x41 ≤ b && b ≤ 0x5A

def isLower (b : UInt8) : Bool := 0x61 ≤ b && b ≤ 0x7A

def isLetter (b : UInt8) : Bool := isUpper b || isLower b

def isDigit (b : UInt8) : Bool := 0x30 ≤ b && b ≤ 0x39

def isHexDigit (b : UInt8) : Bool :=
  isDigit b || (0x41 ≤ b && b ≤ 0x46) || (0x61 ≤ b && b ≤ 0x66)

/-- The characters that may follow the first letter of a name. -/
def isNameChar (b : UInt8) : Bool := isLetter b || isDigit b || b == underscore

def isAscii (b : UInt8) : Bool := b < 0x80

def toLower (b : UInt8) : UInt8 := if isUpper b then b + 0x20 else b

def toUpper (b : UInt8) : UInt8 := if isLower b then b - 0x20 else b

/-- The number a digit of base sixteen stands for; zero for any other byte. -/
def digitValue (b : UInt8) : Nat :=
  if isDigit b then b.toNat - 0x30
  else if 0x41 ≤ b && b ≤ 0x46 then b.toNat - 0x37
  else if 0x61 ≤ b && b ≤ 0x66 then b.toNat - 0x57
  else 0

/-- The digit, with capitals above nine, of a number below sixteen. -/
def hexDigit (n : Nat) : UInt8 := UInt8.ofNat (if n < 10 then 0x30 + n else 0x37 + n)

end Byte

/-! ### Numbers as text -/

def decimal (n : Nat) : Bytes :=
  if n < 10 then [UInt8.ofNat (0x30 + n)]
  else decimal (n / 10) ++ [UInt8.ofNat (0x30 + n % 10)]
termination_by n
decreasing_by omega

def signedDecimal : Int → Bytes
  | .ofNat n => decimal n
  | .negSucc n => Byte.minus :: decimal (n + 1)

def hexByte (b : UInt8) : Bytes := [Byte.hexDigit (b.toNat / 16), Byte.hexDigit (b.toNat % 16)]

def hexWord (w : UInt16) : Bytes :=
  [Byte.hexDigit (w.toNat / 4096), Byte.hexDigit (w.toNat / 256 % 16),
    Byte.hexDigit (w.toNat / 16 % 16), Byte.hexDigit (w.toNat % 16)]

def blanks (n : Nat) : Bytes := List.replicate n Byte.blank

def alignRight (width : Nat) (s : Bytes) : Bytes := blanks (width - s.length) ++ s

/-! ### Texts in pieces -/

theorem intercalate_concat (separator : Bytes) (pieces : List Bytes) (last : Bytes) :
    separator.intercalate (pieces ++ [last]) = pieces.flatMap (· ++ separator) ++ last := by
  induction pieces with
  | nil => simp
  | cons piece rest ih =>
    rw [List.cons_append, List.intercalate_cons_of_ne_nil (by simp), ih]
    simp

theorem notMem_of_mem_splitOn {separator : UInt8} {s piece : Bytes}
    (member : piece ∈ s.splitOn separator) : separator ∉ piece := by
  induction s generalizing piece with
  | nil => simp_all
  | cons b rest ih =>
    rw [List.splitOn_cons_eq_if_modifyHead] at member
    split at member
    next =>
      rcases List.mem_cons.mp member with rfl | later
      · exact List.not_mem_nil
      · exact ih later
    next other =>
      have apart : separator ≠ b := fun same => other (by simp [same])
      obtain ⟨first, others, pieces⟩ :=
        List.exists_cons_of_ne_nil (List.splitOn_ne_nil separator rest)
      rw [pieces, List.modifyHead_cons] at member
      rcases List.mem_cons.mp member with rfl | later
      · simpa [apart] using ih (by simp [pieces])
      · exact ih (by simp [pieces, later])

end Assembler8080
