import Assembler8080.Text.CaseFold

/-! The smallest parts of a source line. Each function looks at the start of a text and says how
many bytes its lexeme takes, zero when there is none. -/
namespace Assembler8080.Lexeme

def blankRun (s : Bytes) : Nat := (s.takeWhile Byte.isBlank).length

def wordRun (s : Bytes) : Nat := (s.takeWhile Byte.isNameChar).length

def continuesName (s : Bytes) : Bool := s.head?.any Byte.isNameChar

def name (s : Bytes) : Nat :=
  match s with
  | [] => 0
  | b :: rest => if Byte.isLetter b then 1 + wordRun rest else 0

/-- Letters that no other character of a name follows. -/
def letters (s : Bytes) : Nat :=
  let run := s.takeWhile Byte.isLetter
  if continuesName (s.drop run.length) then 0 else run.length

/-- The given word in any case and the blanks after it, of which there is at least one. -/
def keyword (word s : Bytes) : Nat :=
  if Text.startsWithFold word s then
    match blankRun (s.drop word.length) with
    | 0 => 0
    | n + 1 => word.length + (n + 1)
  else 0

/-- The given word in any case, not as part of a longer name. -/
def wholeWord (word s : Bytes) : Nat :=
  if Text.startsWithFold word s && !continuesName (s.drop word.length) then word.length else 0

/-- The bytes of a text between quotation marks, marks included, and the number of characters
between them. -/
structure Quotation where
  length : Nat
  characters : Nat
  deriving Repr, DecidableEq

/-- Reads on inside a quotation of which the bytes and characters so far are given. A backslash
makes one character with the byte after it. -/
def quotationFrom (mark : UInt8) (length characters : Nat) : Bytes → Option Quotation
  | [] => none
  | b :: rest =>
    if b == Byte.backslash then
      match rest with
      | [] => none
      | _ :: rest => quotationFrom mark (length + 2) (characters + 1) rest
    else if b == mark then some ⟨length + 1, characters⟩
    else quotationFrom mark (length + 1) (characters + 1) rest

def quotation? (mark : UInt8) : Bytes → Option Quotation
  | [] => none
  | b :: rest => if b == mark then quotationFrom mark 1 0 rest else none

def unescapeOnto (seen : Bytes) : Bytes → Bytes
  | [] => seen.reverse
  | [b] => (b :: seen).reverse
  | b :: c :: rest =>
    if b == Byte.backslash then unescapeOnto (c :: seen) rest
    else unescapeOnto (b :: seen) (c :: rest)

/-- The text a quotation stands for: a backslash gives way to the byte after it. -/
def unescape (s : Bytes) : Bytes := unescapeOnto [] s

end Assembler8080.Lexeme
