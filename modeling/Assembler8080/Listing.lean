import Assembler8080.Line

/-! The listing: a row for each source line with its number, its address, up to three bytes and
its text; rows for further bytes; and a row for each fault. -/
namespace Assembler8080.Listing

structure Entry where
  number : Int
  start : Value
  bytes : Bytes
  text : Bytes
  diagnostics : List Diagnostic

def entry (l : Line) : Entry :=
  ⟨l.location.line, l.start, l.bytes, l.statement.text, l.diagnostics⟩

/-- Four blanks stand for an undefined address. -/
def addressColumn : Value → Bytes
  | some a => hexWord a
  | none => blanks 4

/-- Groups of three, after those already seen, last one first. -/
def groupsFrom (seen : List Bytes) : Bytes → List Bytes
  | [] => seen.reverse
  | [a] => ([a] :: seen).reverse
  | [a, b] => ([a, b] :: seen).reverse
  | a :: b :: c :: rest => groupsFrom ([a, b, c] :: seen) rest

def groups (bytes : Bytes) : List Bytes := groupsFrom [] bytes

def byteColumns (group : Bytes) : Bytes :=
  group.flatMap (fun b => Byte.blank :: hexByte b) ++ blanks (3 * (3 - group.length))

def firstColumns (e : Entry) : Bytes :=
  alignRight 5 (signedDecimal e.number) ++ Byte.blank :: addressColumn e.start

/-- The row of the group of bytes at an index; the first has the text of the line. -/
def codeRow (e : Entry) (group : Bytes) (index : Nat) : Bytes :=
  if index = 0 then
    firstColumns e ++ byteColumns group ++ Byte.blank :: (e.text ++ [Byte.lineFeed])
  else
    blanks 6 ++ hexWord (e.start.getD 0 + UInt16.ofNat (3 * index)) ++ byteColumns group
      ++ [Byte.lineFeed]

def codeRows (e : Entry) : List Bytes :=
  match e.bytes with
  | [] => [firstColumns e ++ blanks 10 ++ e.text ++ [Byte.lineFeed]]
  | _ => (groups e.bytes).zipIdx.map fun (group, index) => codeRow e group index

def faultRow (d : Diagnostic) : Bytes := ascii "***** " ++ d.text ++ [Byte.lineFeed]

def rows (e : Entry) : List Bytes := codeRows e ++ e.diagnostics.map faultRow

def text (e : Entry) : Bytes := (rows e).flatten

end Assembler8080.Listing
