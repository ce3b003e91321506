import Assembler8080.Bytes

/-! Source files. A physical line that ends in a backslash is joined with the one after it; what
remains are the logical lines, each with the number of its first physical line. -/
namespace Assembler8080

structure LogicalLine where
  number : Int
  text : Bytes
  deriving Repr, DecidableEq

structure SourceFile where
  name : Bytes
  lines : List LogicalLine
  deriving Repr, DecidableEq

/-- A source file that cannot be read: a line of it is too long. -/
structure SourceFault where
  name : Bytes
  deriving Repr, DecidableEq

def SourceFault.message (f : SourceFault) : Bytes :=
  ascii "read " ++ f.name ++ ascii ": bufio.Scanner: token too long"

namespace SourceFile

/-- A physical line and its line feed fit in this many bytes. -/
def lineLimit : Nat := 1048576

/-- The text between line feeds. Nothing after the last one is no line. -/
def split (text : Bytes) : List Bytes :=
  let pieces := text.splitOn Byte.lineFeed
  if pieces.getLast? == some [] then pieces.dropLast else pieces

def trimReturns (line : Bytes) : Bytes :=
  (line.reverse.dropWhile (· == Byte.carriageReturn)).reverse

/-- Joins on after the lines `seen`, last one first. The line being joined starts at the physical
line `first`, has the bytes `current`, last one first, and ends at the physical line `number`. -/
def joinFrom (seen : List LogicalLine) (first : Int) (current : Bytes) (number : Int) :
    List Bytes → List LogicalLine
  | [] => (⟨first, current.reverse⟩ :: seen).reverse
  | next :: rest =>
    match current with
    | Byte.backslash :: before => joinFrom seen first (next.reverse ++ before) (number + 1) rest
    | _ => joinFrom (⟨first, current.reverse⟩ :: seen) (number + 1) next.reverse (number + 1) rest

/-- Joins the lines that end in a backslash with those after them. The backslash of the last line
is kept. -/
def join : List Bytes → List LogicalLine
  | [] => []
  | line :: rest => joinFrom [] 1 line.reverse 1 rest

def physicalLines? (text : Bytes) : Option (List Bytes) :=
  let lines := split text
  if lines.all (·.length < lineLimit) then some (lines.map trimReturns) else none

def read (name text : Bytes) : Except SourceFault SourceFile :=
  match physicalLines? text with
  | some lines => .ok ⟨name, join lines⟩
  | none => .error ⟨name⟩

/-- A file made from text; one that cannot be read has no lines. -/
def ofText (name text : Bytes) : SourceFile :=
  match read name text with
  | .ok file => file
  | .error _ => ⟨name, []⟩

end SourceFile

end Assembler8080
