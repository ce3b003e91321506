import Assembler8080.Bytes

/-! Labels. A global label is shared by all files of a program, a static one belongs to its file,
and a nested one to a static label of its file, its parent. -/
namespace Assembler8080

inductive LabelKind where
  | kindless
  | global
  | static
  | nested
  deriving Repr, DecidableEq

namespace LabelKind

def name : LabelKind → Bytes
  | kindless => ascii "None"
  | global => ascii "Global"
  | static => ascii "Static"
  | nested => ascii "Local"

def code : LabelKind → Nat
  | kindless => 0
  | global => 1
  | static => 2
  | nested => 3

def ofCode : Int → LabelKind
  | 1 => global
  | 2 => static
  | 3 => nested
  | _ => kindless

end LabelKind

structure Label where
  kind : LabelKind
  text : Bytes
  parent : Bytes
  deriving Repr, DecidableEq

/-- Stands for the file of a global label that no declaration has been seen of. -/
def pendingFile : Bytes := ascii "?"

/-- The file that a key names: an empty file name is written as the unknown file. -/
def keyFile (file : Bytes) : Bytes := if file.isEmpty then pendingFile else file

/-- A file that can declare global labels. -/
def isConcrete (file : Bytes) : Bool := !(file.isEmpty || file == pendingFile)

namespace Label

/-- The label as it is written, with the parent of a nested one. -/
def name (l : Label) : Bytes :=
  match l.kind with
  | .global => Byte.dollar :: l.text
  | .nested => l.parent ++ Byte.dot :: l.text
  | .static | .kindless => l.text

/-- The label and the file that it belongs to in one text; empty for a label without a kind. -/
def key (l : Label) (file : Bytes) : Bytes :=
  match l.kind with
  | .kindless => []
  | .global | .static | .nested => l.name ++ Byte.atSign :: keyFile file

end Label

/-- What the names in a line refer to: the file, and the static label last declared in it, the
parent of a label written as a dot and a name. -/
structure Scope where
  file : Bytes
  parent : Bytes
  deriving Repr, DecidableEq

def Scope.ofFile (file : Bytes) : Scope := ⟨file, []⟩

structure Declaration extends Label where
  file : Bytes
  line : Int
  /-- The text as written, with its colon. -/
  source : Bytes
  deriving Repr, DecidableEq

def Declaration.key (d : Declaration) : Bytes := d.toLabel.key d.file

/-- A label used in an expression. A global one names no file. -/
structure Reference extends Label where
  file : Bytes
  line : Int
  source : Bytes
  deriving Repr, DecidableEq

/-- The key of a global reference is that of a label whose file is not known. -/
def Reference.key (r : Reference) : Bytes :=
  r.toLabel.key (if r.kind = .global then pendingFile else r.file)

structure Location where
  file : Bytes
  line : Int
  deriving Repr, DecidableEq

def Location.text (l : Location) : Bytes := l.file ++ Byte.colon :: signedDecimal l.line

end Assembler8080
