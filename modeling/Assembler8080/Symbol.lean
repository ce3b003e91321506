import Assembler8080.Label
import Assembler8080.Value

/-! Symbols: what the assembler knows of a label. -/
namespace Assembler8080

structure Symbol extends Label where
  /-- The declaring file; the unknown file for a global label not yet declared. -/
  file : Bytes
  /-- The declaring line; zero for a label not yet declared. -/
  line : Int
  value : Value
  /-- Where the final pass used the label, the last use first. -/
  uses : List Location
  deriving Repr, DecidableEq

namespace Symbol

def key (s : Symbol) : Bytes := s.toLabel.key s.file

def isDeclared (s : Symbol) : Bool := 0 < s.line

/-- Where the final pass used the label, in source order. -/
def references (s : Symbol) : List Location := s.uses.reverse

def addUse (s : Symbol) (l : Location) : Symbol := { s with uses := l :: s.uses }

@[simp] theorem references_addUse (s : Symbol) (l : Location) :
    (s.addUse l).references = s.references ++ [l] := by
  simp [addUse, references]

def ofDeclaration (d : Declaration) : Symbol := ⟨d.toLabel, d.file, d.line, none, []⟩

def ofReference (r : Reference) : Symbol :=
  ⟨r.toLabel, if r.kind = .global then pendingFile else r.file, 0, none, []⟩

end Symbol

end Assembler8080
