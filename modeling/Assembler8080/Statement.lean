import Assembler8080.Instruction.Catalog
import Assembler8080.Operand.Reader

/-! Statements: what a source line says, before any symbol or address is looked at. A program is
read once; every pass assembles the same statements. -/
namespace Assembler8080

/-- An instruction with its operands, and what stands where the line should have ended. -/
structure Command where
  instruction : Instruction
  sources : OperandSources
  unexpected : Option (Nat × Bytes)
  deriving Repr, DecidableEq

structure Statement where
  location : Location
  text : Bytes
  label : Option Declaration
  command : Option Command
  comment : Bytes
  deriving Repr, DecidableEq

namespace Command

def skipToComment (c : Cursor) : Cursor :=
  c.advance (c.rest.takeWhile (· != Byte.semicolon)).length

def unexpected? (c : Cursor) : Option (Nat × Bytes) :=
  if OperandSource.endsLine c then none else some (c.column, c.rest)

/-- The command at a place of a line, given the reader of expressions. A word that is no mnemonic
is left alone. -/
def read (term : Reader Term) (c : Cursor) : Option Command × Cursor :=
  let start := c.skipBlanks
  let length := Lexeme.letters start.rest
  match Catalog.find? (start.rest.take length) with
  | none => (none, start)
  | some instruction =>
    let sources := (OperandSources.ofShape term instruction.shape).run (start.advance length)
    let after := sources.2.skipBlanks
    (some ⟨instruction, sources.1, unexpected? after⟩, skipToComment after)

def references (c : Command) : List Reference :=
  c.sources.operands.flatMap (·.form.references)

end Command

namespace Statement

def readLabel (scope : Scope) (line : Int) (c : Cursor) :
    Option Declaration × Scope × Cursor :=
  match scope.declaration? line c with
  | some (d, after) => (some d, scope.declare d.toLabel, after)
  | none => (none, scope, c)

/-- A comment takes the rest of the line. -/
def readComment (c : Cursor) : Bytes × Cursor :=
  let start := c.skipBlanks
  if start.next? == some Byte.semicolon then (start.rest, start.advance start.rest.length)
  else ([], start)

/-- Reads a line. The scope after it is that of the line that follows. -/
def read (scope : Scope) (number : Int) (text : Bytes) : Statement × Scope :=
  let (label, inner, c) := readLabel scope number (.atStart text)
  let (command, c) := Command.read (Term.full inner number) c
  (⟨⟨scope.file, number⟩, text, label, command, (readComment c).1⟩, inner)

def references (s : Statement) : List Reference :=
  match s.command with
  | some c => c.references
  | none => []

def endsProgram (s : Statement) : Bool := s.command.any (·.instruction.endsProgram)

end Statement

end Assembler8080
