import Assembler8080.Instruction
import Assembler8080.Operand.Fault
import Assembler8080.Symbol.Table

/-! What can be wrong with a line, and how it is reported. -/
namespace Assembler8080

inductive FaultKind where
  | parse | unresolvedSymbol | addressUndefined | missingOperand | duplicateLabel | internal
  | other
  deriving Repr, DecidableEq

namespace FaultKind

def ofCode : Int → FaultKind
  | 0 => parse
  | 1 => unresolvedSymbol
  | 2 => addressUndefined
  | 3 => missingOperand
  | 4 => duplicateLabel
  | 5 => internal
  | _ => other

def name : FaultKind → Bytes
  | parse => ascii "parse error"
  | unresolvedSymbol => ascii "unresolved symbol"
  | addressUndefined => ascii "address undefined"
  | missingOperand => ascii "missing operand"
  | duplicateLabel => ascii "duplicate label"
  | internal => ascii "internal error"
  | other => ascii "error"

end FaultKind

inductive Fault where
  | operand (fault : OperandFault) (text : Bytes)
  /-- No operand where one is needed. -/
  | noOperand (fault : OperandFault)
  | missingComma
  | memoryToMemory
  | unexpectedText (text : Bytes)
  | unknownShape (shape : Shape)
  | duplicateLabel (fault : DeclarationFault)
  /-- A label that had a value and is now defined by an expression that has none. -/
  | lostValue (name : Bytes) (value : Value)
  | needsResolved (mnemonic text : Bytes)
  | blockBeforeOrigin
  | codeBeforeOrigin
  | sizeMismatch (mnemonic : Bytes) (emitted wanted : Nat)
  | undefinedSymbol (name : Bytes)
  deriving Repr, DecidableEq

namespace Fault

def kind : Fault → FaultKind
  | operand _ _ | missingComma | memoryToMemory | unexpectedText _ => .parse
  | noOperand _ | needsResolved _ _ => .missingOperand
  | duplicateLabel _ => .duplicateLabel
  | unknownShape _ | lostValue _ _ | sizeMismatch _ _ _ => .internal
  | blockBeforeOrigin | codeBeforeOrigin => .addressUndefined
  | undefinedSymbol _ => .unresolvedSymbol

def message : Fault → Bytes
  | operand fault text => fault.message ++ ascii " in " ++ Text.quote text
  | noOperand fault => fault.message
  | missingComma => ascii "expected ',' between operands"
  | memoryToMemory => ascii "MOV M,M is not a valid instruction"
  | unexpectedText text => ascii "unexpected text " ++ Text.quote text
  | unknownShape shape => ascii "no operand parser for model " ++ shape.name
  | duplicateLabel fault => fault.message
  | lostValue name value => name ++ ascii " lost its value " ++ value.text
  | needsResolved mnemonic text =>
    mnemonic ++ ascii " needs a resolved operand: " ++ text ++ ascii " undefined"
  | blockBeforeOrigin => ascii "DS before any ORG"
  | codeBeforeOrigin => ascii "no ORG before code"
  | sizeMismatch mnemonic emitted wanted =>
    mnemonic ++ ascii " emitted " ++ decimal emitted ++ ascii " bytes, want " ++ decimal wanted
  | undefinedSymbol name => ascii "undefined symbol " ++ name

end Fault

/-- A fault and its column in the line; column zero stands for the whole line. -/
structure LineFault where
  column : Nat
  fault : Fault
  deriving Repr, DecidableEq

structure Diagnostic where
  kind : FaultKind
  location : Location
  column : Nat
  message : Bytes
  deriving Repr, DecidableEq

namespace Diagnostic

def text (d : Diagnostic) : Bytes :=
  let column := if 0 < d.column then Byte.colon :: decimal d.column else []
  d.location.text ++ column ++ ascii ": " ++ d.kind.name ++ ascii ": " ++ d.message

end Diagnostic

def LineFault.diagnostic (f : LineFault) (location : Location) : Diagnostic :=
  ⟨f.fault.kind, location, f.column, f.fault.message⟩

end Assembler8080
