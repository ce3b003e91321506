import Assembler8080.Register

/-! What can be wrong with an operand. -/
namespace Assembler8080

/-- Why no expression was read where one could start. -/
inductive Gap where
  | noValue
  | tooDeep
  deriving Repr, DecidableEq

inductive OperandFault where
  | missing (gap : Gap)
  | unclosedGroup
  | outOfRange (word : Bytes)
  | divisionByZero
  | expected (bank : RegisterBank)
  | restartRange
  deriving Repr, DecidableEq

namespace OperandFault

def message : OperandFault → Bytes
  | missing .noValue => ascii "valid value not found"
  | missing .tooDeep => ascii "expression nested too deeply"
  | unclosedGroup => ascii "missing right parenthesis in operand expression"
  | outOfRange word => ascii "numeric literal out of range (0-65535): " ++ word
  | divisionByZero => ascii "division by zero"
  | expected bank => ascii "expected " ++ bank.description
  | restartRange => ascii "restart number must be 0-7"

end OperandFault

end Assembler8080
