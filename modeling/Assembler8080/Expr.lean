import Assembler8080.Number
import Assembler8080.Operand.Fault
import Assembler8080.Operator
import Assembler8080.Symbol

/-! Operand expressions. Reading an expression does not look at symbols or addresses: the tree it
gives is the same in every pass, and only `eval` depends on the state of the assembly. A tree may
have holes, where the text has no expression; a hole carries its fault into the evaluation. -/
namespace Assembler8080

inductive Expr where
  | missing (gap : Gap)
  | number (literal : NumberLiteral)
  | label (reference : Reference)
  /-- A character between single quotes, as written, and its byte. -/
  | character (source : Bytes) (byte : UInt8)
  | here
  /-- An expression in parentheses, of which the right one may be missing. -/
  | group (inner : Expr) (closed : Bool)
  | unary (op : UnaryOp) (operand : Expr)
  | binary (op : BinaryOp) (left right : Expr)
  deriving Repr, DecidableEq

structure Environment where
  address : Value
  symbol : Reference → Symbol

/-- The outcome of an evaluation. The first fault wins. -/
structure Evaluation where
  value : Value
  fault : Option OperandFault
  deriving Repr, DecidableEq

namespace Evaluation

def failWith (e : Evaluation) (fault : Option OperandFault) : Evaluation :=
  { e with fault := e.fault.or fault }

def combine (op : BinaryOp) (a b : Evaluation) : Evaluation where
  value :=
    match a.value, b.value with
    | some x, some y => some (op.apply x y)
    | _, _ => none
  fault := (a.fault.or b.fault).or
    (if op.divides && a.value.isSome && b.value == some 0 then some .divisionByZero else none)

end Evaluation

namespace Expr

def isMissing : Expr → Bool
  | missing _ => true
  | _ => false

/-! ### Text and labels

Both are collected from the right, so that a long chain of operators takes time in proportion to
its length. -/

def textOnto : Expr → Bytes → Bytes
  | missing _, tail => tail
  | number literal, tail => literal.word ++ tail
  | label reference, tail => reference.source ++ tail
  | character source _, tail => source ++ tail
  | here, tail => Byte.dollar :: tail
  | group inner _, tail => Byte.leftParen :: inner.textOnto (Byte.rightParen :: tail)
  | unary op operand, tail => op.symbol ++ operand.textOnto tail
  | binary op left right, tail =>
    left.textOnto (Byte.blank :: (op.symbol ++ (Byte.blank :: right.textOnto tail)))

/-- The expression as it is shown: binary operators between blanks, holes left out. -/
def text (e : Expr) : Bytes := e.textOnto []

theorem textOnto_eq (e : Expr) (tail : Bytes) : e.textOnto tail = e.text ++ tail := by
  unfold text
  induction e generalizing tail with
  | missing | number | label | character | here => simp [textOnto]
  | group inner _ ih => simp [textOnto, ih (Byte.rightParen :: tail), ih [Byte.rightParen]]
  | unary op operand ih => simp [textOnto, ih tail]
  | binary op left right ihLeft ihRight =>
    rw [textOnto, textOnto, ihLeft, ihLeft (Byte.blank :: (op.symbol ++ _)), ihRight tail]
    simp

theorem text_group (inner : Expr) (closed : Bool) :
    (group inner closed).text = Byte.leftParen :: (inner.text ++ [Byte.rightParen]) := by
  rw [text, textOnto, textOnto_eq]

theorem text_unary (op : UnaryOp) (operand : Expr) :
    (unary op operand).text = op.symbol ++ operand.text := rfl

theorem text_binary (op : BinaryOp) (left right : Expr) :
    (binary op left right).text =
      left.text ++ (Byte.blank :: (op.symbol ++ (Byte.blank :: right.text))) := by
  rw [text, textOnto, textOnto_eq]
  rfl

def referencesOnto : Expr → List Reference → List Reference
  | missing _, tail | number _, tail | character _ _, tail | here, tail => tail
  | label reference, tail => reference :: tail
  | group inner _, tail => inner.referencesOnto tail
  | unary _ operand, tail => operand.referencesOnto tail
  | binary _ left right, tail => left.referencesOnto (right.referencesOnto tail)

def references (e : Expr) : List Reference := e.referencesOnto []

theorem referencesOnto_eq (e : Expr) (tail : List Reference) :
    e.referencesOnto tail = e.references ++ tail := by
  unfold references
  induction e generalizing tail with
  | missing | number | label | character | here => rfl
  | group inner _ ih => exact ih tail
  | unary _ operand ih => exact ih tail
  | binary _ left right ihLeft ihRight =>
    rw [referencesOnto, referencesOnto, ihLeft, ihLeft (right.referencesOnto []), ihRight tail]
    simp

theorem references_binary (op : BinaryOp) (left right : Expr) :
    (binary op left right).references = left.references ++ right.references := by
  rw [references, referencesOnto, referencesOnto_eq]
  rfl

/-! ### Value -/

def evalNumber (literal : NumberLiteral) : Evaluation :=
  match literal.value? with
  | some w => ⟨some w, none⟩
  | none => ⟨some 0, some (.outOfRange literal.word)⟩

/-- The value of an expression. An operator without its right operand has no effect. -/
def eval (env : Environment) : Expr → Evaluation
  | missing gap => ⟨none, some (.missing gap)⟩
  | number literal => evalNumber literal
  | label reference => ⟨(env.symbol reference).value, none⟩
  | character _ byte => ⟨some byte.toUInt16, none⟩
  | here => ⟨env.address, none⟩
  | group inner closed =>
    (inner.eval env).failWith (if closed then none else some .unclosedGroup)
  | unary op operand =>
    let e := operand.eval env
    { e with value := e.value.map op.apply }
  | binary op left right =>
    if right.isMissing then (left.eval env).failWith (right.eval env).fault
    else .combine op (left.eval env) (right.eval env)

theorem eval_binary (env : Environment) (op : BinaryOp) (left right : Expr) :
    (binary op left right).eval env =
      if right.isMissing then (left.eval env).failWith (right.eval env).fault
      else .combine op (left.eval env) (right.eval env) := by
  rw [eval]

/-- The symbols of an expression that have no value, in order and with repeats. -/
def undefined (env : Environment) (e : Expr) : List Bytes :=
  e.references.filterMap fun reference =>
    let s := env.symbol reference
    if s.value.isNone then some s.name else none

end Expr

end Assembler8080
