import Mathlib.Data.List.Forall2
import Assembler8080.Line

/-! What the value of an expression depends on, and what the shape of an operand does not. An
expression without a fault and with a value is resolved throughout, so its value stays when more
symbols become known (`Expr.word_mono`). Everything else about an operand is the same in every
environment (`OperandSource.operand_alike`). -/
namespace Assembler8080

namespace Expr

/-- An evaluation sees the address and the values of the labels that are written. -/
theorem eval_congr {env env' : Environment} (e : Expr) (address : env.address = env'.address)
    (symbols : ∀ r ∈ e.references, (env.symbol r).value = (env'.symbol r).value) :
    e.eval env = e.eval env' := by
  induction e with
  | missing | number | character => rfl
  | label r =>
    simp only [eval, Evaluation.mk.injEq, and_true]
    exact symbols r (by simp [references, referencesOnto])
  | here => simp only [eval, address]
  | group inner closed ih => simp only [eval, ih symbols]
  | unary op operand ih => simp only [eval, ih symbols]
  | binary op left right ihLeft ihRight =>
    rw [references_binary] at symbols
    have first := ihLeft fun r member => symbols r (List.mem_append_left _ member)
    have second := ihRight fun r member => symbols r (List.mem_append_right _ member)
    rw [eval_binary, eval_binary, first, second]

theorem fault_of_isMissing {env : Environment} {e : Expr} (gap : e.isMissing = true) :
    (e.eval env).fault.isSome = true := by
  cases e with
  | missing => rfl
  | _ => contradiction

/-- Without a fault, a value needs the values of all labels. -/
theorem resolved_of_eval {env : Environment} {e : Expr} {w : UInt16}
    (eval : e.eval env = ⟨some w, none⟩) : ∀ r ∈ e.references, ∃ v, (env.symbol r).value = some v := by
  induction e generalizing w with
  | missing | number | character | here => simp [references, referencesOnto]
  | label r =>
    intro r' member
    obtain rfl : r' = r := by simpa [references, referencesOnto] using member
    simp only [Expr.eval, Evaluation.mk.injEq, and_true] at eval
    exact ⟨w, eval⟩
  | group inner closed ih =>
    simp only [Expr.eval, Evaluation.failWith, Evaluation.mk.injEq, Option.or_eq_none_iff] at eval
    exact ih (w := w) (by rw [← eval.1, ← eval.2.1])
  | unary op operand ih =>
    simp only [Expr.eval, Evaluation.mk.injEq, Option.map_eq_some_iff] at eval
    obtain ⟨⟨v, value, -⟩, fault⟩ := eval
    exact ih (w := v) (by rw [← value, ← fault])
  | binary op left right ihLeft ihRight =>
    rw [eval_binary] at eval
    split at eval
    next gap =>
      -- An operator without its right operand carries the fault of the gap.
      simp only [Evaluation.failWith, Evaluation.mk.injEq, Option.or_eq_none_iff] at eval
      have fault : (right.eval env).fault.isSome = true := fault_of_isMissing gap
      rw [eval.2.2] at fault
      contradiction
    next =>
      simp only [Evaluation.combine, Evaluation.mk.injEq, Option.or_eq_none_iff] at eval
      obtain ⟨value, ⟨leftFault, rightFault⟩, -⟩ := eval
      split at value
      next a b leftValue rightValue =>
        rw [references_binary]
        intro r member
        rcases List.mem_append.mp member with first | second
        · exact ihLeft (w := a) (by rw [← leftValue, ← leftFault]) r first
        · exact ihRight (w := b) (by rw [← rightValue, ← rightFault]) r second
      next => contradiction

def word (env : Environment) (e : Expr) : Value :=
  if (e.eval env).fault.isNone then (e.eval env).value else none

theorem word_eq_some_iff {env : Environment} {e : Expr} {w : UInt16} :
    e.word env = some w ↔ e.eval env = ⟨some w, none⟩ := by
  generalize outcome : e.eval env = v
  obtain ⟨value, fault⟩ := v
  cases fault <;> simp [word, outcome]

/-- A word stays when more symbols are resolved. -/
theorem word_mono {env env' : Environment} {e : Expr} {w : UInt16}
    (address : env.address = env'.address)
    (symbols : ∀ r ∈ e.references, ∀ v, (env.symbol r).value = some v →
      (env'.symbol r).value = some v)
    (word : e.word env = some w) : e.word env' = some w := by
  rw [word_eq_some_iff] at word ⊢
  rw [← word]
  symm
  refine eval_congr e address fun r member => ?_
  obtain ⟨v, resolved⟩ := resolved_of_eval word r member
  rw [resolved, symbols r member v resolved]

end Expr

/-! ### Operands -/

/-- Operands that differ at most in values and faults. -/
structure Operand.Alike (a b : Operand) : Prop where
  kind : a.kind = b.kind
  text : a.text = b.text
  column : a.column = b.column
  size : a.bytes.length = b.bytes.length

theorem Operand.Alike.symm {a b : Operand} (alike : a.Alike b) : b.Alike a :=
  ⟨alike.kind.symm, alike.text.symm, alike.column.symm, alike.size.symm⟩

theorem Operand.Alike.trans {a b c : Operand} (first : a.Alike b) (second : b.Alike c) : a.Alike c :=
  ⟨first.kind.trans second.kind, first.text.trans second.text, first.column.trans second.column,
    first.size.trans second.size⟩

theorem alike_of_common {a b c : List Operand} (left : List.Forall₂ Operand.Alike a c)
    (right : List.Forall₂ Operand.Alike b c) : List.Forall₂ Operand.Alike a b := by
  induction left generalizing b with
  | nil =>
    cases right
    exact .nil
  | cons first _ ih =>
    cases right with
    | cons second rest => exact .cons (first.trans second.symm) (ih rest)

theorem DataForm.operand_alike (env env' : Environment) (column : Nat) (form : DataForm) :
    (form.operand env column).Alike (form.operand env' column) := by
  cases form <;> exact ⟨rfl, rfl, rfl, rfl⟩

theorem restartOperand_plain (env : Environment) (e : Expr) (column : Nat) :
    (restartOperand env e column).kind = .restart ∧ (restartOperand env e column).text = e.text ∧
      (restartOperand env e column).column = column ∧ (restartOperand env e column).bytes = [] := by
  unfold restartOperand
  dsimp only
  split
  · split <;> exact ⟨rfl, rfl, rfl, rfl⟩
  · exact ⟨rfl, rfl, rfl, rfl⟩

theorem restartOperand_alike (env env' : Environment) (e : Expr) (column : Nat) :
    (restartOperand env e column).Alike (restartOperand env' e column) := by
  obtain ⟨kind, text, place, bytes⟩ := restartOperand_plain env e column
  obtain ⟨kind', text', place', bytes'⟩ := restartOperand_plain env' e column
  exact ⟨kind.trans kind'.symm, text.trans text'.symm, place.trans place'.symm, by rw [bytes, bytes']⟩

theorem flatMap_bytes_length {a b : List Operand} (alike : List.Forall₂ Operand.Alike a b) :
    (a.flatMap (·.bytes)).length = (b.flatMap (·.bytes)).length := by
  induction alike with
  | nil => rfl
  | cons first _ ih => simp only [List.flatMap_cons, List.length_append, first.size, ih]

theorem forall₂_alike {α : Type} {f g : α → Operand} (alike : ∀ x, (f x).Alike (g x)) (l : List α) :
    List.Forall₂ Operand.Alike (l.map f) (l.map g) := by
  induction l with
  | nil => exact .nil
  | cons x rest ih => exact .cons (alike x) ih

/-- An operand has its kind, text and column from the source line and as many bytes as its form
says. -/
theorem OperandSource.operand_alike (env env' : Environment) (s : OperandSource) :
    (s.operand env).Alike (s.operand env') := by
  obtain ⟨column, form⟩ := s
  cases form with
  | register => exact ⟨rfl, rfl, rfl, rfl⟩
  | restart e => exact restartOperand_alike env env' e column
  | data form => exact form.operand_alike env env' column
  | list kind items text =>
    have alike := forall₂_alike (DataForm.operand_alike env env' 0) items
    exact ⟨rfl, rfl, rfl, flatMap_bytes_length alike⟩
  | size e => exact ⟨rfl, rfl, rfl, rfl⟩

theorem Statement.operands_alike (env env' : Environment) (s : Statement) :
    List.Forall₂ Operand.Alike (s.operands env) (s.operands env') := by
  unfold Statement.operands
  split
  · exact forall₂_alike (OperandSource.operand_alike env env') _
  · exact .nil

theorem Command.encoding_length (operation : Operation) {a b : List Operand}
    (alike : List.Forall₂ Operand.Alike a b) :
    (encoding operation a).length = (encoding operation b).length := by
  cases operation with
  | machine opcode => simp only [encoding, List.length_cons, flatMap_bytes_length alike]
  | directive d => exact flatMap_bytes_length alike

end Assembler8080
