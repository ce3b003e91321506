import Mathlib.Data.Nat.Bitwise
import Mathlib.Tactic.Ring
import Assembler8080.Line

/-! What expressions stand for. A `Tree` is an expression without its layout; `Tree.denote` gives
its number by arithmetic on natural numbers below 65536, and `BinaryOp.toNat_apply` and
`UnaryOp.toNat_apply` say that the operators on words compute it. -/
namespace Assembler8080

def wordLimit : Nat := 65536

/-- All ones for a true comparison. -/
def truthNumber (p : Prop) [Decidable p] : Nat := if p then wordLimit - 1 else 0

theorem toNat_truthWord (b : Bool) (p : Prop) [Decidable p] (same : b = true ↔ p) :
    (truthWord b).toNat = truthNumber p := by
  unfold truthWord truthNumber
  cases b with
  | true => rw [if_pos rfl, if_pos (same.mp rfl)]; rfl
  | false => rw [if_neg Bool.false_ne_true, if_neg fun h => Bool.false_ne_true (same.mpr h)]; rfl

namespace BinaryOp

def number (op : BinaryOp) (a b : Nat) : Nat :=
  match op with
  | equal => truthNumber (a = b)
  | notEqual => truthNumber (a ≠ b)
  | atMost => truthNumber (a ≤ b)
  | atLeast => truthNumber (a ≥ b)
  | below => truthNumber (a < b)
  | above => truthNumber (a > b)
  | shiftLeft => a * 2 ^ (b % 32) % wordLimit
  | shiftRight => a / 2 ^ (b % 32)
  | or => a ||| b
  | xor => a ^^^ b
  | and => a &&& b
  | add => (a + b) % wordLimit
  | sub => (a + (wordLimit - b)) % wordLimit
  | mul => a * b % wordLimit
  | div => if b = 0 then 0 else a / b
  | mod => if b = 0 then 0 else a % b

theorem toNat_shiftCount (w : UInt16) : (shiftCount w).toNat = w.toNat % 32 := by
  unfold shiftCount
  rw [UInt16.toNat_and]
  exact Nat.and_two_pow_sub_one_eq_mod w.toNat 5

theorem toNat_shiftLeft (a b : UInt16) :
    (apply .shiftLeft a b).toNat = number .shiftLeft a.toNat b.toNat := by
  have count := toNat_shiftCount b
  simp only [apply, number]
  split
  next small =>
    have less : b.toNat % 32 < 16 := by rw [← count]; exact small
    rw [UInt16.toNat_shiftLeft, count, Nat.mod_eq_of_lt less, Nat.shiftLeft_eq]
    rfl
  next large =>
    have more : 16 ≤ b.toNat % 32 := by
      rw [← count]
      exact UInt16.le_iff_toNat_le.mp (UInt16.not_lt.mp large)
    have power : 2 ^ (b.toNat % 32) = wordLimit * 2 ^ (b.toNat % 32 - 16) := by
      rw [show wordLimit = 2 ^ 16 from rfl, ← Nat.pow_add]
      congr 1
      omega
    rw [power, show a.toNat * (wordLimit * 2 ^ (b.toNat % 32 - 16)) =
      wordLimit * (a.toNat * 2 ^ (b.toNat % 32 - 16)) by ring, Nat.mul_mod_right]
    rfl

theorem toNat_shiftRight (a b : UInt16) :
    (apply .shiftRight a b).toNat = number .shiftRight a.toNat b.toNat := by
  have count := toNat_shiftCount b
  simp only [apply, number]
  split
  next small =>
    have less : b.toNat % 32 < 16 := by rw [← count]; exact small
    rw [UInt16.toNat_shiftRight, count, Nat.mod_eq_of_lt less, Nat.shiftRight_eq_div_pow]
  next large =>
    have more : 16 ≤ b.toNat % 32 := by
      rw [← count]
      exact UInt16.le_iff_toNat_le.mp (UInt16.not_lt.mp large)
    have bound : a.toNat < 2 ^ (b.toNat % 32) :=
      Nat.lt_of_lt_of_le a.toNat_lt (Nat.pow_le_pow_right (by decide) more)
    rw [Nat.div_eq_of_lt bound]
    rfl

/-- The operators on words compute the numbers. -/
theorem toNat_apply (op : BinaryOp) (a b : UInt16) :
    (op.apply a b).toNat = op.number a.toNat b.toNat := by
  cases op with
  | equal => exact toNat_truthWord _ _ (by simp [UInt16.toNat_inj])
  | notEqual => exact toNat_truthWord _ _ (by simp [UInt16.toNat_inj])
  | atMost => exact toNat_truthWord _ _ (by simp [UInt16.le_iff_toNat_le])
  | atLeast => exact toNat_truthWord _ _ (by simp [UInt16.le_iff_toNat_le])
  | below => exact toNat_truthWord _ _ (by simp [UInt16.lt_iff_toNat_lt])
  | above => exact toNat_truthWord _ _ (by simp [UInt16.lt_iff_toNat_lt])
  | shiftLeft => exact toNat_shiftLeft a b
  | shiftRight => exact toNat_shiftRight a b
  | or => exact UInt16.toNat_or a b
  | xor => exact UInt16.toNat_xor a b
  | and => exact UInt16.toNat_and a b
  | add => exact UInt16.toNat_add a b
  | sub =>
    simp only [apply, number]
    rw [UInt16.toNat_sub, Nat.add_comm]
    rfl
  | mul => exact UInt16.toNat_mul a b
  | div =>
    simp only [apply, number]
    by_cases zero : b = 0
    · simp [zero]
    · have positive : b.toNat ≠ 0 := fun h => zero (UInt16.toNat_inj.mp h)
      simp [zero, positive]
  | mod =>
    simp only [apply, number]
    by_cases zero : b = 0
    · simp [zero]
    · have positive : b.toNat ≠ 0 := fun h => zero (UInt16.toNat_inj.mp h)
      simp [zero, positive]

end BinaryOp

namespace UnaryOp

def number (op : UnaryOp) (a : Nat) : Nat :=
  match op with
  | negate => (wordLimit - a) % wordLimit
  | plus => a
  | complement => wordLimit - 1 - a
  | not => truthNumber (a = 0)

theorem toNat_apply (op : UnaryOp) (a : UInt16) : (op.apply a).toNat = op.number a.toNat := by
  cases op with
  | negate =>
    simp only [apply, number]
    rw [UInt16.toNat_sub]
    rfl
  | plus => rfl
  | complement => exact UInt16.toNat_not a
  | not => exact toNat_truthWord _ _ (by simp [← UInt16.toNat_inj])

end UnaryOp

/-! ### Trees -/

inductive Leaf where
  | number (w : UInt16)
  | character (b : UInt8)
  | here
  | label (l : Label)
  deriving Repr, DecidableEq

inductive Tree where
  | leaf (l : Leaf)
  | unary (op : UnaryOp) (operand : Tree)
  | binary (op : BinaryOp) (left right : Tree)
  deriving Repr, DecidableEq

structure Valuation where
  here : Value
  label : Label → Value

def Leaf.value (v : Valuation) : Leaf → Value
  | number w => some w
  | character b => some b.toUInt16
  | here => v.here
  | label l => v.label l

namespace Tree

def leaves : Tree → List Leaf
  | leaf l => [l]
  | unary _ operand => operand.leaves
  | binary _ left right => left.leaves ++ right.leaves

/-- The number that a tree stands for, if every leaf has a value. -/
def denote (v : Valuation) : Tree → Option Nat
  | leaf l => (l.value v).map (·.toNat)
  | unary op operand => (operand.denote v).map op.number
  | binary op left right =>
    match left.denote v, right.denote v with
    | some a, some b => some (op.number a b)
    | _, _ => none

/-- A division or remainder of two known numbers has the divisor zero. -/
def DividesByZero (v : Valuation) : Tree → Prop
  | leaf _ => False
  | unary _ operand => operand.DividesByZero v
  | binary op left right =>
    (left.DividesByZero v ∨ right.DividesByZero v) ∨
      op.divides = true ∧ (left.denote v).isSome = true ∧ right.denote v = some 0

theorem denote_eq_none_iff (v : Valuation) (t : Tree) :
    t.denote v = none ↔ ∃ l ∈ t.leaves, l.value v = none := by
  induction t with
  | leaf l => simp [denote, leaves]
  | unary op operand ih => simpa [denote, leaves] using ih
  | binary op left right ihLeft ihRight =>
    have either : (binary op left right).denote v = none ↔
        left.denote v = none ∨ right.denote v = none := by
      rw [denote]
      cases left.denote v <;> cases right.denote v <;> simp
    rw [either, ihLeft, ihRight, leaves]
    constructor
    · rintro (⟨l, member, unknown⟩ | ⟨l, member, unknown⟩)
      · exact ⟨l, List.mem_append_left _ member, unknown⟩
      · exact ⟨l, List.mem_append_right _ member, unknown⟩
    · rintro ⟨l, member, unknown⟩
      rcases List.mem_append.mp member with first | second
      · exact .inl ⟨l, first, unknown⟩
      · exact .inr ⟨l, second, unknown⟩

end Tree

/-! ### Evaluation -/

/-- A reference to a label, as far as it matters to what it denotes. -/
def Scope.reference (scope : Scope) (l : Label) : Reference :=
  ⟨l, if l.kind = .global then [] else scope.file, 0, []⟩

/-- The address and the symbols before a line, for the names in a scope. -/
def State.valuation (state : State) (scope : Scope) : Valuation :=
  ⟨state.code.address, fun l => (state.symbols.denoted (scope.reference l)).value⟩

/-- Neither the line nor the spelling of a reference matters to its value. -/
theorem SymbolTable.denoted_congr (t : SymbolTable) {r r' : Reference}
    (label : r.toLabel = r'.toLabel) (file : r.file = r'.file) :
    (t.denoted r).value = (t.denoted r').value := by
  obtain ⟨l, f, line, source⟩ := r
  obtain ⟨l', f', line', source'⟩ := r'
  obtain rfl : l = l' := label
  obtain rfl : f = f' := file
  have found : t.find? ⟨l, f, line, source⟩ = t.find? ⟨l, f, line', source'⟩ := rfl
  unfold denoted
  rw [found]
  cases (t.find? ⟨l, f, line', source'⟩).bind t.get? <;> rfl

/-- In every state, an expression evaluates to the number of a tree, and without a fault unless the
tree divides by zero. -/
structure Expr.Means (scope : Scope) (e : Expr) (t : Tree) : Prop where
  present : e.isMissing = false
  value : ∀ state : State, (e.eval state.environment).value.map (·.toNat) =
    t.denote (state.valuation scope)
  fault : ∀ state : State, (e.eval state.environment).fault = none ↔
    ¬ t.DividesByZero (state.valuation scope)

namespace Expr

variable {scope : Scope}

theorem number_means {literal : NumberLiteral} {w : UInt16} (value : literal.value? = some w) :
    (number literal).Means scope (.leaf (.number w)) where
  present := rfl
  value state := by simp [eval, evalNumber, value, Tree.denote, Leaf.value]
  fault state := by simp [eval, evalNumber, value, Tree.DividesByZero]

theorem character_means (source : Bytes) (b : UInt8) :
    (character source b).Means scope (.leaf (.character b)) where
  present := rfl
  value state := rfl
  fault state := by simp [eval, Tree.DividesByZero]

theorem here_means : here.Means scope (.leaf .here) where
  present := rfl
  value state := rfl
  fault state := by simp [eval, Tree.DividesByZero]

theorem label_means {r : Reference} (file : r.file = (scope.reference r.toLabel).file) :
    (label r).Means scope (.leaf (.label r.toLabel)) where
  present := rfl
  value state := by
    have same : (state.symbols.denoted r).value =
        (state.symbols.denoted (scope.reference r.toLabel)).value :=
      state.symbols.denoted_congr rfl file
    exact congrArg (Option.map UInt16.toNat) same
  fault state := by simp [eval, Tree.DividesByZero]

theorem group_means {e : Expr} {t : Tree} (means : e.Means scope t) :
    (group e true).Means scope t where
  present := rfl
  value := means.value
  fault state := by
    rw [← means.fault]
    simp [eval, Evaluation.failWith]

theorem unary_means (op : UnaryOp) {e : Expr} {t : Tree} (means : e.Means scope t) :
    (unary op e).Means scope (.unary op t) where
  present := rfl
  value state := by
    rw [Tree.denote, ← means.value]
    simp only [eval, Option.map_map]
    exact congrArg (Option.map · _) (funext op.toNat_apply)
  fault := means.fault

theorem binary_means (op : BinaryOp) {e f : Expr} {t u : Tree} (left : e.Means scope t)
    (right : f.Means scope u) : (binary op e f).Means scope (.binary op t u) where
  present := rfl
  value state := by
    rw [Tree.denote, ← left.value, ← right.value]
    simp only [eval, right.present, Bool.false_eq_true, if_false, Evaluation.combine]
    cases (e.eval state.environment).value <;> cases (f.eval state.environment).value <;>
      simp [BinaryOp.toNat_apply]
  fault state := by
    simp only [eval, right.present, Bool.false_eq_true, if_false, Evaluation.combine,
      Option.or_eq_none_iff, Tree.DividesByZero, not_or, ← left.fault, ← right.fault,
      ← left.value, ← right.value]
    cases (e.eval state.environment).value <;>
      cases (f.eval state.environment).value <;> simp [← UInt16.toNat_inj]

end Expr

end Assembler8080
