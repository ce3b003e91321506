import Assembler8080.Proofs.CommentedText
import Assembler8080.Proofs.Evaluation

/-! Expressions in a line with a comment added. A comment has no operator and closes no parenthesis,
so an expression without holes is read as before, up to the same place (`Term.Steady`), and where
there was no expression there is still none. One step (`chain_steady`, `group_steady`,
`unary_steady`) says this of each construct, and `full_steady` of all expressions, by the levels
of the operators and the room for nesting. -/
namespace Assembler8080

/-! ### Expressions without holes -/

namespace Expr

/-- An expression without holes, with its parentheses closed. -/
def IsComplete : Expr → Prop
  | missing _ => False
  | number _ | label _ | character _ _ | here => True
  | group inner closed => closed = true ∧ inner.IsComplete
  | unary _ operand => operand.IsComplete
  | binary _ left right => left.IsComplete ∧ right.IsComplete

theorem IsComplete.isMissing_eq {e : Expr} (complete : e.IsComplete) : e.isMissing = false := by
  cases e with
  | missing => exact complete.elim
  | _ => rfl

theorem isComplete_of_fault {env : Environment} {e : Expr} (right : (e.eval env).fault = none) :
    e.IsComplete := by
  induction e with
  | missing => contradiction
  | number | label | character | here => trivial
  | group inner closed ih =>
    simp only [eval, Evaluation.failWith, Option.or_eq_none_iff] at right
    obtain ⟨inside, close⟩ := right
    refine ⟨?_, ih inside⟩
    cases closed with
    | true => rfl
    | false => contradiction
  | unary op operand ih => exact ih right
  | binary op left right' ihLeft ihRight =>
    rw [eval_binary] at right
    split at right
    next gap =>
      have fault : (right'.eval env).fault.isSome = true := fault_of_isMissing gap
      simp only [Evaluation.failWith, Option.or_eq_none_iff] at right
      rw [right.2] at fault
      contradiction
    next =>
      simp only [Evaluation.combine, Option.or_eq_none_iff] at right
      exact ⟨ihLeft right.1.1, ihRight right.1.2⟩

end Expr

/-! ### Operators -/

theorem isPrefixOf_remark {symbol : Bytes} (apart : Byte.blank ∉ symbol) (s c : Bytes) :
    symbol.isPrefixOf (s ++ remark c) = symbol.isPrefixOf s := by
  induction symbol generalizing s with
  | nil => simp
  | cons a symbol ih =>
    obtain ⟨first, others⟩ := not_or.mp (List.mem_cons.not.mp apart)
    cases s with
    | nil =>
      have other : (a == Byte.blank) = false := by simpa using Ne.symm first
      rw [List.nil_append, remark, List.isPrefixOf_cons_cons, other]
      rfl
    | cons b rest =>
      rw [List.cons_append, List.isPrefixOf_cons_cons, List.isPrefixOf_cons_cons, ih others]

theorem BinaryOp.first?_remark (s c : Bytes) : first? (s ++ remark c) = first? s := by
  have apart (op : BinaryOp) : Byte.blank ∉ op.symbol := by cases op <;> decide
  simp only [first?, isPrefixOf_remark (apart _)]

theorem UnaryOp.first?_remark (s c : Bytes) : first? (s ++ remark c) = first? s := by
  have apart (op : UnaryOp) : Byte.blank ∉ op.symbol := by cases op <;> decide
  simp only [first?, isPrefixOf_remark (apart _)]

theorem Cursor.next?_remarked {c : Bytes} {p : Cursor} (nonempty : p.rest ≠ []) :
    (p.remarked c).next? = p.next? := by
  obtain ⟨offset, rest⟩ := p
  cases rest with
  | nil => exact (nonempty rfl).elim
  | cons b rest => rfl

/-- After blanks, the same operator follows. -/
theorem Cursor.Beside.nextOp? {c : Bytes} {p q : Cursor} (beside : Beside c p q) :
    BinaryOp.first? q.skipBlanks.rest = BinaryOp.first? p.skipBlanks.rest := by
  rcases beside.skipBlanks with ⟨-, same⟩ | ⟨last, later⟩
  · rw [same]
    exact BinaryOp.first?_remark _ c
  · rw [later, last]
    rfl

/-! ### Expressions -/

namespace Term

open Cursor (Beside)

/-- A reader of expressions that comments do not disturb. -/
structure Steady (c : Bytes) (reader : Reader Term) : Prop where
  ended {p : Cursor} (ends : EndsLine p.skipBlanks.rest) : (reader.run p).1.expr.isMissing = true
  missing {p q : Cursor} (beside : Beside c p q) (gap : (reader.run p).1.expr.isMissing = true) :
    (reader.run q).1.expr.isMissing = true
  whole {p q : Cursor} (beside : Beside c p q) (complete : (reader.run p).1.expr.IsComplete) :
    (reader.run q).1 = (reader.run p).1 ∧ Beside c (reader.run p).2 (reader.run q).2

variable {c : Bytes} {operand : Reader Term} {level : Nat} {left : Term} {p q : Cursor}

theorem left_isComplete (complete : (chainFrom operand level left p).1.expr.IsComplete) :
    left.expr.IsComplete := by
  fun_induction chainFrom operand level left p with
  | case1 => exact complete
  | case2 left p op found same right shorter ih => exact (ih complete).1
  | case3 => exact complete

theorem chainFrom_isMissing (present : left.expr.isMissing = false) :
    (chainFrom operand level left p).1.expr.isMissing = false := by
  fun_induction chainFrom operand level left p with
  | case1 => exact present
  | case2 left p op found same right shorter ih => exact ih rfl
  | case3 => exact present

theorem chainFrom_of_none (stops : BinaryOp.first? p.skipBlanks.rest = none) :
    chainFrom operand level left p = (left, p) := by
  unfold chainFrom
  split
  next => rfl
  next op found =>
    rw [stops] at found
    contradiction

theorem chainFrom_of_some {op : BinaryOp} (found : BinaryOp.first? p.skipBlanks.rest = some op) :
    chainFrom operand level left p =
      if op.level = level then
        let right := operand.run (p.skipBlanks.advance op.symbol.length)
        chainFrom operand level ⟨left.column, .binary op left.expr right.1.expr⟩ right.2
      else (left, p) := by
  rw [chainFrom]
  split
  next stops =>
    rw [found] at stops
    contradiction
  next op' other =>
    obtain rfl : op = op' := Option.some.inj (found.symm.trans other)
    rfl

theorem chainFrom_steady (steady : Steady c operand) (beside : Beside c p q)
    (complete : (chainFrom operand level left p).1.expr.IsComplete) :
    (chainFrom operand level left q).1 = (chainFrom operand level left p).1 ∧
      Beside c (chainFrom operand level left p).2 (chainFrom operand level left q).2 := by
  fun_induction chainFrom operand level left p generalizing q with
  | case1 left p stops =>
    rw [chainFrom_of_none (beside.nextOp?.trans stops)]
    exact ⟨rfl, beside⟩
  | case2 left p op found same right shorter =>
    rename_i ih
    rw [chainFrom_of_some (beside.nextOp?.trans found), if_pos same]
    -- The operator is before the comment, and so is its right operand.
    have length := (BinaryOp.symbol_isPrefix found).length_le
    have after : Beside c (p.skipBlanks.advance op.symbol.length)
        (q.skipBlanks.advance op.symbol.length) := by
      rcases beside.skipBlanks with ⟨-, here⟩ | ⟨last, -⟩
      · rw [here, Cursor.advance_remarked length]
        exact .before _
      · rw [last] at found
        contradiction
    obtain ⟨operands, ends⟩ := steady.whole after (left_isComplete complete).2
    dsimp only
    rw [operands]
    exact ih ends complete
  | case3 left p op found other =>
    rw [chainFrom_of_some (beside.nextOp?.trans found), if_neg other]
    exact ⟨rfl, beside⟩

theorem chain_steady (steady : Steady c operand) : Steady c (chain operand level) where
  ended {p} ends := by
    have first := steady.ended ends
    unfold chain
    dsimp only
    rw [if_pos first]
    exact first
  missing {p q} beside gap := by
    unfold chain at gap ⊢
    dsimp only at gap ⊢
    split at gap
    next first =>
      have first' := steady.missing beside first
      rw [if_pos first']
      exact first'
    next first =>
      rw [chainFrom_isMissing (by simpa using first)] at gap
      contradiction
  whole {p q} beside complete := by
    unfold chain at complete ⊢
    dsimp only at complete ⊢
    split at complete
    next first =>
      rw [complete.isMissing_eq] at first
      contradiction
    next first =>
      obtain ⟨same, ends⟩ := steady.whole beside (left_isComplete complete)
      rw [if_neg first, same, if_neg first]
      exact chainFrom_steady steady ends complete

theorem climb_steady {value : Reader Term} (steady : Steady c value) (n : Nat) :
    Steady c (climb value n) := by
  induction n with
  | zero => exact steady
  | succ n ih => exact chain_steady ih

section Values

variable {value : Reader Term}

theorem group_steady (steady : Steady c value) (nonempty : p.rest ≠ [])
    (complete : (group value p).1.expr.IsComplete) :
    (group value (p.remarked c)).1 = (group value p).1 ∧
      Beside c (group value p).2 (group value (p.remarked c)).2 := by
  have start : (p.remarked c).advance 1 = (p.advance 1).remarked c :=
    Cursor.advance_remarked (List.length_pos_iff.mpr nonempty)
  have column : (p.remarked c).column = p.column := rfl
  unfold group at complete ⊢
  dsimp only at complete ⊢
  rw [start, column]
  split at complete
  next closes =>
    obtain ⟨same, ends⟩ := (climb_steady steady BinaryOp.levels).whole (.before _) complete.2
    rcases ends.skipBlanks with ⟨more, here⟩ | ⟨last, -⟩
    · rw [same, here, Cursor.next?_remarked more, if_pos closes, if_pos closes,
        Cursor.advance_remarked (List.length_pos_iff.mpr more)]
      exact ⟨rfl, .before _⟩
    · rw [Cursor.next?, last] at closes
      contradiction
  next => exact absurd complete.1 Bool.false_ne_true

theorem unary_steady (steady : Steady c value) {op : UnaryOp}
    (found : UnaryOp.first? p.rest = some op) :
    ((unary value op p).1.expr.isMissing = true →
      (unary value op (p.remarked c)).1.expr.isMissing = true) ∧
    ((unary value op p).1.expr.IsComplete →
      (unary value op (p.remarked c)).1 = (unary value op p).1 ∧
        Beside c (unary value op p).2 (unary value op (p.remarked c)).2) := by
  have length : op.symbol.length ≤ p.rest.length := by
    have starts := List.find?_some found
    exact (List.isPrefixOf_iff_prefix.mp starts).length_le
  have start := Cursor.advance_remarked (c := c) length
  have column : (p.remarked c).column = p.column := rfl
  unfold unary
  dsimp only
  rw [start, column]
  by_cases gap : (value.run (p.advance op.symbol.length)).1.expr.isMissing = true
  · have gap' := steady.missing (.before _) gap
    rw [if_pos gap, if_pos gap']
    refine ⟨fun _ => gap', fun complete => ?_⟩
    rw [complete.isMissing_eq] at gap
    contradiction
  · rw [if_neg gap]
    refine ⟨fun missing => by contradiction, fun complete => ?_⟩
    obtain ⟨same, ends⟩ := steady.whole (.before _) complete
    rw [same, if_neg gap]
    exact ⟨rfl, ends⟩

theorem nestedValue_steady {inner : Option (Reader Term)}
    (steady : ∀ value ∈ inner, Steady c value) (nonempty : p.rest ≠ []) :
    ((nestedValue inner p).1.expr.isMissing = true →
      (nestedValue inner (p.remarked c)).1.expr.isMissing = true) ∧
    ((nestedValue inner p).1.expr.IsComplete →
      (nestedValue inner (p.remarked c)).1 = (nestedValue inner p).1 ∧
        Beside c (nestedValue inner p).2 (nestedValue inner (p.remarked c)).2) := by
  have ops : UnaryOp.first? (p.remarked c).rest = UnaryOp.first? p.rest :=
    UnaryOp.first?_remark p.rest c
  unfold nestedValue
  rw [Cursor.next?_remarked nonempty, ops]
  split
  · cases inner with
    | none => exact ⟨fun _ => rfl, fun complete => complete.elim⟩
    | some value =>
      refine ⟨fun missing => ?_, group_steady (steady value rfl) nonempty⟩
      unfold group at missing
      dsimp only at missing
      split at missing <;> contradiction
  · split
    next op found =>
      cases inner with
      | none => exact ⟨fun _ => rfl, fun complete => complete.elim⟩
      | some value => exact unary_steady (steady value rfl) found
    next => exact ⟨fun _ => rfl, fun complete => complete.elim⟩

theorem leaf?_isMissing {scope : Scope} {line : Int} {d : Cursor} {e : Expr}
    (found : leaf? scope line p = some (e, d)) : e.isMissing = false := by
  cases leafAt_of_leaf? found <;> rfl

theorem valueAround_ended (scope : Scope) (line : Int) (inner : Option (Reader Term))
    (ends : EndsLine p.skipBlanks.rest) :
    ((valueAround scope line inner).run p).1.expr.isMissing = true := by
  have same : (valueAround scope line inner).run p.skipBlanks =
      (valueAround scope line inner).run p := by
    simp only [valueAround, p.skipBlanks_skipBlanks]
  rw [← same]
  have unquoted : Lexeme.quotation? Byte.singleQuote p.skipBlanks.rest = none :=
    (Option.or_eq_none_iff.mp ends.quotation?).1
  refine valueAround_isMissing scope line inner p.skipBlanks.offset ends.dataMarks
    fun length found => ?_
  exact Option.some_ne_none _ (found.symm.trans unquoted)

theorem valueAround_steady (scope : Scope) (line : Int) {inner : Option (Reader Term)}
    (steady : ∀ value ∈ inner, Steady c value) : Steady c (valueAround scope line inner) where
  ended := valueAround_ended scope line inner
  missing {p q} beside gap := by
    rcases beside.skipBlanks with ⟨more, here⟩ | ⟨-, later⟩
    · unfold valueAround at gap ⊢
      dsimp only at gap ⊢
      rw [here, leaf?_remark]
      cases found : leaf? scope line p.skipBlanks with
      | some leaf =>
        rw [found] at gap
        rw [leaf?_isMissing found] at gap
        contradiction
      | none =>
        rw [found] at gap
        exact (nestedValue_steady steady more).1 gap
    · exact valueAround_ended scope line inner (by rw [later]; simp [EndsLine])
  whole {p q} beside complete := by
    rcases beside.skipBlanks with ⟨more, here⟩ | ⟨last, -⟩
    · unfold valueAround at complete ⊢
      dsimp only at complete ⊢
      rw [here, leaf?_remark]
      cases found : leaf? scope line p.skipBlanks with
      | some leaf => exact ⟨rfl, .before _⟩
      | none =>
        rw [found] at complete
        exact (nestedValue_steady steady more).2 complete
    · have gap := valueAround_ended (p := p) scope line inner (by rw [last]; simp [EndsLine])
      rw [complete.isMissing_eq] at gap
      contradiction

end Values

theorem value_steady (scope : Scope) (line : Int) (room : Nat) : Steady c (value scope line room) := by
  induction room with
  | zero => exact valueAround_steady scope line (by simp)
  | succ room ih => exact valueAround_steady scope line (by simpa using ih)

theorem full_steady (scope : Scope) (line : Int) : Steady c (full scope line) :=
  climb_steady (value_steady scope line _) _

end Term

end Assembler8080
