import Assembler8080.Proofs.Comments
import Assembler8080.Proofs.IndexedLeaves

/-! What a walk over an expression leaves. It has read something, with a text, and stands further on in
the line; or it has read nothing, and then stands after the blanks, with the memory as it was and a
fault for a result. So an empty text is the same as nothing read, which is all that a scanner has to
go by. -/
namespace Assembler8080

namespace Cursor

theorem offset_advance (c : Cursor) (n : Nat) :
    (c.advance n).offset = c.offset + min n c.rest.length := by
  rw [advance, List.length_take]

theorem Reaches.length_eq {c d : Cursor} (path : c.Reaches d) :
    c.offset + c.rest.length = d.offset + d.rest.length := by
  obtain ⟨n, rfl⟩ := path
  rw [offset_advance, rest_advance, List.length_drop]
  omega

/-- Taking bytes makes the rest of a line shorter. -/
theorem length_advance_lt {c : Cursor} {n : Nat} (positive : 0 < n) (fits : n ≤ c.rest.length) :
    (c.advance n).rest.length < c.rest.length := by
  rw [rest_advance, List.length_drop]
  omega

end Cursor

theorem UnaryOp.length_advance_lt {c : Cursor} {op : UnaryOp} (found : first? c.rest = some op) :
    (c.advance op.symbol.length).rest.length < c.rest.length := by
  have start : op.symbol <+: c.rest := by simpa using List.find?_some found
  have positive : 0 < op.symbol.length := by cases op <;> decide
  exact Cursor.length_advance_lt positive start.length_le

/-! ### Values without parts -/

theorem NumberLiteral.word_ne_nil {s : Bytes} {n : NumberLiteral} (first : first? s = some n) :
    n.word ≠ [] := by
  intro empty
  simp only [first?] at first
  split at first
  next digit =>
    simp only [ofWord?] at first
    split at first
    next => contradiction
    next =>
      obtain rfl := Option.some.inj first
      cases s with
      | nil => simp at digit
      | cons b rest =>
        rw [List.head?_cons, Option.any_some] at digit
        simp [Lexeme.wordRun, Byte.isNameChar, digit] at empty
  next => contradiction

/-- A label is written where it is looked up, if no blanks stand before it. -/
theorem Scope.reference?_source {scope : Scope} {line : Int} {c d : Cursor} {r : Reference}
    (skipped : c.skipBlanks = c) (read : scope.reference? line c = some (r, d)) :
    r.source ≠ [] := by
  have further := reference?_offset read
  simp only [reference?, skipped] at read
  split at read
  next => contradiction
  next x _ =>
    obtain ⟨rfl, rfl⟩ := Prod.mk.inj (Option.some.inj read)
    intro empty
    have source : c.rest.take x.length = [] := empty
    rw [Cursor.advance, source] at further
    exact Nat.lt_irrefl _ further

namespace Term

variable {c d : Cursor} {e : Expr}

theorem leaf?_takes {scope : Scope} {line : Int} (skipped : c.skipBlanks = c)
    (found : leaf? scope line c = some (e, d)) : e.text ≠ [] ∧ d.rest.length < c.rest.length := by
  cases leafAt_of_leaf? found with
  | number first =>
    have word := NumberLiteral.word_ne_nil first
    refine ⟨by simpa [Expr.text, Expr.textOnto] using word, ?_⟩
    exact Cursor.length_advance_lt (List.length_pos_iff.mpr word) (NumberLiteral.word_length_le first)
  | label read =>
    have further := Scope.reference?_offset read
    have total := (Scope.reference?_reaches read).length_eq
    refine ⟨by simpa [Expr.text, Expr.textOnto] using Scope.reference?_source skipped read, ?_⟩
    omega
  | character byte quoted =>
    have marks := Indexed.quotation?_characters quoted
    have fits := Lexeme.quotation?_length_le quoted
    dsimp only at marks fits
    refine ⟨?_, Cursor.length_advance_lt (by omega) fits⟩
    apply List.ne_nil_of_length_pos
    simp only [Expr.text, Expr.textOnto, List.append_nil, List.length_take]
    omega
  | here dollar =>
    have fits := Cursor.one_le_of_next? (beq_iff_eq.mpr dollar)
    exact ⟨by simp [Expr.text, Expr.textOnto], Cursor.length_advance_lt Nat.one_pos fits⟩

end Term

/-! ### Walks -/

def Found.hole (column : Nat) (gap : Gap) : Found := ⟨column, [], true, ⟨none, some (.missing gap)⟩, []⟩

namespace Walk

/-- What a walk from a place leaves: nothing read, or some of the line. -/
inductive Leaves (m : Memory) (c : Cursor) : (Found × Memory) × Cursor → Prop where
  | nothing (column : Nat) (gap : Gap) : Leaves m c ((.hole column gap, m), c.skipBlanks)
  | something {f : Found} {m' : Memory} {d : Cursor} (missing : f.missing = false)
      (text : f.text ≠ []) (shorter : d.rest.length < c.rest.length) : Leaves m c ((f, m'), d)

/-- Nothing is read exactly where the text is empty. -/
theorem Leaves.missing_eq {m : Memory} {c : Cursor} {out : (Found × Memory) × Cursor}
    (leaves : Leaves m c out) : out.1.1.missing = out.1.1.text.isEmpty := by
  cases leaves with
  | nothing column gap => rfl
  | something missing text shorter => simp [missing, text]

variable {s : Setting}

/-- Once something is read, a chain of operators goes on from it. -/
theorem chainFrom_something {operand : Walk Found} {level : Nat} {left : Found} {m : Memory}
    {c : Cursor} (missing : left.missing = false) (text : left.text ≠ []) :
    (chainFrom operand level left m c).1.1.missing = false ∧
      (chainFrom operand level left m c).1.1.text ≠ [] := by
  fun_induction chainFrom operand level left m c with
  | case1 => exact ⟨missing, text⟩
  | case2 left m c op found same right shorter ih =>
    apply ih
    · rfl
    · simp [Found.binary]
  | case3 => exact ⟨missing, text⟩

theorem chain_leaves {operand : Walk Found} (operands : ∀ m c, Leaves m c ((operand m).run c))
    (level : Nat) (m : Memory) (c : Cursor) : Leaves m c ((chain operand level m).run c) := by
  have first := operands m c
  dsimp only [chain]
  generalize (operand m).run c = out at first
  cases first with
  | nothing column gap => exact .nothing column gap
  | @something f m' d missing text shorter =>
    have later := (chainFrom_reaches operand level f m' d).length_le
    obtain ⟨missing', text'⟩ := @chainFrom_something operand level f m' d missing text
    simp only [missing, Bool.false_eq_true, if_false]
    exact .something missing' text' (by omega)

theorem climb_leaves {value : Walk Found} (values : ∀ m c, Leaves m c ((value m).run c)) (n : Nat)
    (m : Memory) (c : Cursor) : Leaves m c ((climb value n m).run c) := by
  induction n generalizing m c with
  | zero => exact values m c
  | succ n ih => exact chain_leaves ih _ m c

/-- A unary operator takes some of the line with its operand, and nothing without. -/
theorem unary_leaves {value : Walk Found} (values : ∀ m c, Leaves m c ((value m).run c))
    {op : UnaryOp} {m : Memory} {c : Cursor} (found : UnaryOp.first? c.rest = some op)
    (skipped : c.skipBlanks = c) : Leaves m c (unary value op m c) := by
  have inner := values m (c.advance op.symbol.length)
  have taken := UnaryOp.length_advance_lt found
  dsimp only [unary]
  generalize (value m).run (c.advance op.symbol.length) = out at inner
  cases inner with
  | nothing column gap =>
    have leaves := Leaves.nothing (m := m) (c := c) column gap
    rw [skipped] at leaves
    exact leaves
  | something missing text shorter =>
    simp only [missing, Bool.false_eq_true, if_false]
    refine .something rfl ?_ (by omega)
    simp [Found.unary, text]

theorem group_leaves (value : Walk Found) {m : Memory} {c : Cursor}
    (next : (c.next? == some Byte.leftParen) = true) : Leaves m c (group value m c) := by
  have taken := Cursor.length_advance_lt Nat.one_pos (Cursor.one_le_of_next? next)
  have inner := ((climb value BinaryOp.levels m).reaches (c.advance 1)).length_le
  have close := (Cursor.Reaches.skipBlanks
    ((climb value BinaryOp.levels m).run (c.advance 1)).2).length_le
  dsimp only [group]
  split
  · have last := (Cursor.Reaches.advance
      ((climb value BinaryOp.levels m).run (c.advance 1)).2.skipBlanks 1).length_le
    exact .something rfl (by simp [Found.group]) (by omega)
  · exact .something rfl (by simp [Found.group]) (by omega)

theorem nestedValue_leaves {inner : Option (Walk Found)}
    (values : ∀ value ∈ inner, ∀ m c, Leaves m c ((value m).run c)) (m : Memory) {c : Cursor}
    (skipped : c.skipBlanks = c) : Leaves m c (nestedValue s inner m c) := by
  have gap (gap : Gap) : Leaves m c (hole s m gap c) := by
    have leaves := Leaves.nothing (m := m) (c := c) c.column gap
    rw [skipped] at leaves
    exact leaves
  unfold nestedValue
  split
  next paren =>
    cases inner with
    | none => exact gap _
    | some value => exact group_leaves value paren
  next =>
    cases found : UnaryOp.first? c.rest with
    | none => exact gap _
    | some op =>
      cases inner with
      | none => exact gap _
      | some value => exact unary_leaves (values value rfl) found skipped

theorem valueAround_leaves (scope : Scope) (line : Int) {inner : Option (Walk Found)}
    (values : ∀ value ∈ inner, ∀ m c, Leaves m c ((value m).run c)) (m : Memory) (c : Cursor) :
    Leaves m c ((valueAround s scope line inner m).run c) := by
  have skipped := c.skipBlanks_skipBlanks
  have blanks := (Cursor.Reaches.skipBlanks c).length_le
  -- What is left from the place after the blanks is left from the place before them.
  have early {out : (Found × Memory) × Cursor} (leaves : Leaves m c.skipBlanks out) :
      Leaves m c out := by
    cases leaves with
    | nothing column gap =>
      rw [skipped]
      exact .nothing column gap
    | something missing text shorter => exact .something missing text (by omega)
  dsimp only [valueAround]
  cases found : Term.leaf? scope line c.skipBlanks with
  | none => exact early (nestedValue_leaves values m skipped)
  | some leaf =>
    obtain ⟨e, d⟩ := leaf
    obtain ⟨text, shorter⟩ := Term.leaf?_takes skipped found
    exact .something (Term.leaf?_isMissing found) text (by omega)

theorem value_leaves (scope : Scope) (line : Int) (room : Nat) (m : Memory) (c : Cursor) :
    Leaves m c ((value s scope line room m).run c) := by
  induction room generalizing m c with
  | zero => exact valueAround_leaves scope line (by simp) m c
  | succ room ih =>
    refine valueAround_leaves scope line (fun value inside => ?_) m c
    obtain rfl := Option.some.inj inside
    exact ih

end Walk

end Assembler8080
