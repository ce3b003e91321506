import Assembler8080.Proofs.CommentedTerms
import Assembler8080.Proofs.Independence
import Assembler8080.Proofs.Placeholders

/-! Comments do not change code. A line is never cut at its comment before it is read, so every reader
has a comment added to what it reads. Where it reads something right it reads the same and stops at
the same place, or at the end of the line and before the semicolon (`Cursor.Beside`): this holds of
expressions without holes (`Term.Steady`), and from them of operands, lists and commands. A line
without faults has nothing else in it. -/
namespace Assembler8080

/-! ### Operands -/

/-- What an operand without a fault is like. -/
def OperandForm.IsRight : OperandForm → Prop
  | register bank word => (bank.number? word).isSome = true
  | restart e | size e => e.IsComplete
  | data form => form.Every Expr.IsComplete
  | list _ items text => (∀ item ∈ items, item.Every Expr.IsComplete) ∧ (items = [] → text ≠ [])

theorem DataForm.every_isComplete {env : Environment} {form : DataForm} {column : Nat}
    (right : (form.operand env column).fault = none) : form.Every Expr.IsComplete := by
  cases form with
  | byte e | word e => exact Expr.isComplete_of_fault right
  | string => trivial

theorem OperandSource.isRight_of_fault {env : Environment} {s : OperandSource}
    (right : (s.operand env).fault = none) : s.form.IsRight := by
  obtain ⟨column, form⟩ := s
  cases form with
  | register bank word =>
    have named : (registerOperand bank word column).fault = none := right
    unfold registerOperand at named
    split at named
    next n found => exact Option.isSome_iff_exists.mpr ⟨n, found⟩
    next => contradiction
  | restart e => exact Expr.isComplete_of_fault (restartOperand_right right)
  | data form => exact DataForm.every_isComplete right
  | list kind items text =>
    obtain ⟨faults, empty⟩ := Option.or_eq_none_iff.mp right
    rw [List.findSome?_eq_none_iff] at faults
    refine ⟨fun item member => DataForm.every_isComplete (faults _ (List.mem_map_of_mem member)), ?_⟩
    rintro rfl rfl
    contradiction
  | size e => exact Expr.isComplete_of_fault right

/-! ### What follows -/

theorem endsLine_iff {p : Cursor} : OperandSource.endsLine p = true ↔ EndsLine p.rest := by
  obtain ⟨offset, rest⟩ := p
  cases rest with
  | nil => simp [OperandSource.endsLine, Cursor.atEnd, EndsLine]
  | cons b rest => simp [OperandSource.endsLine, Cursor.atEnd, Cursor.next?, EndsLine]

namespace Cursor

variable {c : Bytes} {p q : Cursor}

theorem Beside.skipped (beside : Beside c p q) : Beside c p.skipBlanks q.skipBlanks := by
  rcases beside.skipBlanks with ⟨-, here⟩ | ⟨last, later⟩
  · rw [here]
    exact .before _
  · have here : p.skipBlanks = ⟨p.skipBlanks.offset, []⟩ := by rw [← last]
    rw [later, here]
    exact .beyond _

theorem Beside.advance (beside : Beside c p q) {n : Nat} (inside : n ≤ p.rest.length) :
    Beside c (p.advance n) (q.advance n) := by
  cases beside with
  | before =>
    rw [advance_remarked inside]
    exact .before _
  | beyond offset =>
    obtain rfl : n = 0 := Nat.le_zero.mp inside
    simpa only [advance_zero] using .beyond offset

theorem Beside.comma (beside : Beside c p q) :
    (q.skipBlanks.next? == some Byte.comma) = (p.skipBlanks.next? == some Byte.comma) := by
  rcases beside.skipBlanks with ⟨more, here⟩ | ⟨last, later⟩
  · rw [here, next?_remarked more]
  · rw [later, next?, next?, last]
    rfl

theorem Beside.endsLine (beside : Beside c p q) :
    OperandSource.endsLine q.skipBlanks = OperandSource.endsLine p.skipBlanks := by
  rcases beside.skipBlanks with ⟨more, here⟩ | ⟨last, later⟩
  · have inside : p.skipBlanks.atEnd = false := List.isEmpty_eq_false_iff.mpr more
    have inside' : (p.skipBlanks.remarked c).atEnd = false :=
      List.isEmpty_eq_false_iff.mpr (List.append_ne_nil_of_left_ne_nil more _)
    rw [here, OperandSource.endsLine, OperandSource.endsLine, inside, inside',
      next?_remarked more]
  · rw [later, OperandSource.endsLine, OperandSource.endsLine, atEnd, atEnd, last]
    rfl

theorem Beside.ends (beside : Beside c p q) (ends : EndsLine p.skipBlanks.rest) :
    EndsLine q.skipBlanks.rest := by
  rw [← endsLine_iff] at ends ⊢
  exact beside.endsLine.trans ends

theorem one_le_of_next? {b : UInt8} (next : (p.next? == some b) = true) : 1 ≤ p.rest.length := by
  rw [Nat.one_le_iff_ne_zero, ne_eq, List.length_eq_zero_iff]
  intro last
  rw [next?, last] at next
  contradiction

end Cursor

/-! ### Operands that are not lists -/

namespace OperandSource

open Cursor (Beside)

variable {c : Bytes} {p q : Cursor} {term : Reader Term}

/-- A reader that comments do not disturb when the operand is right. -/
def Steady (c : Bytes) (reader : Reader OperandSource) : Prop :=
  ∀ ⦃p q : Cursor⦄, Beside c p q → (reader.run p).1.form.IsRight →
    (reader.run q).1 = (reader.run p).1 ∧ Beside c (reader.run p).2 (reader.run q).2

def SteadyLast (c : Bytes) (reader : Reader OperandSource) : Prop :=
  ∀ ⦃p q : Cursor⦄, Beside c p q → (reader.run p).1.form.IsRight →
    EndsLine (reader.run p).2.skipBlanks.rest →
    (reader.run q).1 = (reader.run p).1 ∧ Beside c (reader.run p).2 (reader.run q).2

theorem Steady.last {reader : Reader OperandSource} (steady : Steady c reader) :
    SteadyLast c reader := fun _ _ beside right _ => steady beside right

/-- Before the end of the line the same word follows. -/
theorem word_steady (beside : Beside c p q) (nonempty : p.skipBlanks.rest ≠ []) :
    Lexeme.wordRun q.skipBlanks.rest = Lexeme.wordRun p.skipBlanks.rest ∧
      q.skipBlanks.rest.take (Lexeme.wordRun p.skipBlanks.rest) =
        p.skipBlanks.rest.take (Lexeme.wordRun p.skipBlanks.rest) ∧
      q.skipBlanks.column = p.skipBlanks.column ∧
      Beside c (p.skipBlanks.advance (Lexeme.wordRun p.skipBlanks.rest))
        (q.skipBlanks.advance (Lexeme.wordRun p.skipBlanks.rest)) := by
  have inside := Lexeme.wordRun_le p.skipBlanks.rest
  have after := beside.skipped.advance inside
  rcases beside.skipBlanks with ⟨-, here⟩ | ⟨last, -⟩
  · have rest : q.skipBlanks.rest = p.skipBlanks.rest ++ remark c := by rw [here]; rfl
    refine ⟨?_, ?_, ?_, after⟩
    · rw [rest, Lexeme.wordRun_remark]
    · rw [rest, List.take_append_of_le_length inside]
    · rw [here]
      rfl
  · exact absurd last nonempty

theorem register_steady (bank : RegisterBank) : Steady c (register bank) := by
  intro p q beside known
  have nonempty : p.skipBlanks.rest ≠ [] := by
    -- No register has an empty name.
    intro last
    have unnamed : bank.number? [] = none := by cases bank <;> rfl
    simp only [register, last, List.take_nil, OperandForm.IsRight, unnamed] at known
    contradiction
  obtain ⟨length, word, column, after⟩ := word_steady beside nonempty
  simp only [register, length, word, column]
  exact ⟨trivial, after⟩

theorem ofTerm_steady (steady : Term.Steady c term) (form : Expr → OperandForm)
    (complete : ∀ e, (form e).IsRight → e.IsComplete) : Steady c (ofTerm form term) := by
  intro p q beside right
  obtain ⟨same, ends⟩ := steady.whole beside (complete _ right)
  simp only [ofTerm, same]
  exact ⟨trivial, ends⟩

theorem restart_steady (steady : Term.Steady c term) : Steady c (restart term) := by
  intro p q beside right
  have nonempty : p.skipBlanks.rest ≠ [] := by
    intro last
    have gap := steady.ended (p := p) (by rw [last]; simp [EndsLine])
    have unnamed : RegisterBank.restart.number? [] = none := rfl
    simp only [restart, last, List.take_nil, unnamed, Option.isSome_none, Bool.false_and,
      Bool.false_eq_true, if_false] at right
    rw [Expr.IsComplete.isMissing_eq right] at gap
    contradiction
  -- The word is the same, and so is the test for the end of the line behind it.
  obtain ⟨length, word, column, after⟩ := word_steady beside nonempty
  simp only [restart, length, word, column, after.endsLine] at right ⊢
  split
  next => exact ⟨rfl, after.skipped⟩
  next other =>
    rw [if_neg other] at right
    exact ofTerm_steady steady .restart (fun _ complete => complete) beside right

end OperandSource

/-! ### Lists of data -/

namespace DataSource

open Cursor (Beside)

variable {c : Bytes} {p q : Cursor} {term : Reader Term}

structure Steady (c : Bytes) (item : Reader (Option DataSource)) : Prop where
  ended {p : Cursor} (ends : EndsLine p.skipBlanks.rest) : (item.run p).1 = none
  idle {p : Cursor} (nothing : (item.run p.skipBlanks).1 = none) :
    (item.run p.skipBlanks).2 = p.skipBlanks
  whole {p q : Cursor} {x : DataSource} (beside : Beside c p q) (found : (item.run p).1 = some x)
    (complete : x.form.Every Expr.IsComplete) :
    (item.run q).1 = some x ∧ Beside c (item.run p).2 (item.run q).2

/-- A quotation that is closed in the line is not changed. -/
theorem quotation?_remark {s : Bytes} {quotation : Lexeme.Quotation}
    (found : quotation? s = some quotation) (c : Bytes) :
    quotation? (s ++ remark c) = some quotation := by
  have marked {mark : UInt8} (listed : mark ∈ quotationMarks)
      (closed : Lexeme.quotation? mark s = some quotation) :
      Lexeme.quotation? mark (s ++ remark c) = some quotation := by
    have apart : ∀ mark ∈ quotationMarks, mark ≠ Byte.blank ∧ mark ≠ Byte.semicolon := by
      decide +kernel
    obtain ⟨blank, semicolon⟩ := apart mark listed
    rcases Lexeme.quotation?_remark blank semicolon s c with same | ⟨unquoted, -⟩
    · exact same.trans closed
    · rw [unquoted] at closed
      contradiction
  rcases Option.or_eq_some_iff.mp found with single | ⟨-, double⟩
  · rw [quotation?, marked (by simp [quotationMarks]) single, Option.some_or]
  · have other : Lexeme.quotation? Byte.singleQuote (s ++ remark c) = none := by
      cases s with
      | nil => contradiction
      | cons b rest =>
        rw [Lexeme.quotation?] at double
        split at double
        next mark =>
          obtain rfl := eq_of_beq mark
          rfl
        next => contradiction
    rw [quotation?, other, marked (by simp [quotationMarks]) double, Option.none_or]

theorem quotation?_length_le {s : Bytes} {quotation : Lexeme.Quotation}
    (found : quotation? s = some quotation) : quotation.length ≤ s.length := by
  rcases Option.or_eq_some_iff.mp found with single | ⟨-, double⟩
  · exact Lexeme.quotation?_length_le single
  · exact Lexeme.quotation?_length_le double

theorem string_of_ends (ends : EndsLine p.skipBlanks.rest) : string.run p = (none, p.skipBlanks) := by
  simp only [string, ends.quotation?]

theorem string_steady {x : DataSource} (beside : Beside c p q) (found : (string.run p).1 = some x) :
    (string.run q).1 = some x ∧ Beside c (string.run p).2 (string.run q).2 := by
  unfold string at found ⊢
  dsimp only at found ⊢
  cases closed : quotation? p.skipBlanks.rest with
  | none =>
    rw [closed] at found
    contradiction
  | some quotation =>
    rw [closed] at found
    rcases beside.skipBlanks with ⟨-, here⟩ | ⟨last, -⟩
    · have inside := quotation?_length_le closed
      have rest : (p.skipBlanks.remarked c).rest = p.skipBlanks.rest ++ remark c := rfl
      rw [here, rest, quotation?_remark closed c]
      dsimp only at found ⊢
      rw [List.take_append_of_le_length inside, Cursor.advance_remarked inside]
      exact ⟨found, .before _⟩
    · rw [last] at closed
      contradiction

theorem string_idle (nothing : (string.run p).1 = none) : (string.run p).2 = p.skipBlanks := by
  unfold string at nothing ⊢
  dsimp only at nothing ⊢
  cases closed : quotation? p.skipBlanks.rest with
  | none => rfl
  | some quotation =>
    rw [closed] at nothing
    contradiction

theorem byteItem_of_missing (gap : (term.run p).1.expr.isMissing = true) :
    (byteItem term).run p = string.run p := if_pos gap

theorem byteItem_of_expr (present : ¬ (term.run p).1.expr.isMissing = true) :
    (byteItem term).run p =
      (some ⟨(term.run p).1.column, .byte (term.run p).1.expr⟩, (term.run p).2) := if_neg present

theorem wordItem_of_missing (gap : (term.run p).1.expr.isMissing = true) :
    (wordItem term).run p = (none, p) := if_pos gap

theorem wordItem_of_expr (present : ¬ (term.run p).1.expr.isMissing = true) :
    (wordItem term).run p =
      (some ⟨(term.run p).1.column, .word (term.run p).1.expr⟩, (term.run p).2) := if_neg present

theorem byteItem_steady (steady : Term.Steady c term) : Steady c (byteItem term) where
  ended {p} ends := by rw [byteItem_of_missing (steady.ended ends), string_of_ends ends]
  idle {p} nothing := by
    by_cases gap : (term.run p.skipBlanks).1.expr.isMissing = true
    · rw [byteItem_of_missing gap] at nothing ⊢
      rw [string_idle nothing, p.skipBlanks_skipBlanks]
    · rw [byteItem_of_expr gap] at nothing
      contradiction
  whole {p q x} beside found complete := by
    by_cases gap : (term.run p).1.expr.isMissing = true
    · rw [byteItem_of_missing gap] at found ⊢
      rw [byteItem_of_missing (steady.missing beside gap)]
      exact string_steady beside found
    · rw [byteItem_of_expr gap] at found ⊢
      obtain rfl := Option.some.inj found
      obtain ⟨same, ends⟩ := steady.whole beside complete
      rw [byteItem_of_expr (by rwa [same]), same]
      exact ⟨rfl, ends⟩

theorem wordItem_steady (steady : Term.Steady c term) : Steady c (wordItem term) where
  ended {p} ends := by rw [wordItem_of_missing (steady.ended ends)]
  idle {p} nothing := by
    by_cases gap : (term.run p.skipBlanks).1.expr.isMissing = true
    · rw [wordItem_of_missing gap]
    · rw [wordItem_of_expr gap] at nothing
      contradiction
  whole {p q x} beside found complete := by
    by_cases gap : (term.run p).1.expr.isMissing = true
    · rw [wordItem_of_missing gap] at found
      contradiction
    · rw [wordItem_of_expr gap] at found ⊢
      obtain rfl := Option.some.inj found
      obtain ⟨same, ends⟩ := steady.whole beside complete
      rw [wordItem_of_expr (by rwa [same]), same]
      exact ⟨rfl, ends⟩

section Lists

variable {item : Reader (Option DataSource)}

theorem slot_of_comma (comma : (p.skipBlanks.next? == some Byte.comma) = true) :
    (slot item).run p = (none, p.skipBlanks) := if_pos comma

theorem slot_of_other (other : ¬ (p.skipBlanks.next? == some Byte.comma) = true) :
    (slot item).run p = item.run p.skipBlanks := if_neg other

/-- A slot that a comma or the end of the line closes. -/
theorem slot_steady (steady : Steady c item) (beside : Beside c p q)
    (complete : ∀ x ∈ ((slot item).run p).1, x.form.Every Expr.IsComplete)
    (closed : (((slot item).run p).2.skipBlanks.next? == some Byte.comma) = true ∨
      EndsLine ((slot item).run p).2.skipBlanks.rest) :
    ((slot item).run q).1 = ((slot item).run p).1 ∧
      Beside c ((slot item).run p).2 ((slot item).run q).2 := by
  by_cases comma : (p.skipBlanks.next? == some Byte.comma) = true
  · rw [slot_of_comma comma, slot_of_comma (beside.comma.trans comma)]
    exact ⟨rfl, beside.skipped⟩
  · rw [slot_of_other comma] at complete closed ⊢
    rw [slot_of_other (by rwa [beside.comma])]
    cases found : (item.run p.skipBlanks).1 with
    | some x => exact steady.whole beside.skipped found (complete x found)
    | none =>
      -- Nothing is read, so the line ends here and nothing is read before the comment either.
      have stay := steady.idle found
      rw [stay, p.skipBlanks_skipBlanks] at closed
      have ends : EndsLine q.skipBlanks.skipBlanks.rest := by
        rw [q.skipBlanks_skipBlanks]
        exact beside.ends (closed.resolve_left comma)
      have found' := steady.ended ends
      rw [stay, steady.idle found', found']
      exact ⟨rfl, beside.skipped⟩

theorem mem_itemsFrom {form : DataForm} {seen : List DataForm} (member : form ∈ seen) :
    form ∈ (itemsFrom item seen p).1 := by
  have added {read : Option DataSource} {seen : List DataForm} (member : form ∈ seen) :
      form ∈ addItem read seen := by
    cases read with
    | none => exact member
    | some x => exact List.mem_cons_of_mem _ member
  fun_induction itemsFrom item seen p with
  | case1 seen p read comma shorter ih => exact ih (added member)
  | case2 seen p read comma => exact List.mem_reverse.mpr (added member)

theorem itemsFrom_of_comma {seen : List DataForm}
    (comma : (((slot item).run p).2.skipBlanks.next? == some Byte.comma) = true) :
    itemsFrom item seen p =
      itemsFrom item (addItem ((slot item).run p).1 seen)
        (((slot item).run p).2.skipBlanks.advance 1) := by
  rw [itemsFrom.eq_def item seen p]
  exact dif_pos comma

theorem itemsFrom_of_other {seen : List DataForm}
    (other : ¬ (((slot item).run p).2.skipBlanks.next? == some Byte.comma) = true) :
    itemsFrom item seen p =
      ((addItem ((slot item).run p).1 seen).reverse, ((slot item).run p).2) := by
  rw [itemsFrom.eq_def item seen p]
  exact dif_neg other

theorem itemsFrom_steady (steady : Steady c item) {seen : List DataForm} (beside : Beside c p q)
    (complete : ∀ form ∈ (itemsFrom item seen p).1, form.Every Expr.IsComplete)
    (ends : EndsLine (itemsFrom item seen p).2.skipBlanks.rest) :
    (itemsFrom item seen q).1 = (itemsFrom item seen p).1 ∧
      Beside c (itemsFrom item seen p).2 (itemsFrom item seen q).2 := by
  fun_induction itemsFrom item seen p generalizing q with
  | case1 seen p read comma shorter =>
    rename_i ih
    have item' (x : DataSource) (found : x ∈ read.1) : x.form.Every Expr.IsComplete := by
      refine complete _ (mem_itemsFrom ?_)
      rw [Option.mem_def.mp found]
      exact List.mem_cons_self
    obtain ⟨same, after⟩ := slot_steady steady beside item' (.inl comma)
    have comma' := after.comma.trans comma
    have inside : 1 ≤ read.2.skipBlanks.rest.length := Cursor.one_le_of_next? comma
    rw [itemsFrom_of_comma comma', same]
    exact ih (after.skipped.advance inside) complete ends
  | case2 seen p read =>
    rename_i other
    have item' (x : DataSource) (found : x ∈ read.1) : x.form.Every Expr.IsComplete := by
      refine complete _ (List.mem_reverse.mpr ?_)
      rw [Option.mem_def.mp found]
      exact List.mem_cons_self
    obtain ⟨same, after⟩ := slot_steady steady beside item' (.inr ends)
    rw [itemsFrom_of_other (by rwa [after.comma]), same]
    exact ⟨rfl, after⟩

/-- At the end of a line the list is empty. -/
theorem itemsFrom_of_ends (steady : Steady c item) (ends : EndsLine p.skipBlanks.rest) :
    (itemsFrom item [] p).1 = [] := by
  have other : ¬ (p.skipBlanks.next? == some Byte.comma) = true := by
    have apart := ends.next?_ne p.skipBlanks.offset
    simpa using apart
  have nothing := steady.ended (p := p.skipBlanks) (by rwa [p.skipBlanks_skipBlanks])
  have stay := steady.idle nothing
  rw [itemsFrom_of_other]
  · rw [slot_of_other other, nothing]
    rfl
  · rwa [slot_of_other other, stay, p.skipBlanks_skipBlanks]

theorem trimEnd_blank (s : Bytes) : trimEnd (s ++ [Byte.blank]) = trimEnd s := by
  have blank : Byte.isBlank Byte.blank = true := rfl
  simp [trimEnd, blank]

/-- The text of a list has no blanks at its end, so one more of them is not seen. -/
theorem trimEnd_steady {e e' : Cursor} (reached : p.Reaches e) (beside : Beside c e e') :
    trimEnd ((p.remarked c).rest.take (e'.offset - p.offset)) =
      trimEnd (p.rest.take (e.offset - p.offset)) := by
  obtain ⟨n, stop⟩ := reached
  have span : e.offset - p.offset = (p.rest.take n).length := by
    rw [stop, Cursor.advance, Nat.add_sub_cancel_left]
  have inside : (p.rest.take n).length ≤ p.rest.length := (List.take_prefix n _).length_le
  have rest : (p.remarked c).rest = p.rest ++ remark c := rfl
  cases beside with
  | before =>
    have span' : (e.remarked c).offset - p.offset = (p.rest.take n).length := span
    rw [span', span, rest, List.take_append_of_le_length inside]
  | beyond offset =>
    have whole : p.rest.take n = p.rest := by
      have ended : p.rest.drop n = [] := congrArg Cursor.rest stop.symm
      exact List.take_of_length_le (List.drop_eq_nil_iff.mp ended)
    rw [whole] at span
    have span' : offset + 1 - p.offset = p.rest.length + 1 := by
      have start : offset = p.offset + p.rest.length := by
        rw [← whole]
        exact congrArg Cursor.offset stop
      omega
    have taken : (p.remarked c).rest.take (p.rest.length + 1) = p.rest ++ [Byte.blank] := by
      rw [rest, List.take_length_add_append]
      rfl
    rw [span', taken, trimEnd_blank, span, List.take_length]

theorem list_steady (kind : OperandKind) (steady : Steady c item) :
    OperandSource.SteadyLast c (list kind item) := by
  intro p q beside right ends
  obtain ⟨complete, nonempty⟩ := right
  obtain ⟨items, after⟩ := itemsFrom_steady steady beside.skipped complete ends
  rcases beside.skipBlanks with ⟨-, here⟩ | ⟨last, -⟩
  · have text := trimEnd_steady (itemsFrom_reaches item [] p.skipBlanks) after
    have column : (p.skipBlanks.remarked c).column = p.skipBlanks.column := rfl
    have offset : (p.skipBlanks.remarked c).offset = p.skipBlanks.offset := rfl
    simp only [list]
    rw [items, here, column, offset]
    rw [here] at after text
    exact ⟨by rw [text], after⟩
  · -- A list that starts at the end of its line has neither items nor a text.
    have empty : (itemsFrom item [] p.skipBlanks).1 = [] := by
      apply itemsFrom_of_ends steady
      rw [p.skipBlanks_skipBlanks, last]
      simp [EndsLine]
    refine absurd ?_ (nonempty empty)
    rw [last, List.take_nil]
    rfl

end Lists

end DataSource

/-! ### The operands of a command -/

namespace OperandSources

open Cursor (Beside)
open OperandSource DataSource

variable {c : Bytes} {term : Reader Term}

/-- What the operands of a command without a fault are like. -/
def AreRight (s : OperandSources) : Prop :=
  (∀ source ∈ s.operands, source.form.IsRight) ∧ s.missingComma = .none

def Steady (c : Bytes) (reader : Reader OperandSources) : Prop :=
  ∀ ⦃p q : Cursor⦄, Beside c p q → (reader.run p).1.AreRight →
    EndsLine (reader.run p).2.skipBlanks.rest →
    (reader.run q).1 = (reader.run p).1 ∧ Beside c (reader.run p).2 (reader.run q).2

theorem none_steady : Steady c none := fun _ _ beside _ _ => ⟨rfl, beside⟩

theorem one_steady {first : Reader OperandSource} (steady : SteadyLast c first) :
    Steady c (one first) := by
  intro p q beside right ends
  obtain ⟨same, after⟩ := steady beside (right.1 _ List.mem_cons_self) ends
  simp only [one, same]
  exact ⟨trivial, after⟩

theorem two_steady {first second : Reader OperandSource} (steady : OperandSource.Steady c first)
    (steady' : SteadyLast c second) : Steady c (two first second) := by
  intro p q beside right ends
  simp only [two] at right ends ⊢
  by_cases comma : ((first.run p).2.skipBlanks.next? == some Byte.comma) = true
  · rw [if_pos comma] at right ends ⊢
    obtain ⟨same, after⟩ := steady beside (right.1 _ List.mem_cons_self)
    have comma' := after.comma.trans comma
    have inside : 1 ≤ (first.run p).2.skipBlanks.rest.length := Cursor.one_le_of_next? comma
    obtain ⟨same', after'⟩ := steady' (after.skipped.advance inside)
      (right.1 _ (List.mem_cons_of_mem _ List.mem_cons_self)) ends
    rw [if_pos comma', same, same']
    exact ⟨rfl, after'⟩
  · rw [if_neg comma] at right
    exact absurd right.2 (by simp)

theorem ofShape_steady (steady : Term.Steady c term) (shape : Shape) :
    Steady c (ofShape term shape) := by
  have byte : OperandSource.Steady c (ofTerm (.data ∘ .byte) term) :=
    ofTerm_steady steady (.data ∘ .byte) fun _ complete => complete
  have word : OperandSource.Steady c (ofTerm (.data ∘ .word) term) :=
    ofTerm_steady steady (.data ∘ .word) fun _ complete => complete
  cases shape with
  | bare | unknown => exact none_steady
  | target | source | pair | stackPair | indexPair => exact one_steady (register_steady _).last
  | targetSource => exact two_steady (register_steady _) (register_steady _).last
  | byte => exact one_steady byte.last
  | word => exact one_steady word.last
  | targetByte => exact two_steady (register_steady _) byte.last
  | pairWord => exact two_steady (register_steady _) word.last
  | restart => exact one_steady (restart_steady steady).last
  | byteList => exact one_steady (list_steady _ (byteItem_steady steady))
  | wordList => exact one_steady (list_steady _ (wordItem_steady steady))
  | size => exact one_steady (ofTerm_steady steady .size fun _ complete => complete).last

end OperandSources

/-! ### Commands and statements -/

namespace Command

open Cursor (Beside)

/-- What a command without a fault is like. -/
structure IsRight (command : Command) : Prop where
  sources : command.sources.AreRight
  unexpected : command.unexpected = none

theorem unexpected?_eq_none_iff {p : Cursor} : unexpected? p = none ↔ EndsLine p.rest := by
  rw [← endsLine_iff, unexpected?]
  cases OperandSource.endsLine p <;> simp

theorem read_steady {c : Bytes} {term : Reader Term} (steady : Term.Steady c term) {p q : Cursor}
    (beside : Beside c p q) (right : ∀ command ∈ (read term p).1, command.IsRight) :
    (read term q).1 = (read term p).1 := by
  have word : Lexeme.letters q.skipBlanks.rest = Lexeme.letters p.skipBlanks.rest ∧
      q.skipBlanks.rest.take (Lexeme.letters p.skipBlanks.rest) =
        p.skipBlanks.rest.take (Lexeme.letters p.skipBlanks.rest) := by
    rcases beside.skipBlanks with ⟨-, here⟩ | ⟨last, later⟩
    · have rest : q.skipBlanks.rest = p.skipBlanks.rest ++ remark c := by rw [here]; rfl
      rw [rest, Lexeme.letters_remark, List.take_append_of_le_length (Lexeme.letters_le _)]
      exact ⟨rfl, rfl⟩
    · rw [later, last]
      exact ⟨rfl, rfl⟩
  obtain ⟨length, mnemonic⟩ := word
  unfold read at right ⊢
  dsimp only at right ⊢
  rw [length, mnemonic]
  cases found : Catalog.find? (p.skipBlanks.rest.take (Lexeme.letters p.skipBlanks.rest)) with
  | none => rfl
  | some instruction =>
    rw [found] at right
    obtain ⟨sources, unexpected⟩ := right _ rfl
    have ends := unexpected?_eq_none_iff.mp unexpected
    obtain ⟨same, after⟩ := OperandSources.ofShape_steady steady instruction.shape
      (beside.skipped.advance (Lexeme.letters_le _)) sources ends
    dsimp only
    rw [same, unexpected?_eq_none_iff.mpr ends, unexpected?_eq_none_iff.mpr (after.ends ends)]

theorem isRight_of_readFaults {env : Environment} {command : Command}
    (clean : command.readFaults (command.operands env) = []) : command.IsRight := by
  simp only [readFaults, operandFaults, List.append_eq_nil_iff] at clean
  obtain ⟨⟨⟨operands, comma⟩, -⟩, unexpected⟩ := clean
  refine ⟨⟨fun source member => ?_, ?_⟩, ?_⟩
  · have own := List.flatMap_eq_nil_iff.mp operands _ (List.mem_map_of_mem member)
    exact OperandSource.isRight_of_fault (Operand.faults_eq_nil_iff.mp own)
  · simpa using comma
  · simpa using unexpected

end Command

namespace Statement

open Cursor (Beside)

theorem readLabel_remark (scope : Scope) (number : Int) (c : Bytes) (p : Cursor) :
    readLabel scope number (p.remarked c) =
      let label := readLabel scope number p
      (label.1, label.2.1, label.2.2.remarked c) := by
  unfold readLabel
  rw [scope.declaration?_remark]
  cases scope.declaration? number p <;> rfl

/-- A line that is read right is read the same with a comment added. -/
theorem read_remark {scope : Scope} {number : Int} {text : Bytes}
    (right : ∀ command ∈ (read scope number text).1.command, command.IsRight) (c : Bytes) :
    (read scope number (text ++ remark c)).1.label = (read scope number text).1.label ∧
      (read scope number (text ++ remark c)).1.command = (read scope number text).1.command ∧
      (read scope number (text ++ remark c)).2 = (read scope number text).2 := by
  have start : Cursor.atStart (text ++ remark c) = (Cursor.atStart text).remarked c := rfl
  rw [read_eq] at right
  rw [read_eq, read_eq, start, readLabel_remark]
  generalize readLabel scope number (.atStart text) = parts at right ⊢
  obtain ⟨label, inner, after⟩ := parts
  dsimp only at right ⊢
  exact ⟨rfl, Command.read_steady (Term.full_steady inner number) (.before after) right, rfl⟩

end Statement

/-! ### Lines -/

namespace LineRun

/-- Runs that differ at most in the comment, in the place where they stop and in faults. -/
structure SameCode (a b : LineRun) : Prop where
  label : a.label = b.label
  instruction : a.instruction = b.instruction
  operands : a.operands = b.operands
  bytes : a.bytes = b.bytes
  start : a.start = b.start
  ends : a.endsProgram = b.endsProgram
  accesses : a.accesses = b.accesses
  state : a.state = b.state
  scope : a.scope = b.scope

variable {scope : Scope} {number : Int} {text : Bytes} {final : Bool} {state : State}

theorem isRight_of_clean (clean : (assembled scope number text final state).faults = []) :
    ∀ command ∈ (Statement.read scope number text).1.command, command.IsRight := by
  intro command written
  obtain ⟨right, faults, -⟩ :=
    Statement.faults_assemble final state (Statement.read scope number text).1
  simp only [assembled, ofStatement] at clean
  rw [clean, eq_comm, List.append_eq_nil_iff, List.append_eq_nil_iff,
    List.append_eq_nil_iff] at faults
  have read := faults.1.1.1
  rw [Statement.readFaults, Statement.operands, Option.mem_def.mp written] at read
  exact Command.isRight_of_readFaults read

theorem ofStatement_congr {s t : Statement} (location : s.location = t.location)
    (label : s.label = t.label) (command : s.command = t.command) (stop stop' : Cursor) :
    (ofStatement final state s stop scope).faults = (ofStatement final state t stop' scope).faults ∧
      (ofStatement final state s stop scope).SameCode (ofStatement final state t stop' scope) := by
  obtain ⟨location, text, label, command, comment⟩ := s
  obtain ⟨location', text', label', command', comment'⟩ := t
  subst location label command
  exact ⟨rfl, rfl, rfl, rfl, rfl, rfl, rfl, rfl, rfl, rfl⟩

theorem assembled_remark (clean : (assembled scope number text final state).faults = [])
    (c : Bytes) :
    (assembled scope number (text ++ remark c) final state).faults = [] ∧
      (assembled scope number (text ++ remark c) final state).SameCode
        (assembled scope number text final state) := by
  obtain ⟨label, command, next⟩ := Statement.read_remark (isRight_of_clean clean) c
  have location : (Statement.read scope number (text ++ remark c)).1.location =
      (Statement.read scope number text).1.location := by
    rw [Statement.read_eq, Statement.read_eq]
  obtain ⟨faults, same⟩ := ofStatement_congr location label command
    (Statement.stop scope number (text ++ remark c)) (Statement.stop scope number text)
  rw [assembled, next]
  exact ⟨faults.trans clean, same⟩

end LineRun

/-- A comment does not change code, whatever is written in it: a line without faults has none with a
comment added, and has the same label, instruction and operands, emits the same bytes and leaves the
same symbols, code and scope. This holds of a pass that takes the statement read from the line, and
of one that walks over its text. -/
theorem comment_changes_no_code (scope : Scope) (number : Int) (text : Bytes) (final : Bool)
    (state : State) (clean : (LineRun.assembled scope number text final state).faults = [])
    (comment : Bytes) :
    (LineRun.assembled scope number (text ++ ascii " ;" ++ comment) final state).faults = [] ∧
    (LineRun.assembled scope number (text ++ ascii " ;" ++ comment) final state).SameCode
      (LineRun.assembled scope number text final state) ∧
    (scope.Proper → state.symbols.Consistent →
      (LineRun.walk scope number (text ++ ascii " ;" ++ comment) final state).faults = [] ∧
      (LineRun.walk scope number (text ++ ascii " ;" ++ comment) final state).SameCode
        (LineRun.walk scope number text final state)) := by
  have added : text ++ ascii " ;" ++ comment = text ++ remark comment := by
    rw [List.append_assoc]
    rfl
  obtain ⟨faults, same⟩ := LineRun.assembled_remark clean comment
  rw [added]
  refine ⟨faults, same, fun above valid => ?_⟩
  rw [LineRun.walk_eq_assembled above number _ final valid,
    LineRun.walk_eq_assembled above number _ final valid]
  exact ⟨faults, same⟩

/-- A line with a label, a number, strings with either mark and an empty slot at its end. -/
def stringsLine : Bytes := ascii "L: DB 'ab', \"it's;\", 7,"

/-- A comment with open quotations, a declaration, commas and a backslash. -/
def strayComment : Bytes := ascii "don't \"stop: X EQU 1, 2,\\"

theorem comment_changes_no_code_stringsLine :
    (LineRun.assembled (.ofFile (ascii "t.asm")) 1 stringsLine true (freshState 256)).faults = [] ∧
    (LineRun.assembled (.ofFile (ascii "t.asm")) 1 (stringsLine ++ ascii " ;" ++ strayComment) true
      (freshState 256)).faults = [] ∧
    (LineRun.assembled (.ofFile (ascii "t.asm")) 1 (stringsLine ++ ascii " ;" ++ strayComment) true
      (freshState 256)).bytes = ascii "abit's;" ++ [7] ∧
    (LineRun.walk (.ofFile (ascii "t.asm")) 1 (stringsLine ++ ascii " ;" ++ strayComment) true
      (freshState 256)).SameCode
      (LineRun.walk (.ofFile (ascii "t.asm")) 1 stringsLine true (freshState 256)) := by
  have clean : (LineRun.assembled (.ofFile (ascii "t.asm")) 1 stringsLine true
      (freshState 256)).faults = [] := by
    decide +kernel
  have bytes : (LineRun.assembled (.ofFile (ascii "t.asm")) 1 stringsLine true
      (freshState 256)).bytes = ascii "abit's;" ++ [7] := by
    decide +kernel
  obtain ⟨faults, same, walks⟩ := comment_changes_no_code (.ofFile (ascii "t.asm")) 1 stringsLine
    true (freshState 256) clean strayComment
  exact ⟨clean, faults, same.bytes.trans bytes,
    (walks (Scope.ofFile_proper _) SymbolTable.empty_consistent).2⟩

end Assembler8080
