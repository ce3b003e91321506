import Mathlib.Data.List.Forall2
import Assembler8080.Operand.Reader
import Assembler8080.Proofs.Precedence

/-! Lists of data are encoded as they are written. A list is a row of slots between commas, each
with blanks around at most one item; a string is quoted with either mark, and a backslash stands
before each mark of that kind and before each backslash. `itemsFrom_list` reads such a list whole,
slot by slot, for any reader that takes the items one at a time (`TakesItems`). -/
namespace Assembler8080

/-! ### Quotations -/

/-- A byte between quotation marks, with a backslash before it where it needs one. -/
def escapedByte (mark b : UInt8) : Bytes :=
  if b = mark ∨ b = Byte.backslash then [Byte.backslash, b] else [b]

def escaped (mark : UInt8) (s : Bytes) : Bytes := s.flatMap (escapedByte mark)

def quoted (mark : UInt8) (s : Bytes) : Bytes := mark :: (escaped mark s ++ [mark])

def quotationMarks : Bytes := [Byte.singleQuote, Byte.doubleQuote]

theorem quotationMarks_apart : ∀ mark ∈ quotationMarks, Byte.backslash ≠ mark ∧
    Byte.isBlank mark = false ∧ mark ≠ Byte.comma := by
  decide +kernel

namespace Lexeme

variable {mark : UInt8}

theorem quotationFrom_plain {b : UInt8} (plain : ¬ (b = mark ∨ b = Byte.backslash))
    (length characters : Nat) (rest : Bytes) :
    quotationFrom mark length characters (b :: rest) =
      quotationFrom mark (length + 1) (characters + 1) rest := by
  obtain ⟨unmarked, unescaped⟩ := not_or.mp plain
  rw [quotationFrom.eq_def]
  simp [unmarked, unescaped]

/-- An escaped string goes up to its closing mark and has as many characters as the string has
bytes. -/
theorem quotationFrom_escaped (apart : Byte.backslash ≠ mark) (s tail : Bytes)
    (length characters : Nat) :
    quotationFrom mark length characters (escaped mark s ++ mark :: tail) =
      some ⟨length + (escaped mark s).length + 1, characters + s.length⟩ := by
  induction s generalizing length characters with
  | nil => exact quotationFrom_mark apart length characters tail
  | cons b s ih =>
    have split : escaped mark (b :: s) = escapedByte mark b ++ escaped mark s := rfl
    by_cases special : b = mark ∨ b = Byte.backslash
    · have pair : escapedByte mark b = [Byte.backslash, b] := if_pos special
      simp [split, pair, quotationFrom, ih, Nat.add_comm, Nat.add_left_comm]
    · have single : escapedByte mark b = [b] := if_neg special
      simp [split, single, quotationFrom_plain special, ih, Nat.add_comm, Nat.add_left_comm]

theorem quotation?_quoted (apart : Byte.backslash ≠ mark) (s tail : Bytes) :
    quotation? mark (quoted mark s ++ tail) = some ⟨(quoted mark s).length, s.length⟩ := by
  have inner := quotationFrom_escaped apart s tail 1 0
  simp only [quoted, List.cons_append, List.append_assoc, List.nil_append, quotation?,
    beq_self_eq_true, if_true, inner, List.length_cons, List.length_append, List.length_nil]
  simp [Nat.add_comm]

theorem unescapeOnto_cons {b : UInt8} (plain : b ≠ Byte.backslash) (seen rest : Bytes) :
    unescapeOnto seen (b :: rest) = unescapeOnto (b :: seen) rest := by
  cases rest <;> simp [unescapeOnto, plain]

theorem unescapeOnto_escaped (seen s : Bytes) :
    unescapeOnto seen (escaped mark s) = seen.reverse ++ s := by
  induction s generalizing seen with
  | nil => simp [escaped, unescapeOnto]
  | cons b s ih =>
    have split : escaped mark (b :: s) = escapedByte mark b ++ escaped mark s := rfl
    by_cases special : b = mark ∨ b = Byte.backslash
    · have pair : escapedByte mark b = [Byte.backslash, b] := if_pos special
      simp [split, pair, unescapeOnto, ih]
    · have single : escapedByte mark b = [b] := if_neg special
      simp [split, single, unescapeOnto_cons (not_or.mp special).2, ih]

end Lexeme

/-- The bytes between the marks are those of the string. -/
theorem quotedBytes_quoted (mark : UInt8) (s : Bytes) : quotedBytes (quoted mark s) = s := by
  simp [quotedBytes, quoted, Lexeme.unescape, Lexeme.unescapeOnto_escaped]

theorem DataSource.quotation?_quoted {mark : UInt8} (listed : mark ∈ quotationMarks)
    (s tail : Bytes) :
    quotation? (quoted mark s ++ tail) = some ⟨(quoted mark s).length, s.length⟩ := by
  have found := Lexeme.quotation?_quoted (quotationMarks_apart mark listed).1 s tail
  simp only [quotationMarks, List.mem_cons, List.not_mem_nil, or_false] at listed
  rcases listed with rfl | rfl
  · rw [quotation?, found, Option.some_or]
  · have other : Lexeme.quotation? Byte.singleQuote (quoted Byte.doubleQuote s ++ tail) = none :=
      rfl
    rw [quotation?, other, found, Option.none_or]

/-! ### Where no expression starts -/

theorem isBlanks_nil : IsBlanks [] := fun _ member => absurd member List.not_mem_nil

/-- The bytes after which a list goes on with no expression: a string or the end of the line. -/
def dataMarks : Bytes := Byte.semicolon :: quotationMarks

namespace Term

variable {rest : Bytes}

/-- Before a string or a semicolon and at the end there is no leaf, a string of one character
apart. -/
theorem leaf?_eq_none_of_dataMarks (scope : Scope) (line : Int) (offset : Nat)
    (head : ∀ b ∈ rest.head?, b ∈ dataMarks)
    (string : ∀ length, Lexeme.quotation? Byte.singleQuote rest ≠ some ⟨length, 1⟩) :
    leaf? scope line ⟨offset, rest⟩ = none := by
  have apart : ∀ b ∈ dataMarks, Byte.isBlank b = false ∧ Byte.isDigit b = false ∧
      Byte.isLetter b = false ∧ b ≠ Byte.dot ∧ b ≠ Byte.dollar := by
    decide +kernel
  have character : character? ⟨offset, rest⟩ = none := by
    unfold character?
    split
    next length found => exact absurd found (string length)
    next => rfl
  cases rest with
  | nil => rfl
  | cons b rest =>
    obtain ⟨blank, digit, letter, dot, dollar⟩ := apart b (head b rfl)
    exact leaf?_eq_none_of_apart scope line offset rest blank digit letter dot dollar character

theorem valueAround_isMissing (scope : Scope) (line : Int) (inner : Option (Reader Term))
    (offset : Nat) (head : ∀ b ∈ rest.head?, b ∈ dataMarks)
    (string : ∀ length, Lexeme.quotation? Byte.singleQuote rest ≠ some ⟨length, 1⟩) :
    ((valueAround scope line inner).run ⟨offset, rest⟩).1.expr.isMissing = true := by
  have starts : Starts rest := by
    have apart : ∀ b ∈ dataMarks, Byte.isBlank b = false := by decide +kernel
    exact fun b first => apart b (head b first)
  have nested : nestedValue inner ⟨offset, rest⟩ = hole .noValue ⟨offset, rest⟩ := by
    cases rest with
    | nil => rfl
    | cons b rest =>
      have marked := head b rfl
      simp only [dataMarks, quotationMarks, List.mem_cons, List.not_mem_nil, or_false] at marked
      rcases marked with rfl | rfl | rfl <;> rfl
  unfold valueAround
  dsimp only
  rw [Cursor.skipBlanks_of_starts offset starts,
    leaf?_eq_none_of_dataMarks scope line offset head string]
  dsimp only
  rw [nested]
  rfl

theorem climb_isMissing {value : Reader Term} {c : Cursor}
    (missing : (value.run c).1.expr.isMissing = true) (n : Nat) :
    ((climb value n).run c).1.expr.isMissing = true := by
  induction n with
  | zero => exact missing
  | succ n ih =>
    unfold climb chain
    simp [ih]

theorem expression_isMissing (scope : Scope) (line : Int) (depth : Int) (offset : Nat)
    (head : ∀ b ∈ rest.head?, b ∈ dataMarks)
    (string : ∀ length, Lexeme.quotation? Byte.singleQuote rest ≠ some ⟨length, 1⟩) :
    ((expression scope line 0 depth).run ⟨offset, rest⟩).1.expr.isMissing = true := by
  apply climb_isMissing
  cases room depth <;> exact valueAround_isMissing scope line _ offset head string

/-- A leaf in a list is read whole, as an expression that means it. -/
theorem expression_leaf (scope : Scope) (line : Int) (depth : Int) {l : Leaf} {s : Bytes}
    (text : LeafText scope.parent l s) :
    ∃ e : Expr, e.Means scope (.leaf l) ∧ ∀ offset tail, EndsExpression tail →
      (expression scope line 0 depth).run ⟨offset, s ++ tail⟩ =
        (⟨offset + 1, e⟩, ⟨offset + s.length, tail⟩) := by
  have prints : Prints scope.parent (room depth) UnaryOp.level (.leaf l) s := .leaf text
  obtain ⟨e, means, reads⟩ := prints.read scope line
  refine ⟨e, means, fun offset tail ends => ?_⟩
  exact reads.whole 0 (Nat.zero_le _) offset [] tail isBlanks_nil ends.stops
    fun op found => by rw [ends.nextOp?] at found; contradiction

end Term

theorem Expr.Means.placeholder {scope : Scope} {e : Expr} {l : Leaf} {w : UInt16}
    (means : e.Means scope (.leaf l)) (known : ∀ v, l.value v = some w) (state : State) :
    (e.eval state.environment).fault = none ∧
      (e.eval state.environment).placeholder = w := by
  have fault : (e.eval state.environment).fault = none :=
    (means.fault state).mpr (by simp [Tree.DividesByZero])
  have value := means.value state
  simp only [Tree.denote, known, Option.map_some, Option.map_eq_some_iff, UInt16.toNat_inj,
    exists_eq_right] at value
  simp [Evaluation.placeholder, fault, value]

/-! ### Texts of lists -/

/-- A slot of a list: blanks, or an item with blanks around it. -/
inductive SlotText {α : Type} (text : α → Bytes → Prop) : List α → Bytes → Prop where
  | empty {gap : Bytes} (blanks : IsBlanks gap) : SlotText text [] gap
  | item {i : α} {s before after : Bytes} (written : text i s) (blanks : IsBlanks before)
      (blanks' : IsBlanks after) : SlotText text [i] (before ++ (s ++ after))

inductive ListText {α : Type} (text : α → Bytes → Prop) : List α → Bytes → Prop where
  | last {items : List α} {s : Bytes} (slot : SlotText text items s) : ListText text items s
  | more {items others : List α} {s rest : Bytes} (slot : SlotText text items s)
      (list : ListText text others rest) :
      ListText text (items ++ others) (s ++ Byte.comma :: rest)

/-- The line ends, or goes on with a comment. -/
def EndsLine (tail : Bytes) : Prop := ∀ b ∈ tail.head?, b = Byte.semicolon

instance : DecidablePred EndsLine := fun _ => inferInstanceAs (Decidable (∀ _ ∈ _, _))

theorem EndsLine.starts {tail : Bytes} (ends : EndsLine tail) : Starts tail := by
  intro b first
  rw [ends b first]
  rfl

theorem EndsLine.next?_ne {tail : Bytes} (ends : EndsLine tail) (offset : Nat) :
    ((Cursor.mk offset tail).next? == some Byte.comma) = false := by
  cases tail with
  | nil => rfl
  | cons b rest =>
    obtain rfl := ends b rfl
    rfl

theorem EndsLine.dataMarks {tail : Bytes} (ends : EndsLine tail) :
    ∀ b ∈ tail.head?, b ∈ dataMarks :=
  fun b first => ends b first ▸ List.mem_cons_self

theorem EndsLine.quotation? {tail : Bytes} (ends : EndsLine tail) :
    DataSource.quotation? tail = none := by
  cases tail with
  | nil => rfl
  | cons b rest =>
    obtain rfl := ends b rfl
    rfl

theorem endsExpression_append {gap rest : Bytes} (blanks : IsBlanks gap)
    (head : ∀ b ∈ rest.head?, b = Byte.comma ∨ b = Byte.semicolon) :
    EndsExpression (gap ++ rest) := by
  intro b first
  rw [List.dropWhile_append_of_pos blanks] at first
  cases rest with
  | nil => simp at first
  | cons c rest =>
    have listed : c ∈ ascii ",;)" := by rcases head c rfl with rfl | rfl <;> decide
    have unblank : Byte.isBlank c = false := by rcases head c rfl with rfl | rfl <;> rfl
    simp only [List.dropWhile_cons, unblank, Bool.false_eq_true, if_false, List.head?_cons,
      Option.mem_some_iff] at first
    exact first ▸ listed

/-! ### Reading the slots -/

/-- A form that encodes the given bytes in every state, without a fault. -/
def DataForm.AlwaysEncodes (form : DataForm) (bytes : Bytes) : Prop :=
  ∀ (state : State) (column : Nat), (form.operand state.environment column).bytes = bytes ∧
    (form.operand state.environment column).fault = none

/-- A reader takes every item whole, in the form that encodes its bytes, and nothing at the end of
the line. -/
structure TakesItems {α : Type} (item : Reader (Option DataSource)) (text : α → Bytes → Prop)
    (bytes : α → Bytes) : Prop where
  starts : ∀ {i s}, text i s → ∃ b rest, s = b :: rest ∧ Byte.isBlank b = false ∧ b ≠ Byte.comma
  takes : ∀ {i s}, text i s → ∃ form : DataForm, form.AlwaysEncodes (bytes i) ∧
    ∀ offset tail, EndsExpression tail → ∃ column,
      item.run ⟨offset, s ++ tail⟩ = (some ⟨column, form⟩, ⟨offset + s.length, tail⟩)
  stops : ∀ offset tail, EndsLine tail → item.run ⟨offset, tail⟩ = (none, ⟨offset, tail⟩)

theorem Cursor.skipBlanks_skipBlanks (c : Cursor) : c.skipBlanks.skipBlanks = c.skipBlanks := by
  have starts : Starts c.skipBlanks.rest := by
    have rest : c.skipBlanks.rest = c.rest.dropWhile Byte.isBlank := Lexeme.drop_blankRun c.rest
    have head := List.head?_dropWhile_not Byte.isBlank c.rest
    intro b first
    rw [rest] at first
    rwa [first] at head
  exact skipBlanks_of_starts _ starts

namespace DataSource

theorem itemsFrom_skipBlanks (item : Reader (Option DataSource)) (seen : List DataForm)
    (c : Cursor) : itemsFrom item seen c.skipBlanks = itemsFrom item seen c := by
  have same : (slot item).run c.skipBlanks = (slot item).run c := by
    simp only [slot, c.skipBlanks_skipBlanks]
  rw [itemsFrom.eq_def item seen c.skipBlanks, itemsFrom.eq_def item seen c]
  simp only [same]

theorem reverse_addItem (read : Option DataSource) (seen : List DataForm) :
    (addItem read seen).reverse = seen.reverse ++ (read.map DataSource.form).toList := by
  cases read <;> simp [addItem]

variable {α : Type} {item : Reader (Option DataSource)} {text : α → Bytes → Prop}
  {bytes : α → Bytes}

theorem slot_of_starts {b : UInt8} {before rest : Bytes} (blanks : IsBlanks before)
    (blank : Byte.isBlank b = false) (comma : b ≠ Byte.comma) (offset : Nat) :
    (slot item).run ⟨offset, before ++ b :: rest⟩ =
      item.run ⟨offset + before.length, b :: rest⟩ := by
  unfold slot
  dsimp only
  rw [Cursor.skipBlanks_append offset blanks (starts_cons blank rest)]
  simp [Cursor.next?, comma]

/-- One slot is read up to blanks at its end, before a comma or the end of the line. -/
theorem slot_run (takes : TakesItems item text bytes) {items : List α} {s tail : Bytes}
    (written : SlotText text items s)
    (ends : EndsLine tail ∨ ∃ rest, tail = Byte.comma :: rest) (offset : Nat) :
    ∃ read taken trailing, s = taken ++ trailing ∧ IsBlanks trailing ∧
      (slot item).run ⟨offset, s ++ tail⟩ = (read, ⟨offset + taken.length, trailing ++ tail⟩) ∧
      List.Forall₂ (fun form i => form.AlwaysEncodes (bytes i)) (read.map DataSource.form).toList
        items := by
  cases written with
  | empty blanks =>
    refine ⟨none, s, [], by simp, isBlanks_nil, ?_, .nil⟩
    unfold slot
    dsimp only
    rcases ends with ends | ⟨rest, rfl⟩
    · rw [Cursor.skipBlanks_append offset blanks ends.starts, ends.next?_ne,
        takes.stops _ tail ends]
      rfl
    · rw [Cursor.skipBlanks_append offset blanks (starts_cons rfl rest)]
      rfl
  | @item i s before after written blanks blanks' =>
    obtain ⟨b, rest, start, blank, comma⟩ := takes.starts written
    obtain ⟨form, encodes, run⟩ := takes.takes written
    have follows : EndsExpression (after ++ tail) := by
      refine endsExpression_append blanks' fun c first => ?_
      rcases ends with ends | ⟨rest, rfl⟩
      · exact .inr (ends c first)
      · exact .inl (Option.some.inj first).symm
    obtain ⟨column, read⟩ := run (offset + before.length) (after ++ tail) follows
    refine ⟨some ⟨column, form⟩, before ++ s, after, by simp, blanks', ?_, .cons encodes .nil⟩
    have place : before ++ (s ++ after) ++ tail = before ++ b :: (rest ++ (after ++ tail)) := by
      simp [start]
    rw [place, slot_of_starts blanks blank comma, ← List.cons_append, ← start, read]
    simp [Nat.add_assoc]

theorem itemsFrom_comma {read : Option DataSource} {offset stop : Nat} {s trailing rest : Bytes}
    (blanks : IsBlanks trailing)
    (run : (slot item).run ⟨offset, s⟩ = (read, ⟨stop, trailing ++ Byte.comma :: rest⟩))
    (seen : List DataForm) :
    itemsFrom item seen ⟨offset, s⟩ =
      itemsFrom item (addItem read seen) ⟨stop + trailing.length + 1, rest⟩ := by
  have next := Cursor.skipBlanks_append stop blanks (starts_cons (b := Byte.comma) rfl rest)
  rw [itemsFrom.eq_def item seen ⟨offset, s⟩]
  simp only [run, next, Cursor.next?, List.head?_cons, beq_self_eq_true, dite_true,
    Term.advance_cons]

theorem itemsFrom_end {read : Option DataSource} {offset stop : Nat} {s trailing tail : Bytes}
    (blanks : IsBlanks trailing) (ends : EndsLine tail)
    (run : (slot item).run ⟨offset, s⟩ = (read, ⟨stop, trailing ++ tail⟩)) (seen : List DataForm) :
    itemsFrom item seen ⟨offset, s⟩ = ((addItem read seen).reverse, ⟨stop, trailing ++ tail⟩) := by
  have next := Cursor.skipBlanks_append stop blanks ends.starts
  rw [itemsFrom.eq_def item seen ⟨offset, s⟩]
  simp only [run, next, ends.next?_ne, Bool.false_eq_true, dite_false]

/-- A list is read whole, up to blanks at its end, in forms that encode its items. -/
theorem itemsFrom_list (takes : TakesItems item text bytes) {items : List α} {s tail : Bytes}
    (written : ListText text items s) (ends : EndsLine tail) (seen : List DataForm)
    (offset : Nat) :
    ∃ forms taken trailing, s = taken ++ trailing ∧ IsBlanks trailing ∧
      itemsFrom item seen ⟨offset, s ++ tail⟩ =
        (seen.reverse ++ forms, ⟨offset + taken.length, trailing ++ tail⟩) ∧
      List.Forall₂ (fun form i => form.AlwaysEncodes (bytes i)) forms items := by
  -- The forms of the slots before stay in `seen`, so it changes from slot to slot.
  induction written generalizing seen offset with
  | last slot =>
    obtain ⟨read, taken, trailing, whole, blanks, run, encode⟩ :=
      slot_run takes slot (.inl ends) offset
    refine ⟨_, taken, trailing, whole, blanks, ?_, encode⟩
    rw [itemsFrom_end blanks ends run, reverse_addItem]
  | @more items others s rest slot list ih =>
    obtain ⟨read, first, gap, rfl, blanks, run, encode⟩ :=
      slot_run takes slot (.inr ⟨rest ++ tail, rfl⟩) offset
    obtain ⟨forms, taken, trailing, rfl, blanks', goesOn, encode'⟩ :=
      ih (addItem read seen) (offset + first.length + gap.length + 1)
    refine ⟨(read.map DataSource.form).toList ++ forms, first ++ gap ++ Byte.comma :: taken,
      trailing, by simp, blanks', ?_, List.rel_append encode encode'⟩
    rw [List.append_assoc _ (Byte.comma :: _) tail, List.cons_append, itemsFrom_comma blanks run,
      goesOn, reverse_addItem]
    simp [Nat.add_assoc, Nat.add_comm, Nat.add_left_comm]

end DataSource

/-! ### Items -/

/-- What stands in a list of bytes: a number, of which the low byte counts, or a string. -/
inductive DataItem where
  | number (w : UInt16)
  | string (s : Bytes)

namespace DataItem

/-- How an item is written: a number in any base, or a string between marks of either kind. -/
inductive Text : DataItem → Bytes → Prop where
  | number {w : UInt16} {s : Bytes} (numeral : Numeral w s) : Text (.number w) s
  | string {mark : UInt8} (listed : mark ∈ quotationMarks) (s : Bytes) :
      Text (.string s) (quoted mark s)

def bytes : DataItem → Bytes
  | number w => [UInt8.ofNat (w.toNat % 256)]
  | string s => s

end DataItem

/-- A word in two bytes, the low one first. -/
def littleEndian (w : UInt16) : Bytes :=
  [UInt8.ofNat (w.toNat % 256), UInt8.ofNat (w.toNat / 256)]

theorem lowByte_eq (w : UInt16) : lowByte w = UInt8.ofNat (w.toNat % 256) := by
  simp [lowByte, ← UInt8.toNat_inj]

theorem wordBytes_eq (w : UInt16) : wordBytes w = littleEndian w := by
  have high : highByte w = UInt8.ofNat (w.toNat / 256) := by
    simp [highByte, ← UInt8.toNat_inj, Nat.shiftRight_eq_div_pow]
  rw [wordBytes, lowByte_eq, high, littleEndian]

theorem Numeral.starts {w : UInt16} {s : Bytes} (numeral : Numeral w s) :
    ∃ b rest, s = b :: rest ∧ Byte.isBlank b = false ∧ b ≠ Byte.comma := by
  have apart : ∀ b, Byte.isDigit b = true → b ≠ Byte.comma := forall_byte (by decide +kernel)
  obtain ⟨b, rest, start, digit⟩ := numeral.head []
  rw [List.append_nil] at start
  exact ⟨b, rest, start, digit_apart b digit, apart b digit⟩

/-- A string of one byte between single quotes is a character. -/
theorem leafText_quoted (parent : Bytes) (b : UInt8) :
    LeafText parent (.character b) (quoted Byte.singleQuote [b]) := by
  by_cases special : b = Byte.singleQuote ∨ b = Byte.backslash
  · have text : quoted Byte.singleQuote [b] =
        [Byte.singleQuote, Byte.backslash, b, Byte.singleQuote] := by
      simp [quoted, escaped, escapedByte, special]
    rw [text]
    exact .escaped b
  · have text : quoted Byte.singleQuote [b] = [Byte.singleQuote, b, Byte.singleQuote] := by
      simp [quoted, escaped, escapedByte, special]
    rw [text]
    exact .character (not_or.mp special).1 (not_or.mp special).2

namespace DataSource

variable (scope : Scope) (line : Int) (depth : Int)

theorem byteItem_leaf {l : Leaf} {s : Bytes} {w : UInt16} (text : LeafText scope.parent l s)
    (known : ∀ v, l.value v = some w) :
    ∃ form : DataForm, form.AlwaysEncodes [lowByte w] ∧ ∀ offset tail, EndsExpression tail →
      ∃ column, (byteItem (Term.expression scope line 0 depth)).run ⟨offset, s ++ tail⟩ =
        (some ⟨column, form⟩, ⟨offset + s.length, tail⟩) := by
  obtain ⟨e, means, run⟩ := Term.expression_leaf scope line depth text
  refine ⟨.byte e, fun state column => ?_, fun offset tail ends => ⟨offset + 1, ?_⟩⟩
  · obtain ⟨fault, value⟩ := means.placeholder known state
    simp [DataForm.operand, Expr.evaluated, fault, value]
  · simp [byteItem, run offset tail ends, means.present]

theorem wordItem_leaf {l : Leaf} {s : Bytes} {w : UInt16} (text : LeafText scope.parent l s)
    (known : ∀ v, l.value v = some w) :
    ∃ form : DataForm, form.AlwaysEncodes (wordBytes w) ∧ ∀ offset tail, EndsExpression tail →
      ∃ column, (wordItem (Term.expression scope line 0 depth)).run ⟨offset, s ++ tail⟩ =
        (some ⟨column, form⟩, ⟨offset + s.length, tail⟩) := by
  obtain ⟨e, means, run⟩ := Term.expression_leaf scope line depth text
  refine ⟨.word e, fun state column => ?_, fun offset tail ends => ⟨offset + 1, ?_⟩⟩
  · obtain ⟨fault, value⟩ := means.placeholder known state
    simp [DataForm.operand, Expr.evaluated, fault, value]
  · simp [wordItem, run offset tail ends, means.present]

/-- Where no expression starts, a string is looked for. -/
theorem byteItem_eq_string {rest : Bytes} (offset : Nat) (head : ∀ b ∈ rest.head?, b ∈ dataMarks)
    (longer : ∀ length, Lexeme.quotation? Byte.singleQuote rest ≠ some ⟨length, 1⟩) :
    (byteItem (Term.expression scope line 0 depth)).run ⟨offset, rest⟩ =
      string.run ⟨offset, rest⟩ := by
  simp [byteItem, Term.expression_isMissing scope line depth offset head longer]

theorem byteItem_string {mark : UInt8} (listed : mark ∈ quotationMarks) {s : Bytes}
    (longer : mark = Byte.singleQuote → s.length ≠ 1) (offset : Nat) (tail : Bytes) :
    (byteItem (Term.expression scope line 0 depth)).run ⟨offset, quoted mark s ++ tail⟩ =
      (some ⟨offset + 1, .string (quoted mark s)⟩, ⟨offset + (quoted mark s).length, tail⟩) := by
  have marked : ∀ b ∈ (quoted mark s ++ tail).head?, b ∈ dataMarks := by
    intro b first
    obtain rfl : mark = b := Option.some.inj first
    exact List.mem_cons_of_mem _ listed
  have single : ∀ length,
      Lexeme.quotation? Byte.singleQuote (quoted mark s ++ tail) ≠ some ⟨length, 1⟩ := by
    intro length found
    by_cases same : mark = Byte.singleQuote
    · subst same
      rw [Lexeme.quotation?_quoted (by decide)] at found
      exact longer rfl (congrArg Lexeme.Quotation.characters (Option.some.inj found))
    · simp [quoted, Lexeme.quotation?, same] at found
  have starts : Starts (quoted mark s ++ tail) :=
    starts_cons (quotationMarks_apart mark listed).2.1 _
  rw [byteItem_eq_string scope line depth offset marked single]
  unfold string
  dsimp only
  rw [Cursor.skipBlanks_of_starts offset starts]
  simp only [quotation?_quoted listed, List.take_left, Cursor.advance_append, Cursor.column]

theorem byteItem_takesItems :
    TakesItems (byteItem (Term.expression scope line 0 depth)) DataItem.Text DataItem.bytes where
  starts := by
    intro i s text
    cases text with
    | number numeral => exact numeral.starts
    | @string mark listed s =>
      exact ⟨mark, _, rfl, (quotationMarks_apart mark listed).2⟩
  takes := by
    intro i s text
    cases text with
    | @number w s numeral =>
      rw [DataItem.bytes, ← lowByte_eq]
      exact byteItem_leaf scope line depth (.number numeral) fun _ => rfl
    | @string mark listed s =>
      by_cases character : mark = Byte.singleQuote ∧ s.length = 1
      · obtain ⟨rfl, single⟩ := character
        obtain ⟨b, rfl⟩ := List.length_eq_one_iff.mp single
        have low : lowByte b.toUInt16 = b := by simp [lowByte]
        have read := byteItem_leaf scope line depth (leafText_quoted scope.parent b)
          (w := b.toUInt16) fun _ => rfl
        rwa [low] at read
      · refine ⟨.string (quoted mark s), fun state column => ⟨?_, rfl⟩, fun offset tail _ =>
          ⟨offset + 1, ?_⟩⟩
        · exact quotedBytes_quoted mark s
        · exact byteItem_string scope line depth listed (not_and.mp character) offset tail
  stops := by
    intro offset tail ends
    have unquoted : quotation? tail = none := ends.quotation?
    have unmarked : Lexeme.quotation? Byte.singleQuote tail = none :=
      (Option.or_eq_none_iff.mp unquoted).1
    rw [byteItem_eq_string scope line depth offset ends.dataMarks (by simp [unmarked])]
    simp [string, Cursor.skipBlanks_of_starts offset ends.starts, unquoted]

theorem wordItem_takesItems :
    TakesItems (wordItem (Term.expression scope line 0 depth)) Numeral littleEndian where
  starts := Numeral.starts
  takes := by
    intro w s numeral
    rw [← wordBytes_eq]
    exact wordItem_leaf scope line depth (.number numeral) fun _ => rfl
  stops := by
    intro offset tail ends
    have unquoted : Lexeme.quotation? Byte.singleQuote tail = none :=
      (Option.or_eq_none_iff.mp ends.quotation?).1
    simp [wordItem,
      Term.expression_isMissing scope line depth offset ends.dataMarks (by simp [unquoted])]

/-- The operand read from a text before `tail`, up to blanks at the end of the text, has no fault
and encodes the given bytes. -/
def Encodes (reader : Reader OperandSource) (s tail bytes : Bytes) : Prop :=
  ∀ (offset : Nat) (state : State), ∃ taken trailing, s = taken ++ trailing ∧ IsBlanks trailing ∧
    let read := reader.run ⟨offset, s ++ tail⟩
    let operand := read.1.operand state.environment
    read.2 = ⟨offset + taken.length, trailing ++ tail⟩ ∧ operand.fault = none ∧
      operand.bytes = bytes

section Forms

variable {α : Type} {bytes : α → Bytes} {forms : List DataForm} {items : List α}
  (encode : List.Forall₂ (fun form i => form.AlwaysEncodes (bytes i)) forms items) (state : State)

include encode

theorem flatMap_bytes_of_encodes :
    (forms.map (·.operand state.environment 0)).flatMap (·.bytes) = items.flatMap bytes := by
  induction encode with
  | nil => rfl
  | cons first _ ih =>
    simp only [List.map_cons, List.flatMap_cons, (first state 0).1, ih]

theorem findSome?_fault_of_encodes :
    (forms.map (·.operand state.environment 0)).findSome? (·.fault) = none := by
  induction encode with
  | nil => rfl
  | cons first _ ih => simp only [List.map_cons, List.findSome?_cons, (first state 0).2, ih]

end Forms

/-- A list that is not empty encodes its items one after the other. -/
theorem list_encodes {α : Type} {item : Reader (Option DataSource)} {text : α → Bytes → Prop}
    {bytes : α → Bytes} (takes : TakesItems item text bytes) (kind : OperandKind) {items : List α}
    {s tail : Bytes} (nonempty : items ≠ []) (written : ListText text items s)
    (ends : EndsLine tail) : Encodes (list kind item) s tail (items.flatMap bytes) := by
  intro offset state
  obtain ⟨forms, taken, trailing, whole, blanks, run, encode⟩ :=
    itemsFrom_list takes written ends [] offset
  have some_forms : forms.isEmpty = false := by
    cases encode with
    | nil => exact absurd rfl nonempty
    | cons => rfl
  have bytes := flatMap_bytes_of_encodes encode state
  have faults := findSome?_fault_of_encodes encode state
  refine ⟨taken, trailing, whole, blanks, ?_⟩
  simp only [list, itemsFrom_skipBlanks, run, List.reverse_nil, List.nil_append,
    OperandSource.operand, listOperand, bytes, faults, List.isEmpty_map, some_forms]
  simp

end DataSource

/-- A list of bytes and strings, and a list of words, with any blanks around the items and any
number of empty slots, is taken up to blanks at its end, without a fault. The list of bytes encodes
the low bytes of its numbers and the bytes of its strings, the list of words its words, the low
byte of each first. -/
theorem data_lists_encoded (scope : Scope) (line depth : Int) {tail : Bytes}
    (ends : EndsLine tail) :
    (∀ (items : List DataItem) (s : Bytes), items ≠ [] → ListText DataItem.Text items s →
      DataSource.Encodes
        (DataSource.list .byteList (DataSource.byteItem (Term.expression scope line 0 depth)))
        s tail (items.flatMap DataItem.bytes)) ∧
    ∀ (words : List UInt16) (s : Bytes), words ≠ [] → ListText Numeral words s →
      DataSource.Encodes
        (DataSource.list .wordList (DataSource.wordItem (Term.expression scope line 0 depth)))
        s tail (words.flatMap littleEndian) := by
  refine ⟨fun items s nonempty written => ?_, fun words s nonempty written => ?_⟩
  · exact DataSource.list_encodes (DataSource.byteItem_takesItems scope line depth) .byteList
      nonempty written ends
  · exact DataSource.list_encodes (DataSource.wordItem_takesItems scope line depth) .wordList
      nonempty written ends

/-- A number, an empty slot, a character, and a string of a comma, a quote and a backslash; then
two words around an empty slot. -/
theorem data_lists_encoded_sample :
    EndsLine (ascii "; end") ∧
      DataSource.Encodes
        (DataSource.list .byteList
          (DataSource.byteItem (Term.expression ⟨ascii "t.asm", []⟩ 1 0 0)))
        (ascii " 511 ,,'a' , ',\\'\\\\' ") (ascii "; end") [0xFF, 0x61, 0x2C, 0x27, 0x5C] ∧
      DataSource.Encodes
        (DataSource.list .wordList
          (DataSource.wordItem (Term.expression ⟨ascii "t.asm", []⟩ 1 0 0)))
        (ascii "511, ,1") (ascii "; end") [0xFF, 0x01, 0x01, 0x00] := by
  have one : IsBlanks (ascii " ") := by decide +kernel
  have ends : EndsLine (ascii "; end") := by decide +kernel
  have large : Numeral 511 (ascii "511") :=
    @Numeral.intro 511 10 (ascii "511") [] (by decide +kernel) (by decide +kernel)
      (by decide +kernel) (by decide +kernel)
  have small : Numeral 1 (ascii "1") :=
    @Numeral.intro 1 10 (ascii "1") [] (by decide +kernel) (by decide +kernel)
      (by decide +kernel) (by decide +kernel)
  have character : DataItem.Text (.string (ascii "a")) (ascii "'a'") :=
    @DataItem.Text.string Byte.singleQuote (by decide) (ascii "a")
  have string : DataItem.Text (.string (ascii ",'\\")) (ascii "',\\'\\\\'") :=
    @DataItem.Text.string Byte.singleQuote (by decide) (ascii ",'\\")
  have bytes : ListText DataItem.Text _ (ascii " 511 ,,'a' , ',\\'\\\\' ") :=
    .more (.item (.number large) one one) (.more (.empty isBlanks_nil)
      (.more (.item character isBlanks_nil one) (.last (.item string one one))))
  have words : ListText Numeral _ (ascii "511, ,1") :=
    .more (.item large isBlanks_nil isBlanks_nil)
      (.more (.empty one) (.last (.item small isBlanks_nil isBlanks_nil)))
  obtain ⟨byteList, wordList⟩ := data_lists_encoded ⟨ascii "t.asm", []⟩ 1 0 ends
  exact ⟨ends, byteList _ _ (by simp) bytes, wordList _ _ (by simp) words⟩

end Assembler8080
