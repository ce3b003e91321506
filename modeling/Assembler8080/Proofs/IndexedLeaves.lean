import Assembler8080.Proofs.Indexed

/-! Labels and other values without parts, by index. Each is found without an error, and is what the
reader finds at the same place: `Indexed.leaf?_ok`. -/
namespace Assembler8080

namespace Cursor

theorem inside_advance {text : Bytes} (i n : Nat) (fits : i + n ≤ text.length) :
    (inside text i).advance n = inside text (i + n) := by
  have width : min n (text.length - i) = n := by omega
  simp [inside, advance, List.drop_drop, width]

theorem blankRun_le (s : Bytes) : Lexeme.blankRun s ≤ s.length :=
  (List.takeWhile_prefix Byte.isBlank).length_le

theorem inside_skipBlanks {text : Bytes} {i : Nat} (start : i ≤ text.length) :
    (inside text i).skipBlanks = inside text (i + Lexeme.blankRun (text.drop i)) ∧
      i + Lexeme.blankRun (text.drop i) ≤ text.length := by
  have run := blankRun_le (text.drop i)
  rw [List.length_drop] at run
  have fits : i + Lexeme.blankRun (text.drop i) ≤ text.length := by omega
  exact ⟨inside_advance _ _ fits, fits⟩

end Cursor

namespace Indexed

open Checked

/-! ### Parts of labels -/

def name? (s : Bytes) (i : Nat) : Checked (Option (Bytes × Nat)) := do
  let length ← name s i
  if length = 0 then return none else return some (← slice s i (i + length), i + length)

def dotName? (s : Bytes) (i : Nat) : Checked (Option (Bytes × Nat)) := do
  if (← next? s i) == some Byte.dot then name? s (i + 1) else return none

def keyword? (word s : Bytes) (i : Nat) : Checked (Option Nat) := do
  let length ← keyword word s i
  if length = 0 then return none else return some (i + length)

def dollar (s : Bytes) (i : Nat) : Checked Nat := do
  if (← next? s i) == some Byte.dollar then return i + 1 else return i

section Parts

variable (s : Bytes) (i lead : Nat)

/-- What is found after some bytes from an index on, placed in the text. -/
def shift {α : Type} (x : α × Nat) : α × Nat := (x.1, i + x.2)

theorem name?_ok : name? s (i + lead) = .ok ((Spelled.name? lead (s.drop i)).map (shift i)) := by
  have fits := name_le (s.drop (i + lead))
  rw [List.length_drop] at fits
  simp only [name?, name_ok, bind_ok, Spelled.name?, List.drop_drop]
  cases length : Lexeme.name (s.drop (i + lead)) with
  | zero => rfl
  | succ n =>
    have found : slice s (i + lead) (i + lead + (n + 1)) =
        .ok ((s.drop (i + lead)).take (n + 1)) := slice_ok (by omega)
    rw [if_neg (Nat.succ_ne_zero n), found]
    simp [shift, Nat.add_assoc]

theorem dotName?_ok :
    dotName? s (i + lead) = .ok ((Spelled.dotName? lead (s.drop i)).map (shift i)) := by
  simp only [dotName?, next?_ok, bind_ok, Spelled.dotName?, List.drop_drop]
  cases head : (s.drop (i + lead)).head? with
  | none => rfl
  | some b =>
    by_cases dot : b = Byte.dot
    · subst dot
      exact name?_ok s i (lead + 1)
    · simp [dot]

theorem keyword?_ok {word : Bytes} (listed : IsKeyword word) :
    keyword? word s i = .ok ((Spelled.keyword? word (s.drop i)).map (i + ·)) := by
  simp only [keyword?, keyword_ok listed, bind_ok, Spelled.keyword?]
  cases Lexeme.keyword word (s.drop i) <;> simp

theorem dollar_ok : dollar s (i + lead) = .ok (i + Spelled.dollar lead (s.drop i)) := by
  simp only [dollar, next?_ok, bind_ok, Spelled.dollar, List.drop_drop]
  split <;> simp [Nat.add_assoc]

end Parts

/-! ### Spellings of labels -/

/-- A label read at an index, and the index after it. -/
abbrev Form := Bytes → Nat → Checked (Option (Label × Nat))

def globalKeyword? : Form := fun s i =>
  andThen (keyword? (ascii "GLOBAL") s i) fun j => do
    andThen (name? s (← dollar s j)) fun (text, stop) => return some (⟨.global, text, []⟩, stop)

def dollarName? : Form := fun s i => do
  if (← next? s i) == some Byte.dollar then
    andThen (name? s (i + 1)) fun (text, stop) => return some (⟨.global, text, []⟩, stop)
  else return none

def staticKeyword? : Form := fun s i =>
  andThen (keyword? (ascii "STATIC") s i) fun j =>
    andThen (name? s j) fun (text, stop) => return some (⟨.static, text, []⟩, stop)

def plainName? : Form := fun s i =>
  andThen (name? s i) fun (text, stop) => return some (⟨.static, text, []⟩, stop)

def parentDotName? : Form := fun s i =>
  andThen (name? s i) fun (parent, j) =>
    andThen (dotName? s j) fun (text, stop) => return some (⟨.nested, text, parent⟩, stop)

def bareDotName? (parent : Bytes) : Form := fun s i =>
  andThen (dotName? s i) fun (text, stop) => return some (⟨.nested, text, parent⟩, stop)

/-- A form after the keyword LOCAL. -/
def localKeyword? (form : Form) : Form := fun s i =>
  andThen (keyword? (ascii "LOCAL") s i) (form s)

def referenceForms (parent : Bytes) : List Form :=
  [globalKeyword?, dollarName?, staticKeyword?, localKeyword? parentDotName?,
    localKeyword? (bareDotName? parent), parentDotName?, plainName?, bareDotName? parent]

/-- What the first form that fits finds. -/
def firstForm (s : Bytes) (i : Nat) : List Form → Checked (Option (Label × Nat))
  | [] => return none
  | form :: rest => orElse (form s i) (firstForm s i rest)

def placed (i : Nat) (x : Spelled) : Label × Nat := (x.label, i + x.length)

/-- A form by index finds the spelling that stands at the index. -/
def Finds (form : Form) (spelling : Bytes → Option Spelled) : Prop :=
  ∀ s i, form s i = .ok ((spelling (s.drop i)).map (placed i))

theorem globalKeyword?_finds : Finds globalKeyword? Spelled.globalKeyword? := by
  intro s i
  refine andThen_ok (keyword?_ok s i keywords.1) fun lead => ?_
  rw [dollar_ok]
  exact andThen_ok (name?_ok s i _) fun x => rfl

theorem dollarName?_finds : Finds dollarName? Spelled.dollarName? := by
  intro s i
  simp only [dollarName?, next?_ok, bind_ok, Spelled.dollarName?]
  cases head : (s.drop i).head? with
  | none => rfl
  | some b =>
    by_cases dollar : b = Byte.dollar
    · subst dollar
      exact andThen_map (name?_ok s i 1) fun x => rfl
    · simp [dollar]

theorem staticKeyword?_finds : Finds staticKeyword? Spelled.staticKeyword? := by
  intro s i
  refine andThen_ok (keyword?_ok s i keywords.2.1) fun lead => ?_
  exact andThen_ok (name?_ok s i lead) fun x => rfl

theorem plainName?_finds : Finds plainName? Spelled.plainName? := fun s i =>
  andThen_map (name?_ok s i 0) fun _ => rfl

theorem parentDotName?_ok (s : Bytes) (i lead : Nat) :
    parentDotName? s (i + lead) = .ok ((Spelled.parentDotName? lead (s.drop i)).map (placed i)) := by
  refine andThen_ok (name?_ok s i lead) fun x => ?_
  exact andThen_ok (dotName?_ok s i x.2) fun y => rfl

theorem bareDotName?_ok (parent s : Bytes) (i lead : Nat) :
    bareDotName? parent s (i + lead) =
      .ok ((Spelled.bareDotName? parent lead (s.drop i)).map (placed i)) :=
  andThen_map (dotName?_ok s i lead) fun _ => rfl

theorem localKeyword?_finds {form : Form} {spelling : Nat → Bytes → Option Spelled}
    (after : ∀ s i lead, form s (i + lead) = .ok ((spelling lead (s.drop i)).map (placed i))) :
    Finds (localKeyword? form) fun s => (Spelled.keyword? (ascii "LOCAL") s).bind (spelling · s) :=
  fun s i => andThen_ok (keyword?_ok s i keywords.2.2) (after s i)

theorem referenceForms_find (parent : Bytes) :
    List.Forall₂ Finds (referenceForms parent) (Assembler8080.referenceForms parent) := by
  refine .cons globalKeyword?_finds (.cons dollarName?_finds (.cons staticKeyword?_finds
    (.cons ?_ (.cons ?_ (.cons ?_ (.cons plainName?_finds (.cons ?_ .nil)))))))
  · exact localKeyword?_finds parentDotName?_ok
  · exact localKeyword?_finds (bareDotName?_ok parent)
  · exact fun s i => parentDotName?_ok s i 0
  · exact fun s i => bareDotName?_ok parent s i 0

theorem firstForm_ok {forms : List Form} {spellings : List (Bytes → Option Spelled)}
    (find : List.Forall₂ Finds forms spellings) (s : Bytes) (i : Nat) :
    firstForm s i forms = .ok ((spellings.findSome? (· (s.drop i))).map (placed i)) := by
  induction find with
  | nil => rfl
  | @cons form spelling _ _ first _ ih =>
    have both := orElse_ok (first s i) ih
    rw [firstForm, both, List.findSome?_cons]
    cases spelling (s.drop i) <;> rfl

def reference? (scope : Scope) (line : Int) (s : Bytes) (i : Nat) :
    Checked (Option (Reference × Nat)) := do
  let start ← runEnd Byte.isBlank s i
  andThen (firstForm s start (referenceForms scope.parent)) fun (label, stop) => do
    let source ← slice s start stop
    return some (⟨label, if label.kind = .global then [] else scope.file, line, source⟩, stop)

/-- A result and the place after it, by index. -/
def ended {α : Type} (x : α × Cursor) : α × Nat := (x.1, x.2.offset)

theorem reference?_ok (scope : Scope) (line : Int) {s : Bytes} {i : Nat} (inside : i ≤ s.length) :
    reference? scope line s i = .ok ((scope.reference? line (.inside s i)).map ended) := by
  obtain ⟨skipped, start⟩ := Cursor.inside_skipBlanks inside
  generalize place : i + Lexeme.blankRun (s.drop i) = p at skipped start
  simp only [reference?, blanks_ok, bind_ok, place, Scope.reference?, skipped,
    firstForm_ok (referenceForms_find scope.parent)]
  have rest : (Cursor.inside s p).rest = s.drop p := rfl
  rw [rest]
  cases found : (Assembler8080.referenceForms scope.parent).findSome? (· (s.drop p)) with
  | none => rfl
  | some x =>
    obtain ⟨form, member, formed⟩ := List.exists_of_findSome?_eq_some found
    have length := (referenceForms_fits member formed).length_le
    rw [List.length_drop] at length
    have source : slice s p (p + x.length) = .ok ((s.drop p).take x.length) :=
      slice_ok (by omega)
    have stop : (Cursor.inside s p).advance x.length = .inside s (p + x.length) :=
      Cursor.inside_advance p x.length (by omega)
    simp only [andThen, Option.map_some, placed, bind_ok, source, stop]
    rfl

/-! ### Numbers -/

def digits (word : Bytes) : Checked (Bytes × Nat) := do
  match NumberLiteral.suffixBase? (← byte word (word.length - 1)) with
  | some base => return (← slice word 0 (word.length - 1), base)
  | none => return (word, 10)

def number? (s : Bytes) (i : Nat) : Checked (Option (NumberLiteral × Nat)) := do
  if (← next? s i).any Byte.isDigit then
    let stop ← runEnd Byte.isNameChar s i
    let word ← slice s i stop
    let (ds, base) ← digits word
    if ds.isEmpty || !ds.all (NumberLiteral.isDigitOf base) then return none
    else return some (⟨word, NumberLiteral.wordOf? base ds⟩, stop)
  else return none

theorem digits_ok {word : Bytes} (nonempty : word ≠ []) : digits word = .ok (NumberLiteral.digits word) := by
  have positive := List.length_pos_iff.mpr nonempty
  have last : byte word (word.length - 1) = .ok (word.getLast nonempty) := by
    simp [byte, ← List.getLast?_eq_getElem?, List.getLast?_eq_some_getLast nonempty]
  have front := slice_ok (s := word) (i := 0) (n := word.length - 1) (by omega)
  rw [Nat.zero_add, List.drop_zero, ← List.dropLast_eq_take] at front
  simp only [digits, last, bind_ok, front, NumberLiteral.digits,
    List.getLast?_eq_some_getLast nonempty, Option.bind_some]
  cases NumberLiteral.suffixBase? (word.getLast nonempty) <;> rfl

theorem number?_ok (s : Bytes) (i : Nat) :
    number? s i =
      .ok ((NumberLiteral.first? (s.drop i)).map fun n => (n, i + n.word.length)) := by
  simp only [number?, next?_ok, bind_ok, NumberLiteral.first?]
  by_cases digit : (s.drop i).head?.any Byte.isDigit = true
  · have run := Lexeme.wordRun_le (s.drop i)
    rw [List.length_drop] at run
    have inside : i < s.length := by
      by_contra beyond
      simp [List.drop_eq_nil_of_le (Nat.le_of_not_lt beyond)] at digit
    have nonempty : (s.drop i).take (Lexeme.wordRun (s.drop i)) ≠ [] := by
      cases rest : s.drop i with
      | nil => simp [rest] at digit
      | cons b rest =>
        simp only [rest, List.head?_cons, Option.any_some] at digit
        simp [Lexeme.wordRun, Byte.isNameChar, digit]
    have word : slice s i (i + Lexeme.wordRun (s.drop i)) =
        .ok ((s.drop i).take (Lexeme.wordRun (s.drop i))) := slice_ok (by omega)
    have length : ((s.drop i).take (Lexeme.wordRun (s.drop i))).length =
        Lexeme.wordRun (s.drop i) := by simp; omega
    simp only [digit, if_true, word_ok, bind_ok, word, digits_ok nonempty, NumberLiteral.ofWord?]
    split
    · rfl
    · simp only [pure_eq_ok, Option.map_some, length]
  · rw [if_neg digit, if_neg digit]
    rfl

/-! ### Characters and the address -/

def character? (s : Bytes) (i : Nat) : Checked (Option (Expr × Nat)) := do
  match ← quotation? Byte.singleQuote s i with
  | some ⟨length, 1⟩ =>
    let source ← slice s i (i + length)
    let body ← slice source 1 (source.length - 1)
    let b ← byte (← unescapeFrom body 0 []) 0
    return some (.character source b, i + length)
  | _ => return none

def here? (s : Bytes) (i : Nat) : Checked (Option (Expr × Nat)) := do
  if (← next? s i) == some Byte.dollar then
    if (← next? s (i + 1)).any Byte.isNameChar then return none else return some (.here, i + 1)
  else return none

/-- A quotation has its two marks and a byte for every character. -/
theorem quotationFrom_characters {mark : UInt8} {length characters : Nat} {s : Bytes}
    {q : Lexeme.Quotation} (found : Lexeme.quotationFrom mark length characters s = some q) :
    q.characters + length + 1 ≤ q.length + characters := by
  fun_induction Lexeme.quotationFrom mark length characters s with
  | case1 => contradiction
  | case2 => contradiction
  | case3 length characters b escape c rest ih =>
    have more := ih found
    omega
  | case4 length characters b rest plain closes =>
    obtain rfl := Option.some.inj found
    dsimp only
    omega
  | case5 length characters b rest plain inside ih =>
    have more := ih found
    omega

theorem quotation?_characters {mark : UInt8} {s : Bytes} {q : Lexeme.Quotation}
    (found : Lexeme.quotation? mark s = some q) : q.characters + 2 ≤ q.length := by
  cases s with
  | nil => contradiction
  | cons b rest =>
    rw [Lexeme.quotation?] at found
    split at found
    · exact quotationFrom_characters found
    · contradiction

theorem unescapeOnto_ne_nil (seen : Bytes) {s : Bytes} (nonempty : seen ≠ [] ∨ s ≠ []) :
    Lexeme.unescapeOnto seen s ≠ [] := by
  fun_induction Lexeme.unescapeOnto seen s with
  | case1 seen => simpa using nonempty
  | case2 seen b => simp
  | case3 seen b c rest escape ih => exact ih (.inl (List.cons_ne_nil c seen))
  | case4 seen b c rest plain ih => exact ih (.inl (List.cons_ne_nil b seen))

theorem byte_zero {s : Bytes} (nonempty : s ≠ []) : byte s 0 = .ok (s.headD 0) := by
  cases s with
  | nil => contradiction
  | cons b rest => rfl

theorem body_ok (source : Bytes) (marks : 2 ≤ source.length) :
    slice source 1 (source.length - 1) = .ok (source.drop 1).dropLast := by
  have found := slice_ok (s := source) (i := 1) (n := source.length - 2) (by omega)
  have stop : 1 + (source.length - 2) = source.length - 1 := by omega
  have width : (source.drop 1).length - 1 = source.length - 2 := by
    rw [List.length_drop]
    omega
  rw [stop] at found
  rw [found, List.dropLast_eq_take, width]

theorem character?_ok {s : Bytes} {i : Nat} (inside : i ≤ s.length) :
    character? s i = .ok ((Term.character? (.inside s i)).map ended) := by
  have rest : (Cursor.inside s i).rest = s.drop i := rfl
  simp only [character?, quotation?_ok, bind_ok, Term.character?, rest]
  cases found : Lexeme.quotation? Byte.singleQuote (s.drop i) with
  | none => rfl
  | some q =>
    obtain ⟨length, characters⟩ := q
    -- Only a quotation of one character is a value.
    match characters, found with
    | 0, _ => rfl
    | 1, found =>
      have fits := Lexeme.quotation?_length_le found
      have marks : 1 + 2 ≤ length := quotation?_characters found
      rw [List.length_drop] at fits
      dsimp only at fits
      have source : slice s i (i + length) = .ok ((s.drop i).take length) := slice_ok (by omega)
      have whole : ((s.drop i).take length).length = length := by
        rw [List.length_take, List.length_drop]
        omega
      have body := body_ok ((s.drop i).take length) (by omega)
      have nonempty : (((s.drop i).take length).drop 1).dropLast ≠ [] := by
        apply List.ne_nil_of_length_pos
        rw [List.length_dropLast, List.length_drop, whole]
        omega
      have stop : (Cursor.inside s i).advance length = .inside s (i + length) :=
        Cursor.inside_advance i length (by omega)
      simp only [source, bind_ok, body, unescapeFrom_ok, List.drop_zero,
        byte_zero (unescapeOnto_ne_nil [] (.inr nonempty)), stop]
      rfl
    | more + 2, _ => rfl

theorem here?_ok {s : Bytes} {i : Nat} : here? s i = .ok ((Term.here? (.inside s i)).map ended) := by
  have rest : (Cursor.inside s i).rest = s.drop i := rfl
  simp only [here?, next?_ok, bind_ok, Term.here?, Cursor.next?, Lexeme.continuesName, rest,
    List.drop_drop]
  by_cases dollar : ((s.drop i).head? == some Byte.dollar) = true
  · have inside : i + 1 ≤ s.length := by
      by_contra beyond
      simp [List.drop_eq_nil_of_le (show s.length ≤ i by omega)] at dollar
    have stop : (Cursor.inside s i).advance 1 = .inside s (i + 1) :=
      Cursor.inside_advance i 1 inside
    rw [if_pos dollar, dollar, Bool.true_and, stop]
    cases (s.drop (i + 1)).head?.any Byte.isNameChar <;> rfl
  · rw [if_neg dollar, Bool.eq_false_iff.mpr dollar]
    rfl

def leaf? (scope : Scope) (line : Int) (s : Bytes) (i : Nat) : Checked (Option (Expr × Nat)) :=
  orElse (andThen (number? s i) fun (n, stop) => return some (.number n, stop))
    (orElse (andThen (reference? scope line s i) fun (r, stop) => return some (.label r, stop))
      (orElse (character? s i) (here? s i)))

theorem leaf?_ok (scope : Scope) (line : Int) {s : Bytes} {i : Nat} (inside : i ≤ s.length) :
    leaf? scope line s i = .ok ((Term.leaf? scope line (.inside s i)).map ended) := by
  have number : andThen (number? s i) (fun (n, stop) => return some (.number n, stop)) =
      .ok ((Term.number? (.inside s i)).map ended) := by
    rw [number?_ok, Term.number?]
    have rest : (Cursor.inside s i).rest = s.drop i := rfl
    rw [rest]
    cases found : NumberLiteral.first? (s.drop i) with
    | none => rfl
    | some n =>
      have fits := NumberLiteral.word_length_le found
      rw [List.length_drop] at fits
      have stop : (Cursor.inside s i).advance n.word.length = .inside s (i + n.word.length) :=
        Cursor.inside_advance i n.word.length (by omega)
      simp only [Option.map_some, andThen, bind_ok, stop]
      rfl
  have label : andThen (reference? scope line s i) (fun (r, stop) => return some (.label r, stop)) =
      .ok ((Term.label? scope line (.inside s i)).map ended) :=
    andThen_map (reference?_ok scope line inside) fun _ => rfl
  exact orElse_ok number (orElse_ok label (orElse_ok (character?_ok inside) here?_ok))

end Indexed

end Assembler8080
