import Mathlib.Computability.RegularExpressions
import Assembler8080.Proofs.Leaves

/-! The grammar of number literals. `numberForms` writes it as regular expressions over capitals;
the word at a place is a number exactly if its capitals match one of them (`isSome_first?_iff`),
which then is the only one (`NumberForm.Matches.unique`), and its value is that of its digits in the base
of the form (`ofWord?_of_matches`). `numbers_exact` puts these together. -/
namespace Assembler8080

open RegularExpression

def oneOf (bytes : Bytes) : RegularExpression UInt8 := (bytes.map char).sum

def literally (bytes : Bytes) : RegularExpression UInt8 := (bytes.map char).prod

theorem mem_char {b : UInt8} {w : Bytes} : w ∈ (char b).matches' ↔ w = [b] := Iff.rfl

theorem mem_oneOf {bytes w : Bytes} : w ∈ (oneOf bytes).matches' ↔ ∃ b ∈ bytes, w = [b] := by
  unfold oneOf
  induction bytes with
  | nil => simp [matches'_zero]
  | cons b bytes ih =>
    rw [List.map_cons, List.sum_cons, matches'_add, Language.mem_add, mem_char, ih]
    simp

theorem mem_literally {bytes w : Bytes} : w ∈ (literally bytes).matches' ↔ w = bytes := by
  unfold literally
  induction bytes generalizing w with
  | nil => simp [matches'_epsilon]
  | cons b bytes ih =>
    simp only [List.map_cons, List.prod_cons, matches'_mul, Language.mem_mul, mem_char, ih]
    simp [eq_comm]

theorem mem_star_oneOf {bytes w : Bytes} :
    w ∈ (oneOf bytes).star.matches' ↔ ∀ b ∈ w, b ∈ bytes := by
  rw [matches'_star, Language.mem_kstar]
  constructor
  · rintro ⟨words, rfl, all⟩ b member
    obtain ⟨word, inside, member⟩ := List.mem_flatten.mp member
    obtain ⟨c, listed, rfl⟩ := mem_oneOf.mp (all word inside)
    rwa [List.mem_singleton.mp member]
  · intro all
    refine ⟨w.map fun b => [b], by rw [← List.flatMap_def, List.flatMap_singleton'],
      fun word member => ?_⟩
    obtain ⟨b, inside, rfl⟩ := List.mem_map.mp member
    exact mem_oneOf.mpr ⟨b, all b inside, rfl⟩

/-! ### Forms -/

/-- A form of number literals: its base, the digits that may come first and those that may follow,
and what is written after them. -/
structure NumberForm where
  base : Nat
  first : Bytes
  more : Bytes
  suffix : Bytes
  deriving DecidableEq

/-- The forms, in capitals: `[0-9][0-9A-F]*H`, `[01]+B`, `[0-7]+O`, `[0-7]+Q`, `[0-9]+D` and
`[0-9]+`. -/
def numberForms : List NumberForm :=
  [⟨16, ascii "0123456789", ascii "0123456789ABCDEF", ascii "H"⟩,
    ⟨2, ascii "01", ascii "01", ascii "B"⟩,
    ⟨8, ascii "01234567", ascii "01234567", ascii "O"⟩,
    ⟨8, ascii "01234567", ascii "01234567", ascii "Q"⟩,
    ⟨10, ascii "0123456789", ascii "0123456789", ascii "D"⟩,
    ⟨10, ascii "0123456789", ascii "0123456789", []⟩]

namespace NumberForm

def pattern (f : NumberForm) : RegularExpression UInt8 :=
  oneOf f.first * (oneOf f.more).star * literally f.suffix

/-- The word matches the form, whatever the case of its letters. -/
def Matches (f : NumberForm) (w : Bytes) : Prop := w.map Byte.toUpper ∈ f.pattern.matches'

def digits (f : NumberForm) (w : Bytes) : Bytes := w.take (w.length - f.suffix.length)

/-- The number that the digits of a word stand for in the base of the form, however large. -/
def number (f : NumberForm) (w : Bytes) : Nat :=
  Nat.ofDigits f.base ((f.digits w).reverse.map Byte.digitValue)

/-- A word matches a form if it is a first digit, more digits and the suffix. -/
theorem matches_iff {f : NumberForm} {w : Bytes} :
    f.Matches w ↔ ∃ d ds suffix, w = d :: ds ++ suffix ∧ Byte.toUpper d ∈ f.first ∧
      (∀ x ∈ ds, Byte.toUpper x ∈ f.more) ∧ suffix.map Byte.toUpper = f.suffix := by
  unfold Matches pattern
  simp only [matches'_mul, Language.mem_mul, mem_oneOf, mem_star_oneOf, mem_literally]
  constructor
  · rintro ⟨_, ⟨_, ⟨b, first, rfl⟩, more, digits, rfl⟩, _, rfl, whole⟩
    obtain ⟨front, suffix, rfl, upper, ending⟩ := List.map_eq_append_iff.mp whole.symm
    obtain ⟨d, ds, rfl, rfl, rfl⟩ := List.map_eq_cons_iff.mp upper
    exact ⟨d, ds, suffix, rfl, first, fun x member => digits _ (List.mem_map_of_mem member), ending⟩
  · rintro ⟨d, ds, suffix, rfl, first, digits, ending⟩
    refine ⟨_, ⟨_, ⟨_, first, rfl⟩, ds.map Byte.toUpper, ?_, rfl⟩, _, rfl, ?_⟩
    · simpa using digits
    · simp [← ending]

theorem digits_append_suffix {f : NumberForm} {suffix : Bytes}
    (same : suffix.map Byte.toUpper = f.suffix) (ds : Bytes) : f.digits (ds ++ suffix) = ds := by
  rw [digits, ← same, List.length_map, List.length_append, Nat.add_sub_cancel, List.take_left]

/-! What the forms allow, byte by byte. -/

theorem mem_iff_of_range {s : Bytes} (low count : Nat)
    (range : s.map UInt8.toNat = List.range' low count) (b : UInt8) :
    b ∈ s ↔ low ≤ b.toNat ∧ b.toNat < low + count := by
  rw [← List.mem_range'_1, ← range, List.mem_map_of_injective fun _ _ => UInt8.toNat_inj.mp]

theorem toNat_toUpper (b : UInt8) : (Byte.toUpper b).toNat =
    if 0x61 ≤ b.toNat ∧ b.toNat ≤ 0x7A then b.toNat - 0x20 else b.toNat := by
  have lower : Byte.isLower b = true ↔ 0x61 ≤ b.toNat ∧ b.toNat ≤ 0x7A := by
    simp [Byte.isLower, UInt8.le_iff_toNat_le]
  unfold Byte.toUpper
  rw [if_congr lower rfl rfl]
  split
  next small =>
    have above : (0x20 : UInt8) ≤ b := UInt8.le_iff_toNat_le.mpr (Nat.le_trans (by decide) small.1)
    rw [UInt8.toNat_sub_of_le _ _ above]
    rfl
  next => rfl

theorem eq_of_toUpper {b c : UInt8} (capital : Byte.isUpper c = true) (same : Byte.toUpper b = c) :
    b = c ∨ b = c + 0x20 := by
  have upper := toNat_toUpper b
  rw [Byte.isUpper_iff] at capital
  rw [same] at upper
  simp only [← UInt8.toNat_inj, UInt8.toNat_add, UInt8.reduceToNat]
  split at upper <;> omega

theorem digits_iff (b : UInt8) :
    (Byte.toUpper b ∈ ascii "01" ↔ NumberLiteral.isDigitOf 2 b = true) ∧
    (Byte.toUpper b ∈ ascii "01234567" ↔ NumberLiteral.isDigitOf 8 b = true) ∧
    (Byte.toUpper b ∈ ascii "0123456789" ↔ NumberLiteral.isDigitOf 10 b = true) ∧
    (Byte.toUpper b ∈ ascii "0123456789ABCDEF" ↔ NumberLiteral.isDigitOf 16 b = true) := by
  have upper := toNat_toUpper b
  have letters : ascii "0123456789ABCDEF" = ascii "0123456789" ++ ascii "ABCDEF" := rfl
  rw [letters, List.mem_append, mem_iff_of_range 0x30 2 rfl, mem_iff_of_range 0x30 8 rfl,
    mem_iff_of_range 0x30 10 rfl, mem_iff_of_range 0x41 6 rfl]
  have digits {base : Nat} (listed : base ∈ NumberLiteral.bases) :=
    NumberLiteral.isDigitOf_iff_toNat listed (b := b)
  rw [digits (by decide), digits (by decide), digits (by decide), digits (by decide),
    Byte.isHexDigit_iff]
  split at upper <;> omega

section Bytes

variable {f : NumberForm} (listed : f ∈ numberForms) (b : UInt8)

include listed

theorem base_mem : f.base ∈ NumberLiteral.bases := by
  simp only [numberForms, List.mem_cons, List.not_mem_nil, or_false] at listed
  rcases listed with rfl | rfl | rfl | rfl | rfl | rfl <;> decide

theorem mem_more_iff : Byte.toUpper b ∈ f.more ↔ NumberLiteral.isDigitOf f.base b = true := by
  obtain ⟨two, eight, ten, sixteen⟩ := digits_iff b
  simp only [numberForms, List.mem_cons, List.not_mem_nil, or_false] at listed
  rcases listed with rfl | rfl | rfl | rfl | rfl | rfl
  · exact sixteen
  · exact two
  · exact eight
  · exact eight
  · exact ten
  · exact ten

/-- The first digit of a word is decimal. -/
theorem mem_first_iff : Byte.toUpper b ∈ f.first ↔
    Byte.isDigit b = true ∧ NumberLiteral.isDigitOf f.base b = true := by
  have digits := NumberLiteral.isDigitOf_iff_toNat (base_mem listed) (b := b)
  obtain ⟨two, eight, ten, -⟩ := digits_iff b
  have decimal : NumberLiteral.isDigitOf f.base b = true → f.base ≠ 16 → Byte.isDigit b = true := by
    rw [digits, Byte.isDigit_iff]
    rintro (⟨low, high, -⟩ | ⟨base, -⟩) other
    · exact ⟨low, high⟩
    · exact absurd base other
  simp only [numberForms, List.mem_cons, List.not_mem_nil, or_false] at listed
  rcases listed with rfl | rfl | rfl | rfl | rfl | rfl
  · refine ten.trans ⟨fun digit => ⟨digit, ?_⟩, And.left⟩
    rw [NumberLiteral.isDigitOf, Byte.isDigit_iff] at digit
    exact digits.mpr (.inl ⟨digit.1, digit.2, Nat.lt_of_le_of_lt digit.2 (by decide)⟩)
  · exact two.trans ⟨fun digit => ⟨decimal digit (by decide), digit⟩, And.right⟩
  · exact eight.trans ⟨fun digit => ⟨decimal digit (by decide), digit⟩, And.right⟩
  · exact eight.trans ⟨fun digit => ⟨decimal digit (by decide), digit⟩, And.right⟩
  · exact ten.trans ⟨fun digit => ⟨digit, digit⟩, And.right⟩
  · exact ten.trans ⟨fun digit => ⟨digit, digit⟩, And.right⟩

theorem digitValue_lt (digit : NumberLiteral.isDigitOf f.base b = true) :
    Byte.isHexDigit b = true ∧ Byte.digitValue b < f.base :=
  (NumberLiteral.isDigitOf_iff (base_mem listed)).mp digit

theorem mem_suffix (letter : Byte.toUpper b ∈ f.suffix) :
    f.suffix.length = 1 ∧ (f.base, [b]) ∈ numeralSuffixes := by
  have only {c : UInt8} (capital : Byte.isUpper c = true) (suffix : f.suffix = [c]) :
      b = c ∨ b = c + 0x20 := by
    rw [suffix] at letter
    exact eq_of_toUpper capital (List.mem_singleton.mp letter)
  simp only [numberForms, List.mem_cons, List.not_mem_nil, or_false] at listed
  rcases listed with rfl | rfl | rfl | rfl | rfl | rfl
  · rcases only (c := 0x48) rfl rfl with rfl | rfl <;> exact ⟨rfl, by decide⟩
  · rcases only (c := 0x42) rfl rfl with rfl | rfl <;> exact ⟨rfl, by decide⟩
  · rcases only (c := 0x4F) rfl rfl with rfl | rfl <;> exact ⟨rfl, by decide⟩
  · rcases only (c := 0x51) rfl rfl with rfl | rfl <;> exact ⟨rfl, by decide⟩
  · rcases only (c := 0x44) rfl rfl with rfl | rfl <;> exact ⟨rfl, by decide⟩
  · contradiction

end Bytes

/-- A letter that names a base ends the words of a form. -/
theorem exists_of_suffixBase? (b : UInt8) (base : Nat) (letter : base ∈ NumberLiteral.suffixBase? b) :
    ∃ f ∈ numberForms, f.base = base ∧ f.suffix = [Byte.toUpper b] := by
  unfold NumberLiteral.suffixBase? at letter
  split at letter <;> cases letter <;> decide

/-- The suffix of a form in any case is that of a base. -/
theorem suffix_listed {f : NumberForm} (listed : f ∈ numberForms) {suffix : Bytes}
    (same : suffix.map Byte.toUpper = f.suffix) : (f.base, suffix) ∈ numeralSuffixes := by
  have plain : ∀ f ∈ numberForms, f.suffix = [] → (f.base, []) ∈ numeralSuffixes := by decide
  cases suffix with
  | nil => exact plain f listed same.symm
  | cons b rest =>
    obtain ⟨single, named⟩ := mem_suffix listed b (by simp [← same])
    obtain rfl : rest = [] := by simpa [← same] using single
    exact named

/-- Digits of the base of a form, of which the first is decimal, match it together with its
suffix. -/
theorem matches_of_digits {f : NumberForm} (listed : f ∈ numberForms) {ds suffix : Bytes}
    (start : ds.head?.any Byte.isDigit = true)
    (all : ∀ x ∈ ds, NumberLiteral.isDigitOf f.base x = true)
    (same : suffix.map Byte.toUpper = f.suffix) : f.Matches (ds ++ suffix) := by
  cases ds with
  | nil => contradiction
  | cons d ds =>
    refine matches_iff.mpr ⟨d, ds, suffix, rfl, ?_, fun x member => ?_, same⟩
    · exact (mem_first_iff listed d).mpr ⟨by simpa using start, all d List.mem_cons_self⟩
    · exact (mem_more_iff listed x).mpr (all x (List.mem_cons_of_mem d member))

/-- The bytes, in capitals, that a word of the form may end in. -/
def lastBytes (f : NumberForm) : Bytes := if f.suffix = [] then f.more else f.suffix

theorem Matches.getLast {f : NumberForm} {w : Bytes} (form : f.Matches w)
    (listed : f ∈ numberForms) : ∃ b ∈ w.getLast?, Byte.toUpper b ∈ f.lastBytes := by
  obtain ⟨d, ds, suffix, rfl, first, more, ending⟩ := matches_iff.mp form
  cases suffix using List.reverseRecOn with
  | nil =>
    have all : ∀ x ∈ d :: ds, Byte.toUpper x ∈ f.more := by
      rw [mem_first_iff listed, ← mem_more_iff listed] at first
      simpa using ⟨first.2, more⟩
    have plain : f.suffix = [] := by simpa using ending.symm
    refine ⟨(d :: ds).getLast (by simp), by simp [List.getLast?_eq_some_getLast], ?_⟩
    rw [lastBytes, if_pos plain]
    exact all _ (List.getLast_mem _)
  | append_singleton before b =>
    refine ⟨b, by rw [← List.append_assoc, List.getLast?_concat]; rfl, ?_⟩
    rw [lastBytes, if_neg (by simp [← ending]), ← ending]
    simp

/-- No word matches two forms: the last byte tells them apart. -/
theorem Matches.unique {f g : NumberForm} {w : Bytes} (left : f.Matches w) (right : g.Matches w)
    (listed : f ∈ numberForms) (listed' : g ∈ numberForms) : f = g := by
  have apart : numberForms.all (fun f => numberForms.all fun g => f.lastBytes.all fun b =>
      decide (b ∈ g.lastBytes → f = g)) = true := by
    decide +kernel
  obtain ⟨b, last, ends⟩ := left.getLast listed
  obtain ⟨c, last', ends'⟩ := right.getLast listed'
  obtain rfl : b = c := Option.some.inj (last.symm.trans last')
  have checked := List.all_eq_true.mp (List.all_eq_true.mp apart f listed) g listed'
  exact of_decide_eq_true (List.all_eq_true.mp checked _ ends) ends'

end NumberForm

namespace NumberLiteral

open NumberForm

/-- A word that matches a form is read with the digits and the base of the form. -/
theorem ofWord?_of_matches {f : NumberForm} {w : Bytes} (listed : f ∈ numberForms)
    (form : f.Matches w) : ofWord? w = some ⟨w, wordOf? f.base (f.digits w)⟩ := by
  obtain ⟨d, ds, suffix, rfl, first, more, ending⟩ := matches_iff.mp form
  have own : f.digits (d :: ds ++ suffix) = d :: ds := digits_append_suffix ending (d :: ds)
  have all : ∀ x ∈ d :: ds, isDigitOf f.base x = true := by
    intro x member
    rcases List.mem_cons.mp member with rfl | later
    · exact ((mem_first_iff listed x).mp first).2
    · exact (mem_more_iff listed x).mp (more x later)
  unfold ofWord?
  rw [digits_append (suffix_listed listed ending) fun x member => digitValue_lt listed x
    (all x member), own]
  simp only [List.isEmpty_cons, List.all_eq_true.mpr all]
  rfl

/-- A word that starts with a decimal digit and is read as a number matches a form. -/
theorem matches_of_ofWord? {w : Bytes} {n : NumberLiteral}
    (start : w.head?.any Byte.isDigit = true) (found : ofWord? w = some n) :
    ∃ f ∈ numberForms, f.Matches w := by
  unfold ofWord? digits at found
  split at found
  next ds base same =>
  split at found
  next => contradiction
  next valid =>
  simp only [Bool.or_eq_true, Bool.not_eq_true', not_or, Bool.not_eq_false, List.all_eq_true,
    List.isEmpty_iff] at valid
  obtain ⟨nonempty, all⟩ := valid
  split at same
  next base' named =>
    obtain ⟨rfl, rfl⟩ := Prod.mk.inj same
    obtain ⟨c, last, letter⟩ := Option.bind_eq_some_iff.mp named
    obtain ⟨front, rfl⟩ := List.getLast?_eq_some_iff.mp last
    obtain ⟨f, listed, rfl, suffix⟩ := exists_of_suffixBase? c base' letter
    rw [List.dropLast_concat] at nonempty all
    rw [List.head?_append_of_ne_nil _ nonempty] at start
    exact ⟨f, listed, matches_of_digits listed start all (by simp [suffix])⟩
  next =>
    obtain ⟨rfl, rfl⟩ := Prod.mk.inj same
    have plain : ∃ f ∈ numberForms, f.base = 10 ∧ f.suffix = [] := by decide
    obtain ⟨f, listed, base, suffix⟩ := plain
    rw [← base] at all
    rw [← List.append_nil w]
    exact ⟨f, listed, matches_of_digits listed start all suffix.symm⟩

theorem head_word (s : Bytes) :
    (s.takeWhile Byte.isNameChar).head?.any Byte.isDigit = s.head?.any Byte.isDigit := by
  cases s with
  | nil => rfl
  | cons b rest =>
    by_cases named : Byte.isNameChar b = true
    · simp [named]
    · have other : Byte.isDigit b = false := by
        simp only [Byte.isNameChar, Bool.or_eq_true, not_or] at named
        simpa using named.1.2
      simp [named, other]

theorem first?_eq (s : Bytes) :
    first? s = if (s.takeWhile Byte.isNameChar).head?.any Byte.isDigit then
      ofWord? (s.takeWhile Byte.isNameChar) else none := by
  rw [head_word, first?, Lexeme.take_wordRun]

theorem first?_of_matches {f : NumberForm} {s : Bytes} (listed : f ∈ numberForms)
    (form : f.Matches (s.takeWhile Byte.isNameChar)) :
    first? s = some ⟨s.takeWhile Byte.isNameChar,
      wordOf? f.base (f.digits (s.takeWhile Byte.isNameChar))⟩ := by
  have start : (s.takeWhile Byte.isNameChar).head?.any Byte.isDigit = true := by
    obtain ⟨d, ds, suffix, whole, first, -⟩ := matches_iff.mp form
    rw [whole]
    exact ((mem_first_iff listed d).mp first).1
  rw [first?_eq, if_pos start, ofWord?_of_matches listed form]

/-- A number is recognised exactly if the word matches a form. -/
theorem isSome_first?_iff (s : Bytes) :
    (first? s).isSome = true ↔ ∃ f ∈ numberForms, f.Matches (s.takeWhile Byte.isNameChar) := by
  constructor
  · intro found
    rw [first?_eq] at found
    split at found
    next start =>
      obtain ⟨n, same⟩ := Option.isSome_iff_exists.mp found
      exact matches_of_ofWord? start same
    next => contradiction
  · rintro ⟨f, listed, form⟩
    rw [first?_of_matches listed form]
    rfl

end NumberLiteral

/-- The value of a number that matches a form, and its fault. -/
theorem NumberForm.eval_number {f : NumberForm} (listed : f ∈ numberForms) (w : Bytes)
    (env : Environment) :
    (Expr.number ⟨w, NumberLiteral.wordOf? f.base (f.digits w)⟩).eval env =
      if f.number w ≤ 65535 then ⟨some (UInt16.ofNat (f.number w)), none⟩
      else ⟨some 0, some (.outOfRange w)⟩ := by
  have positive : ∀ f ∈ numberForms, 0 < f.base := by decide
  have value : NumberLiteral.positional f.base (f.digits w) = f.number w :=
    NumberLiteral.positional_eq_ofDigits ..
  rw [NumberLiteral.wordOf?_eq (positive f listed), value, Expr.eval, Expr.evalNumber]
  by_cases fits : f.number w ≤ 65535
  · simp [fits, Nat.lt_succ_of_le fits]
  · simp [fits, show ¬ f.number w < 65536 by omega]

/-- The word at a place is the longest run of letters, digits and underscores. A number is recognised
there exactly if the word matches a form, of which there is at most one; it takes the whole word, and
its value is the number that the digits stand for if that is at most 65535. A larger one is zero, and
a fault. Where no number is recognised, the place stays the same. -/
theorem numbers_exact (c : Cursor) :
    let w := c.rest.takeWhile Byte.isNameChar
    let after := ((Term.number? c).map Prod.snd).getD c
    ((Term.number? c).isSome = true ↔ ∃ f ∈ numberForms, f.Matches w) ∧
      (∀ v : Bytes, ∀ f ∈ numberForms, ∀ g ∈ numberForms, f.Matches v → g.Matches v → f = g) ∧
      (∀ f ∈ numberForms, f.Matches w →
        after = ⟨c.offset + w.length, c.rest.drop w.length⟩ ∧
        ∃ e : Expr, Term.number? c = some (e, after) ∧ ∀ env : Environment,
          let operand := Term.operand env c.column e
          operand.text = w ∧
          (operand.value = some (UInt16.ofNat (f.number w)) ∧ operand.fault = none ↔
            f.number w ≤ 65535) ∧
          (65535 < f.number w → operand.value = some 0 ∧ operand.fault = some (.outOfRange w))) ∧
      ((∀ f ∈ numberForms, ¬ f.Matches w) → after = c) := by
  intro w after
  have recognised := NumberLiteral.isSome_first?_iff c.rest
  have place : c.advance w.length = ⟨c.offset + w.length, c.rest.drop w.length⟩ := by
    have word : c.rest.take w.length = w := Lexeme.take_wordRun c.rest
    rw [Cursor.advance, word]
  refine ⟨by simpa [Term.number?] using recognised, fun v f listed g listed' left right =>
    left.unique right listed listed', fun f listed form => ?_, fun unmatched => ?_⟩
  · have number : Term.number? c = some (.number ⟨w, NumberLiteral.wordOf? f.base (f.digits w)⟩,
        c.advance w.length) := by
      rw [Term.number?, NumberLiteral.first?_of_matches listed form]
      rfl
    have same : after = c.advance w.length := by simp [after, number]
    refine ⟨same.trans place, _, number.trans (by rw [same]), fun env => ?_⟩
    have value := NumberForm.eval_number listed w env
    by_cases fits : f.number w ≤ 65535
    · rw [if_pos fits] at value
      simp [Term.operand, Expr.evaluated, value, fits, Expr.text, Expr.textOnto]
    · rw [if_neg fits] at value
      simp [Term.operand, Expr.evaluated, value, fits, Expr.text, Expr.textOnto]
  · have numberless : NumberLiteral.first? c.rest = none := by
      cases found : NumberLiteral.first? c.rest with
      | none => rfl
      | some n =>
        obtain ⟨f, listed, form⟩ := recognised.mp (by rw [found]; rfl)
        exact absurd form (unmatched f listed)
    simp [after, Term.number?, numberless]

end Assembler8080
