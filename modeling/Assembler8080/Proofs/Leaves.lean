import Assembler8080.Proofs.Denotation
import Assembler8080.Proofs.Spelling

/-! The leaves of an expression: numerals in four bases, characters, the current address and
labels. Every spelling of a leaf is read whole, and means the leaf: `LeafText.read`. -/
namespace Assembler8080

/-! ### Numerals -/

/-- The bases of numerals and what is written after the digits. -/
def numeralSuffixes : List (Nat × Bytes) :=
  [(10, []), (10, ascii "D"), (10, ascii "d"), (16, ascii "H"), (16, ascii "h"), (2, ascii "B"),
    (2, ascii "b"), (8, ascii "O"), (8, ascii "o"), (8, ascii "Q"), (8, ascii "q")]

/-- The spellings of a word as a number: digits of a base, of which the first is decimal, and the
letter of the base. -/
inductive Numeral : UInt16 → Bytes → Prop where
  | intro {w : UInt16} {base : Nat} {ds suffix : Bytes} (ending : (base, suffix) ∈ numeralSuffixes)
      (digits : ∀ d ∈ ds, Byte.isHexDigit d = true ∧ Byte.digitValue d < base)
      (first : ds.head?.any Byte.isDigit = true)
      (value : Nat.ofDigits base (ds.reverse.map Byte.digitValue) = w.toNat) :
      Numeral w (ds ++ suffix)

namespace Byte

variable {b : UInt8}

theorem isHexDigit_iff : isHexDigit b = true ↔ (0x30 ≤ b.toNat ∧ b.toNat ≤ 0x39) ∨
    (0x41 ≤ b.toNat ∧ b.toNat ≤ 0x46) ∨ (0x61 ≤ b.toNat ∧ b.toNat ≤ 0x66) := by
  simp [isHexDigit, isDigit, UInt8.le_iff_toNat_le, or_assoc]

/-- A digit has its value from the range that it is in. -/
theorem digitValue_cases (hex : isHexDigit b = true) :
    (0x30 ≤ b.toNat ∧ b.toNat ≤ 0x39 ∧ digitValue b = b.toNat - 0x30) ∨
      (0x41 ≤ b.toNat ∧ b.toNat ≤ 0x46 ∧ digitValue b = b.toNat - 0x37) ∨
      (0x61 ≤ b.toNat ∧ b.toNat ≤ 0x66 ∧ digitValue b = b.toNat - 0x57) := by
  rw [isHexDigit_iff] at hex
  simp only [digitValue, isDigit, Bool.and_eq_true, decide_eq_true_eq, UInt8.le_iff_toNat_le,
    UInt8.reduceToNat]
  split
  · omega
  · split
    · omega
    · split <;> omega

end Byte

namespace NumberLiteral

theorem positional_eq_ofDigits (base : Nat) (ds : Bytes) :
    positional base ds = Nat.ofDigits base (ds.reverse.map Byte.digitValue) := by
  rw [Nat.ofDigits_eq_foldr, List.foldr_map, List.foldr_reverse]
  unfold positional
  congr 1
  funext n b
  simp only [Nat.cast_id]
  ring

def bases : List Nat := [2, 8, 10, 16]

theorem isDigitOf_iff_toNat {base : Nat} (listed : base ∈ bases) {b : UInt8} :
    isDigitOf base b = true ↔ (0x30 ≤ b.toNat ∧ b.toNat ≤ 0x39 ∧ b.toNat < 0x30 + base) ∨
      (base = 16 ∧ Byte.isHexDigit b = true) := by
  simp only [bases, List.mem_cons, List.not_mem_nil, or_false] at listed
  rcases listed with rfl | rfl | rfl | rfl <;>
    simp only [isDigitOf, Byte.isDigit_iff, Byte.isHexDigit_iff, Bool.or_eq_true, Bool.and_eq_true,
      decide_eq_true_eq, beq_iff_eq, ← UInt8.toNat_inj, UInt8.le_iff_toNat_le, UInt8.reduceToNat,
      Nat.reduceEqDiff, true_and, false_and, or_false] <;>
    omega

/-- The digits of a base are those with a value below it. -/
theorem isDigitOf_iff {base : Nat} (listed : base ∈ bases) {b : UInt8} :
    isDigitOf base b = true ↔ Byte.isHexDigit b = true ∧ Byte.digitValue b < base := by
  rw [isDigitOf_iff_toNat listed]
  simp only [bases, List.mem_cons, List.not_mem_nil, or_false] at listed
  constructor
  · intro digit
    have hex : Byte.isHexDigit b = true := by
      rcases digit with decimal | ⟨-, hex⟩
      · rw [Byte.isHexDigit_iff]
        omega
      · exact hex
    have value := Byte.digitValue_cases hex
    exact ⟨hex, by omega⟩
  · rintro ⟨hex, small⟩
    have value := Byte.digitValue_cases hex
    by_cases sixteen : base = 16
    · exact .inr ⟨sixteen, hex⟩
    · omega

theorem base_of_mem : ∀ entry ∈ numeralSuffixes, entry.1 ∈ bases := by decide

theorem suffixBase?_digit (b : UInt8) (hex : Byte.isHexDigit b = true)
    (small : Byte.digitValue b < 10) : suffixBase? b = none := by
  have digit := Byte.digitValue_cases hex
  have low : b.toNat ≤ 0x39 := by omega
  unfold suffixBase?
  split <;> first | rfl | simp at low

theorem suffixBase?_letter (entry : Nat × Bytes) (listed : entry ∈ numeralSuffixes) (c : UInt8)
    (member : c ∈ entry.2) : entry.2 = [c] ∧ suffixBase? c = some entry.1 := by
  have checked : numeralSuffixes.all (fun entry => entry.2.all fun c =>
      entry.2 == [c] && suffixBase? c == some entry.1) = true := by decide
  simpa using List.all_eq_true.mp (List.all_eq_true.mp checked entry listed) c member

theorem nil_suffix : ∀ entry ∈ numeralSuffixes, entry.2 = [] → entry.1 = 10 := by
  decide

theorem digits_append {base : Nat} {ds suffix : Bytes} (ending : (base, suffix) ∈ numeralSuffixes)
    (valid : ∀ d ∈ ds, Byte.isHexDigit d = true ∧ Byte.digitValue d < base) :
    digits (ds ++ suffix) = (ds, base) := by
  unfold digits
  cases suffix with
  | nil =>
    obtain rfl : base = 10 := nil_suffix _ ending rfl
    rw [List.append_nil]
    cases last : ds.getLast? with
    | none => rfl
    | some d =>
      obtain ⟨hex, small⟩ := valid d (List.mem_of_getLast? last)
      rw [Option.bind_some, suffixBase?_digit d hex small]
  | cons c rest =>
    obtain ⟨single, named⟩ := suffixBase?_letter _ ending c List.mem_cons_self
    obtain rfl : rest = [] := (List.cons.inj single).2
    rw [List.getLast?_concat, Option.bind_some, named, List.dropLast_concat]

theorem ofWord?_numeral {w : UInt16} {s : Bytes} (numeral : Numeral w s) :
    ofWord? s = some ⟨s, some w⟩ := by
  obtain ⟨ending, valid, first, value⟩ := numeral
  rename_i base ds suffix
  have positive : ∀ entry ∈ numeralSuffixes, 0 < entry.1 := by decide
  have number : positional base ds = w.toNat := (positional_eq_ofDigits base ds).trans value
  have some_digits : ds.isEmpty = false := by
    cases ds with
    | nil => contradiction
    | cons d rest => rfl
  have all : ds.all (isDigitOf base) = true := by
    refine List.all_eq_true.mpr fun d member => ?_
    exact (isDigitOf_iff (base_of_mem _ ending)).mpr (valid d member)
  unfold ofWord?
  rw [digits_append ending valid]
  dsimp only
  rw [some_digits, all, wordOf?_eq (positive _ ending), number, if_pos w.toNat_lt, UInt16.ofNat_toNat]
  rfl

end NumberLiteral

theorem hexDigit_apart (b : UInt8) (hex : Byte.isHexDigit b = true) : Byte.isNameChar b = true := by
  have digit := Byte.digitValue_cases hex
  simp only [Byte.isNameChar, Bool.or_eq_true, Byte.isLetter_iff, Byte.isDigit_iff]
  omega

theorem digit_apart (b : UInt8) (digit : Byte.isDigit b = true) : Byte.isBlank b = false := by
  rw [Byte.isDigit_iff] at digit
  rw [← Bool.not_eq_true, Byte.isBlank_iff]
  omega

namespace Numeral

variable {w : UInt16} {s : Bytes} (numeral : Numeral w s)

include numeral

theorem nameChars : ∀ b ∈ s, Byte.isNameChar b = true := by
  obtain ⟨ending, valid, -, -⟩ := numeral
  have letters : numeralSuffixes.all (fun entry => entry.2.all Byte.isNameChar) = true := by decide
  intro b member
  rcases List.mem_append.mp member with digit | letter
  · exact hexDigit_apart b (valid b digit).1
  · exact List.all_eq_true.mp (List.all_eq_true.mp letters _ ending) b letter

theorem head (tail : Bytes) : ∃ b rest, s ++ tail = b :: rest ∧ Byte.isDigit b = true := by
  obtain ⟨ending, -, first, -⟩ := numeral
  rename_i base ds suffix
  cases ds with
  | nil => contradiction
  | cons d rest => exact ⟨d, rest ++ suffix ++ tail, by simp, first⟩

theorem found {tail : Bytes} (ends : Lexeme.continuesName tail = false) :
    NumberLiteral.first? (s ++ tail) = some ⟨s, some w⟩ := by
  obtain ⟨b, rest, start, digit⟩ := numeral.head tail
  have digits : (s ++ tail).head?.any Byte.isDigit = true := by
    rw [start]
    exact digit
  unfold NumberLiteral.first?
  rw [if_pos digits, Lexeme.wordRun_append numeral.nameChars ends, List.take_left]
  exact NumberLiteral.ofWord?_numeral numeral

end Numeral

/-! ### Leaves -/

/-- The spellings of a leaf, below a parent for labels that name none. -/
inductive LeafText (parent : Bytes) : Leaf → Bytes → Prop where
  | number {w : UInt16} {s : Bytes} (numeral : Numeral w s) : LeafText parent (.number w) s
  | character {b : UInt8} (unquoted : b ≠ Byte.singleQuote) (unescaped : b ≠ Byte.backslash) :
      LeafText parent (.character b) [Byte.singleQuote, b, Byte.singleQuote]
  | escaped (b : UInt8) :
      LeafText parent (.character b) [Byte.singleQuote, Byte.backslash, b, Byte.singleQuote]
  | here : LeafText parent .here [Byte.dollar]
  | label {l : Label} {s : Bytes} (text : LabelText parent l s) : LeafText parent (.label l) s

/-- A text that starts with another byte than a decimal digit has no number at its start. -/
theorem Term.number?_eq_none {b : UInt8} (other : Byte.isDigit b = false) (offset : Nat)
    (rest : Bytes) : Term.number? ⟨offset, b :: rest⟩ = none := by
  unfold number? NumberLiteral.first?
  simp [other]

theorem Term.label?_eq_none (scope : Scope) (line : Int) (offset : Nat) {b : UInt8} (rest : Bytes)
    (blank : Byte.isBlank b = false) (letter : Byte.isLetter b = false) (dot : b ≠ Byte.dot)
    (undollared : Spelled.dollarName? (b :: rest) = none) :
    Term.label? scope line ⟨offset, b :: rest⟩ = none := by
  have unspelled : (referenceForms scope.parent).findSome? (· (b :: rest)) = none := by
    refine referenceForms_eq_none scope.parent (fun c first => ?_) undollared
    obtain rfl : b = c := Option.some.inj first
    exact ⟨letter, dot⟩
  unfold label? Scope.reference?
  dsimp only
  rw [Cursor.skipBlanks_of_starts offset (starts_cons blank rest)]
  dsimp only
  rw [unspelled]
  rfl

theorem Term.label?_eq (scope : Scope) (line : Int) {l : Label} {s tail : Bytes} (offset : Nat)
    (text : LabelText scope.parent l s) (stops : Stops tail) :
    Term.label? scope line ⟨offset, s ++ tail⟩ =
      some (.label ⟨l, if l.kind = .global then [] else scope.file, line, s⟩,
        ⟨offset + s.length, tail⟩) := by
  rw [label?, text.reference? stops]
  rfl

theorem Lexeme.quotationFrom_mark {mark : UInt8} (apart : Byte.backslash ≠ mark)
    (length characters : Nat) (tail : Bytes) :
    quotationFrom mark length characters (mark :: tail) = some ⟨length + 1, characters⟩ := by
  rw [quotationFrom.eq_def]
  simp [apart.symm]

theorem Term.character?_eq {source : Bytes} {b : UInt8}
    (quoted : ∀ tail, Lexeme.quotation? Byte.singleQuote (source ++ tail) = some ⟨source.length, 1⟩)
    (inner : Lexeme.unescape (source.drop 1).dropLast = [b]) (offset : Nat) (tail : Bytes) :
    Term.character? ⟨offset, source ++ tail⟩ =
      some (.character source b, ⟨offset + source.length, tail⟩) := by
  unfold character?
  simp only [quoted tail, List.take_left, inner, Cursor.advance_append, List.headD_cons]

/-- A byte that starts no number, no label and no character literal starts no leaf. -/
theorem Term.leaf?_eq_none_of_apart (scope : Scope) (line : Int) (offset : Nat) {b : UInt8}
    (rest : Bytes) (blank : Byte.isBlank b = false) (digit : Byte.isDigit b = false)
    (letter : Byte.isLetter b = false) (dot : b ≠ Byte.dot) (dollar : b ≠ Byte.dollar)
    (character : character? ⟨offset, b :: rest⟩ = none) :
    leaf? scope line ⟨offset, b :: rest⟩ = none := by
  have undollared : Spelled.dollarName? (b :: rest) = none := by
    refine Spelled.dollarName?_eq_none fun c first => ?_
    obtain rfl : b = c := Option.some.inj first
    exact dollar
  have here : here? ⟨offset, b :: rest⟩ = none := by
    simp [here?, Cursor.next?, dollar]
  simp [leaf?, number?_eq_none digit, character, here,
    label?_eq_none scope line offset rest blank letter dot undollared]

/-- A character literal is no number and no label, and is read as its byte. -/
theorem Term.leaf?_character (scope : Scope) (line : Int) {rest : Bytes} {b : UInt8}
    (quoted : ∀ tail, Lexeme.quotation? Byte.singleQuote (Byte.singleQuote :: rest ++ tail) =
      some ⟨rest.length + 1, 1⟩)
    (inner : Lexeme.unescape rest.dropLast = [b]) (offset : Nat) (tail : Bytes) :
    Term.leaf? scope line ⟨offset, Byte.singleQuote :: rest ++ tail⟩ =
      some (.character (Byte.singleQuote :: rest) b, ⟨offset + (rest.length + 1), tail⟩) := by
  have number := number?_eq_none (b := Byte.singleQuote) rfl offset (rest ++ tail)
  have label := label?_eq_none scope line offset (b := Byte.singleQuote) (rest ++ tail) rfl rfl
    (by decide) rfl
  unfold leaf?
  rw [List.cons_append, number, label, ← List.cons_append, character?_eq quoted inner]
  rfl

theorem Term.leaf?_here (scope : Scope) (line : Int) (offset : Nat) {tail : Bytes}
    (stops : Stops tail) :
    Term.leaf? scope line ⟨offset, Byte.dollar :: tail⟩ = some (.here, ⟨offset + 1, tail⟩) := by
  have undollared : Spelled.dollarName? (Byte.dollar :: tail) = none := by
    have nameless : Spelled.name? 1 (Byte.dollar :: tail) = none := by
      refine Spelled.name?_eq_none rfl fun b first => ?_
      have apart := (stops.head b first).1
      cases letter : Byte.isLetter b with
      | false => rfl
      | true =>
        rw [Byte.isNameChar_of_isLetter letter] at apart
        contradiction
    unfold Spelled.dollarName?
    rw [List.head?_cons, nameless]
    rfl
  have number := number?_eq_none (b := Byte.dollar) rfl offset tail
  have label := label?_eq_none scope line offset tail rfl rfl (by decide) undollared
  have here : here? ⟨offset, Byte.dollar :: tail⟩ = some (.here, ⟨offset + 1, tail⟩) := by
    unfold here?
    simp only [Cursor.next?, List.head?_cons, beq_self_eq_true, List.drop_one, List.tail_cons,
      stops.continuesName, Bool.not_false, Bool.and_self, if_true]
    exact congrArg (fun c => some (Expr.here, c)) (Cursor.advance_append offset [Byte.dollar] tail)
  unfold leaf?
  rw [number, label, here]
  rfl

namespace LeafText

variable {l : Leaf} {s : Bytes}

theorem starts {parent : Bytes} (text : LeafText parent l s) (tail : Bytes) :
    Starts (s ++ tail) := by
  cases text with
  | number numeral =>
    obtain ⟨b, rest, start, digit⟩ := numeral.head tail
    rw [start]
    exact starts_cons (digit_apart b digit) rest
  | character | escaped | here => exact starts_cons rfl _
  | label text =>
    obtain ⟨b, rest, rfl, start⟩ := text.head
    exact starts_cons (StartsLabel.apart b start).1 (rest ++ tail)

/-- Every spelling of a leaf is read whole as an expression that means the leaf. -/
theorem read (scope : Scope) (line : Int) (text : LeafText scope.parent l s) :
    ∃ e : Expr, e.Means scope (.leaf l) ∧ ∀ offset tail, Stops tail →
      Term.leaf? scope line ⟨offset, s ++ tail⟩ = some (e, ⟨offset + s.length, tail⟩) := by
  cases text with
  | @number w s numeral =>
    refine ⟨.number ⟨s, some w⟩, Expr.number_means rfl, fun offset tail stops => ?_⟩
    unfold Term.leaf? Term.number?
    dsimp only
    rw [numeral.found stops.continuesName, Option.map_some, Cursor.advance_append]
    rfl
  | @character b unquoted unescaped =>
    refine ⟨_, Expr.character_means _ b, fun offset tail _ =>
      Term.leaf?_character scope line (fun tail => ?_) ?_ offset tail⟩
    · simp [Lexeme.quotation?, Lexeme.quotationFrom, unquoted, unescaped,
        Lexeme.quotationFrom_mark (show Byte.backslash ≠ Byte.singleQuote by decide)]
    · rfl
  | escaped b =>
    refine ⟨_, Expr.character_means _ b, fun offset tail _ =>
      Term.leaf?_character scope line (fun tail => ?_) ?_ offset tail⟩
    · simp [Lexeme.quotation?, Lexeme.quotationFrom,
        Lexeme.quotationFrom_mark (show Byte.backslash ≠ Byte.singleQuote by decide)]
    · rfl
  | here => exact ⟨.here, Expr.here_means, fun offset tail => Term.leaf?_here scope line offset⟩
  | @label l s text =>
    refine ⟨.label ⟨l, if l.kind = .global then [] else scope.file, line, s⟩,
      Expr.label_means (r := ⟨l, if l.kind = .global then [] else scope.file, line, s⟩) rfl,
      fun offset tail stops => ?_⟩
    obtain ⟨b, rest, whole, start⟩ := text.head
    have number : Term.number? ⟨offset, s ++ tail⟩ = none := by
      rw [whole]
      exact Term.number?_eq_none (StartsLabel.apart b start).2 offset (rest ++ tail)
    unfold Term.leaf?
    rw [number, Term.label?_eq scope line offset text stops]
    rfl

end LeafText

end Assembler8080
