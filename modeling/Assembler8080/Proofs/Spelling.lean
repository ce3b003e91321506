import Mathlib.Data.Nat.Digits.Defs
import Assembler8080.Expr.Reader
import Assembler8080.Proofs.Keys

/-! How the leaves of an expression are written, and that they are read back. Each spelling of a
label, number or character is read whole when what follows cannot be part of it: `Stops` says that
blanks and then an operator, a closing parenthesis, a comma, a semicolon or nothing follow. -/
namespace Assembler8080

/-! ### Blanks and what follows a value -/

def IsBlanks (s : Bytes) : Prop := ∀ b ∈ s, Byte.isBlank b = true

instance : DecidablePred IsBlanks := fun _ => inferInstanceAs (Decidable (∀ _ ∈ _, _))

/-- Blanks of which there is at least one. -/
structure IsGap (s : Bytes) : Prop where
  blanks : IsBlanks s
  ne_nil : s ≠ []

/-- The bytes that binary operators start with, and those after which no expression goes on. -/
def stopBytes : Bytes := ascii "=!<>|^&+-*/%),;"

/-- What may follow a value: blanks, and then one of the stop bytes or the end. -/
def Stops (tail : Bytes) : Prop := ∀ b ∈ (tail.dropWhile Byte.isBlank).head?, b ∈ stopBytes

def Starts (s : Bytes) : Prop := ∀ b ∈ s.head?, Byte.isBlank b = false

theorem stopBytes_apart (b : UInt8) (member : b ∈ stopBytes) : Byte.isBlank b = false ∧
    Byte.isNameChar b = false ∧ Byte.isLetter b = false ∧ b ≠ Byte.dollar ∧ b ≠ Byte.dot := by
  have checked : stopBytes.all (fun b => !Byte.isBlank b && (!Byte.isNameChar b &&
      (!Byte.isLetter b && (b != Byte.dollar && b != Byte.dot)))) = true := by decide
  simpa using List.all_eq_true.mp checked b member

theorem blank_apart {b : UInt8} (blank : Byte.isBlank b = true) :
    Byte.isNameChar b = false ∧ b ≠ Byte.dot := by
  simp only [Byte.isBlank, Bool.or_eq_true, beq_iff_eq] at blank
  rcases blank with (((rfl | rfl) | rfl) | rfl) | rfl <;> decide

namespace Stops

variable {tail : Bytes}

theorem head (stops : Stops tail) : ∀ b ∈ tail.head?, Byte.isNameChar b = false ∧ b ≠ Byte.dot := by
  intro b first
  cases tail with
  | nil => contradiction
  | cons c rest =>
    obtain rfl : c = b := Option.some.inj first
    by_cases blank : Byte.isBlank c = true
    · exact blank_apart blank
    · rw [Stops, List.dropWhile_cons, if_neg blank] at stops
      have apart := stopBytes_apart c (stops c rfl)
      exact ⟨apart.2.1, apart.2.2.2.2⟩

theorem continuesName (stops : Stops tail) : Lexeme.continuesName tail = false := by
  unfold Lexeme.continuesName
  cases first : tail.head? with
  | none => rfl
  | some b => exact (stops.head b first).1

/-- After the blanks, neither a name nor a dollar sign nor a dot follows. -/
theorem after (stops : Stops tail) : ∀ b ∈ (tail.dropWhile Byte.isBlank).head?,
    Byte.isLetter b = false ∧ b ≠ Byte.dollar ∧ b ≠ Byte.dot := by
  intro b first
  exact (stopBytes_apart b (stops b first)).2.2

theorem append_blanks {lead : Bytes} (blanks : IsBlanks lead) (stops : Stops tail) :
    Stops (lead ++ tail) := by
  unfold Stops
  rw [List.dropWhile_append_of_pos blanks]
  exact stops

end Stops

theorem stops_cons {b : UInt8} {rest : Bytes} (stop : b ∈ stopBytes) : Stops (b :: rest) := by
  rw [Stops, List.dropWhile_cons, if_neg (by rw [(stopBytes_apart b stop).1]; exact Bool.false_ne_true)]
  intro c first
  obtain rfl : b = c := Option.some.inj first
  exact stop

namespace Cursor

theorem advance_append (offset : Nat) (s rest : Bytes) :
    (Cursor.mk offset (s ++ rest)).advance s.length = ⟨offset + s.length, rest⟩ := by
  simp [advance]

theorem skipBlanks_append (offset : Nat) {lead rest : Bytes} (blanks : IsBlanks lead)
    (starts : Starts rest) :
    (Cursor.mk offset (lead ++ rest)).skipBlanks = ⟨offset + lead.length, rest⟩ := by
  have run : Lexeme.blankRun (lead ++ rest) = lead.length := by
    unfold Lexeme.blankRun
    rw [List.takeWhile_append_of_pos blanks]
    cases rest with
    | nil => simp
    | cons b rest => simp [starts b rfl]
  unfold skipBlanks
  dsimp only
  rw [run, advance_append]

theorem skipBlanks_of_starts (offset : Nat) {rest : Bytes} (starts : Starts rest) :
    (Cursor.mk offset rest).skipBlanks = ⟨offset, rest⟩ := by
  have empty : IsBlanks [] := fun _ member => absurd member List.not_mem_nil
  exact skipBlanks_append offset empty starts

end Cursor

/-! ### Names and keywords -/

theorem Lexeme.drop_blankRun (s : Bytes) : s.drop (blankRun s) = s.dropWhile Byte.isBlank := by
  unfold blankRun
  induction s with
  | nil => rfl
  | cons b rest ih => by_cases blank : Byte.isBlank b = true <;> simp [blank, ih]

theorem Lexeme.wordRun_append {n tail : Bytes} (name : ∀ b ∈ n, Byte.isNameChar b = true)
    (ends : continuesName tail = false) : wordRun (n ++ tail) = n.length := by
  unfold wordRun
  rw [List.takeWhile_append_of_pos name]
  cases tail with
  | nil => simp
  | cons b rest =>
    have other : Byte.isNameChar b = false := ends
    simp [other]

theorem Lexeme.name_append {n tail : Bytes} (name : IsName n)
    (ends : continuesName tail = false) : Lexeme.name (n ++ tail) = n.length := by
  cases n with
  | nil => exact name.elim
  | cons b rest =>
    rw [List.cons_append, Lexeme.name, if_pos name.1, wordRun_append name.2 ends, List.length_cons,
      Nat.add_comm]

namespace Spelled

/-- A name that stands after `lead` bytes is found whole. -/
theorem name?_eq {lead : Nat} {s n tail : Bytes} (place : s.drop lead = n ++ tail) (name : IsName n)
    (ends : Lexeme.continuesName tail = false) : name? lead s = some (n, lead + n.length) := by
  have length := Lexeme.name_append name ends
  have positive : 0 < n.length := List.length_pos_iff.mpr name.ne_nil
  unfold name?
  dsimp only
  rw [place, length]
  split
  next zero => omega
  next k same =>
    have whole : k + 1 = n.length := same.symm
    rw [whole, List.take_left]

theorem name?_eq_none {lead : Nat} {s rest : Bytes} (place : s.drop lead = rest)
    (other : ∀ b ∈ rest.head?, Byte.isLetter b = false) : name? lead s = none := by
  have zero : Lexeme.name rest = 0 := by
    cases rest with
    | nil => rfl
    | cons b rest => simp [Lexeme.name, other b rfl]
  unfold name?
  dsimp only
  rw [place, zero]

theorem dotName?_eq {lead : Nat} {s n tail : Bytes} (place : s.drop lead = Byte.dot :: (n ++ tail))
    (name : IsName n) (ends : Lexeme.continuesName tail = false) :
    dotName? lead s = some (n, lead + 1 + n.length) := by
  unfold dotName?
  rw [place]
  refine name?_eq ?_ name ends
  rw [← List.drop_drop, place]
  rfl

theorem dotName?_eq_none {lead : Nat} {s rest : Bytes} (place : s.drop lead = rest)
    (other : ∀ b ∈ rest.head?, b ≠ Byte.dot) : dotName? lead s = none := by
  unfold dotName?
  rw [place]
  split
  next dot => exact absurd rfl (other _ dot)
  next => rfl

end Spelled

def AnyCase (word s : Bytes) : Prop := s.map Byte.toLower = word.map Byte.toLower

instance (word s : Bytes) : Decidable (AnyCase word s) := inferInstanceAs (Decidable (_ = _))

theorem forall_byte {holds : UInt8 → Prop} (all : ∀ n < 256, holds (UInt8.ofNat n)) (b : UInt8) :
    holds b := by
  have own : UInt8.ofNat b.toNat = b := UInt8.ofNat_toNat
  rw [← own]
  exact all b.toNat b.toNat_lt

/-! The classes of bytes as ranges of numbers. -/

namespace Byte

variable {b : UInt8}

theorem isUpper_iff : isUpper b = true ↔ 0x41 ≤ b.toNat ∧ b.toNat ≤ 0x5A := by
  simp [isUpper, UInt8.le_iff_toNat_le]

theorem isLetter_iff : isLetter b = true ↔
    (0x41 ≤ b.toNat ∧ b.toNat ≤ 0x5A) ∨ (0x61 ≤ b.toNat ∧ b.toNat ≤ 0x7A) := by
  simp [isLetter, isUpper, isLower, UInt8.le_iff_toNat_le]

theorem isDigit_iff : isDigit b = true ↔ 0x30 ≤ b.toNat ∧ b.toNat ≤ 0x39 := by
  simp [isDigit, UInt8.le_iff_toNat_le]

theorem isBlank_iff : isBlank b = true ↔
    b.toNat = 0x20 ∨ b.toNat = 0x09 ∨ b.toNat = 0x0D ∨ b.toNat = 0x0C ∨ b.toNat = 0x0B := by
  simp [isBlank, blank, tab, carriageReturn, formFeed, verticalTab, ← UInt8.toNat_inj, or_assoc]

end Byte

theorem isLetter_toLower (b : UInt8) : Byte.isLetter (Byte.toLower b) = Byte.isLetter b := by
  rw [Bool.eq_iff_iff, Byte.isLetter_iff, Byte.isLetter_iff, Byte.toLower]
  split
  next upper =>
    rw [Byte.isUpper_iff] at upper
    simp only [UInt8.toNat_add, UInt8.reduceToNat]
    omega
  next => rfl

theorem AnyCase.letters {word s : Bytes} (same : AnyCase word s)
    (letters : ∀ b ∈ word, Byte.isLetter b = true) : ∀ b ∈ s, Byte.isLetter b = true := by
  intro b member
  have lower : Byte.toLower b ∈ word.map Byte.toLower := same ▸ List.mem_map_of_mem member
  obtain ⟨c, inside, equal⟩ := List.mem_map.mp lower
  rw [← isLetter_toLower, ← equal, isLetter_toLower]
  exact letters c inside

theorem AnyCase.length {word s : Bytes} (same : AnyCase word s) : s.length = word.length := by
  have lengths := congrArg List.length same
  rwa [List.length_map, List.length_map] at lengths

/-- A keyword: letters, in ASCII. -/
structure IsKeyword (word : Bytes) : Prop where
  letters : ∀ b ∈ word, Byte.isLetter b = true
  ascii : word.all Byte.isAscii = true
  ne_nil : word ≠ []

theorem keywords : IsKeyword (ascii "GLOBAL") ∧ IsKeyword (ascii "STATIC") ∧
    IsKeyword (ascii "LOCAL") := by
  refine ⟨⟨?_, ?_, ?_⟩, ⟨?_, ?_, ?_⟩, ⟨?_, ?_, ?_⟩⟩ <;> decide +kernel

/-- A keyword at the start of a name does not reach beyond the name, since it has letters only. -/
theorem AnyCase.length_le {word n tail : Bytes} (same : AnyCase word ((n ++ tail).take word.length))
    (keyword : IsKeyword word) (ends : Lexeme.continuesName tail = false) :
    word.length ≤ n.length := by
  by_contra beyond
  cases tail with
  | nil =>
    have short := same.length
    rw [List.append_nil, List.length_take] at short
    omega
  | cons b rest =>
    have member : b ∈ (n ++ b :: rest).take word.length := by
      rw [List.take_append, List.take_of_length_le (by omega)]
      obtain ⟨m, more⟩ : ∃ m, word.length - n.length = m + 1 :=
        ⟨word.length - n.length - 1, by omega⟩
      rw [more, List.take_succ_cons]
      exact List.mem_append_right _ List.mem_cons_self
    have letter := same.letters keyword.letters b member
    have other : Byte.isNameChar b = false := ends
    rw [Byte.isNameChar_of_isLetter letter] at other
    contradiction

namespace Spelled

theorem startsWithFold_iff {word s : Bytes} (keyword : IsKeyword word) :
    Text.startsWithFold word s = true ↔ AnyCase word (s.take word.length) := by
  unfold Text.startsWithFold
  dsimp only
  rw [if_pos keyword.ascii, beq_iff_eq]
  rfl

/-- A keyword and the blanks after it are found. -/
theorem keyword?_eq {word k gap rest : Bytes} (keyword : IsKeyword word) (same : AnyCase word k)
    (blank : IsGap gap) (starts : Starts rest) :
    keyword? word (k ++ (gap ++ rest)) = some (k.length + gap.length) := by
  have fold : Text.startsWithFold word (k ++ (gap ++ rest)) = true := by
    rw [startsWithFold_iff keyword, ← same.length, List.take_left]
    exact same
  have run : Lexeme.blankRun (gap ++ rest) = gap.length := by
    unfold Lexeme.blankRun
    rw [List.takeWhile_append_of_pos blank.blanks]
    cases rest with
    | nil => simp
    | cons b rest => simp [starts b rfl]
  have positive : 0 < gap.length := List.length_pos_iff.mpr blank.ne_nil
  unfold keyword? Lexeme.keyword
  rw [if_pos fold, ← same.length, List.drop_left, run]
  obtain ⟨n, length⟩ : ∃ n, gap.length = n + 1 := ⟨_, (Nat.succ_pred positive.ne').symm⟩
  rw [length]
  rfl

/-- The bytes that match a keyword are letters. -/
theorem keyword?_cases {word s : Bytes} {lead : Nat} (keyword : IsKeyword word)
    (found : keyword? word s = some lead) : AnyCase word (s.take word.length) ∧
      0 < Lexeme.blankRun (s.drop word.length) ∧
      lead = word.length + Lexeme.blankRun (s.drop word.length) := by
  unfold keyword? Lexeme.keyword at found
  split at found
  next => contradiction
  next n length =>
    obtain rfl := Option.some.inj found
    split at length
    next fold =>
      have same := (startsWithFold_iff keyword).mp fold
      split at length
      next => contradiction
      next m run =>
        rw [run]
        exact ⟨same, Nat.succ_pos m, length.symm⟩
    next => contradiction

/-- Where a name starts the text, a keyword is found only if it is the whole name and blanks
follow. -/
theorem keyword?_name {word n tail : Bytes} {lead : Nat} (keyword : IsKeyword word) (name : IsName n)
    (ends : Lexeme.continuesName tail = false) (found : keyword? word (n ++ tail) = some lead) :
    AnyCase word n ∧ 0 < Lexeme.blankRun tail ∧ lead = n.length + Lexeme.blankRun tail := by
  obtain ⟨same, gap, length⟩ := keyword?_cases keyword found
  have inside := same.length_le keyword ends
  rw [List.drop_append_of_le_length inside] at gap length
  -- Nor does it end within the name, since a blank comes next.
  have whole : word.length = n.length := by
    by_contra apart
    cases rest : n.drop word.length with
    | nil =>
      have short := congrArg List.length rest
      rw [List.length_drop, List.length_nil] at short
      omega
    | cons b more =>
      have member : b ∈ n := List.mem_of_mem_drop (rest ▸ List.mem_cons_self)
      rw [rest, List.cons_append, Lexeme.blankRun, List.takeWhile_cons] at gap
      split at gap
      next blank =>
        have other := (blank_apart blank).1
        rw [name.all b member] at other
        contradiction
      next => exact absurd gap (Nat.lt_irrefl 0)
  rw [whole, List.drop_length, List.nil_append] at gap length
  rw [whole, List.take_left] at same
  exact ⟨same, gap, length⟩

theorem keyword?_eq_none {word s : Bytes} (keyword : IsKeyword word)
    (other : ∀ b ∈ s.head?, Byte.isLetter b = false) : keyword? word s = none := by
  cases found : keyword? word s with
  | none => rfl
  | some lead =>
    obtain ⟨same, -⟩ := keyword?_cases keyword found
    cases s with
    | nil =>
      have short := same.length
      rw [List.take_nil, List.length_nil] at short
      exact absurd (List.length_eq_zero_iff.mp short.symm) keyword.ne_nil
    | cons b rest =>
      have positive : 0 < word.length := List.length_pos_iff.mpr keyword.ne_nil
      obtain ⟨m, more⟩ : ∃ m, word.length = m + 1 := ⟨_, (Nat.succ_pred positive.ne').symm⟩
      have letter := same.letters keyword.letters b (by
        rw [more, List.take_succ_cons]
        exact List.mem_cons_self)
      rw [other b rfl] at letter
      contradiction

end Spelled

/-! ### Labels -/

/-- The spellings of a label where it is used, below a parent for those that name none. -/
inductive LabelText (parent : Bytes) : Label → Bytes → Prop where
  | dollar {n : Bytes} (name : IsName n) : LabelText parent ⟨.global, n, []⟩ (Byte.dollar :: n)
  | globalKeyword {k gap n : Bytes} (word : AnyCase (ascii "GLOBAL") k) (blank : IsGap gap)
      (name : IsName n) : LabelText parent ⟨.global, n, []⟩ (k ++ (gap ++ n))
  | globalKeywordDollar {k gap n : Bytes} (word : AnyCase (ascii "GLOBAL") k) (blank : IsGap gap)
      (name : IsName n) : LabelText parent ⟨.global, n, []⟩ (k ++ (gap ++ Byte.dollar :: n))
  | plain {n : Bytes} (name : IsName n) : LabelText parent ⟨.static, n, []⟩ n
  | staticKeyword {k gap n : Bytes} (word : AnyCase (ascii "STATIC") k) (blank : IsGap gap)
      (name : IsName n) : LabelText parent ⟨.static, n, []⟩ (k ++ (gap ++ n))
  | nested {p n : Bytes} (above : IsName p) (name : IsName n) :
      LabelText parent ⟨.nested, n, p⟩ (p ++ Byte.dot :: n)
  | nestedKeyword {k gap p n : Bytes} (word : AnyCase (ascii "LOCAL") k) (blank : IsGap gap)
      (above : IsName p) (name : IsName n) :
      LabelText parent ⟨.nested, n, p⟩ (k ++ (gap ++ (p ++ Byte.dot :: n)))
  | bare {n : Bytes} (name : IsName n) : LabelText parent ⟨.nested, n, parent⟩ (Byte.dot :: n)
  | bareKeyword {k gap n : Bytes} (word : AnyCase (ascii "LOCAL") k) (blank : IsGap gap)
      (name : IsName n) : LabelText parent ⟨.nested, n, parent⟩ (k ++ (gap ++ Byte.dot :: n))

theorem IsName.starts {n : Bytes} (name : IsName n) (tail : Bytes) :
    ∃ b rest, n ++ tail = b :: rest ∧ Byte.isLetter b = true := by
  cases n with
  | nil => exact name.elim
  | cons b rest => exact ⟨b, rest ++ tail, rfl, name.1⟩

theorem letter_apart (b : UInt8) (letter : Byte.isLetter b = true) : Byte.isBlank b = false ∧
    Byte.isDigit b = false ∧ b ≠ Byte.dollar ∧ b ≠ Byte.dot ∧ b ≠ Byte.singleQuote := by
  have other {c : UInt8} (apart : Byte.isLetter c = false) : b ≠ c := by
    rintro rfl
    rw [letter] at apart
    contradiction
  rw [Byte.isLetter_iff] at letter
  refine ⟨?_, ?_, other rfl, other rfl, other rfl⟩
  · rw [← Bool.not_eq_true, Byte.isBlank_iff]
    omega
  · rw [← Bool.not_eq_true, Byte.isDigit_iff]
    omega

theorem AnyCase.isName {word k : Bytes} (keyword : IsKeyword word) (same : AnyCase word k) :
    IsName k := by
  cases k with
  | nil => exact keyword.ne_nil (List.length_eq_zero_iff.mp same.length.symm)
  | cons b rest =>
    have letters := same.letters keyword.letters
    exact ⟨letters b List.mem_cons_self,
      fun x member => Byte.isNameChar_of_isLetter (letters x (List.mem_cons_of_mem _ member))⟩

theorem IsGap.continuesName {gap : Bytes} (blank : IsGap gap) (rest : Bytes) :
    Lexeme.continuesName (gap ++ rest) = false := by
  cases gap with
  | nil => exact absurd rfl blank.ne_nil
  | cons b more => exact (blank_apart (blank.blanks b List.mem_cons_self)).1

namespace Spelled

/-- A keyword that is written hides every other one. -/
theorem keyword?_other {word other k gap : Bytes} (keyword : IsKeyword word)
    (keyword' : IsKeyword other) (apart : other.map Byte.toLower ≠ word.map Byte.toLower)
    (same : AnyCase word k) (blank : IsGap gap) (rest : Bytes) :
    keyword? other (k ++ (gap ++ rest)) = none := by
  cases found : keyword? other (k ++ (gap ++ rest)) with
  | none => rfl
  | some lead =>
    obtain ⟨same', -⟩ := keyword?_name keyword' (same.isName keyword) (blank.continuesName rest) found
    exact absurd (same'.symm.trans same) apart

/-- After a plain name that is a keyword there is no name for the keyword to go with. -/
theorem keyword?_plain {word n tail : Bytes} (keyword : IsKeyword word) (name : IsName n)
    (stops : Stops tail) : keyword? word (n ++ tail) = none ∨
      ∃ lead, keyword? word (n ++ tail) = some lead ∧
        (n ++ tail).drop lead = tail.dropWhile Byte.isBlank := by
  cases found : keyword? word (n ++ tail) with
  | none => exact .inl rfl
  | some lead =>
    obtain ⟨-, -, rfl⟩ := keyword?_name keyword name stops.continuesName found
    refine .inr ⟨_, rfl, ?_⟩
    rw [List.drop_append, List.drop_of_length_le (by omega), List.nil_append, Nat.add_sub_cancel_left]
    exact Lexeme.drop_blankRun tail

/-- A name that no blank follows is not taken for a keyword. -/
theorem keyword?_unspaced {word n rest : Bytes} {b : UInt8} (keyword : IsKeyword word)
    (name : IsName n) (ends : Byte.isNameChar b = false) (starts : Byte.isBlank b = false) :
    keyword? word (n ++ b :: rest) = none := by
  cases found : keyword? word (n ++ b :: rest) with
  | none => rfl
  | some lead =>
    have ended : Lexeme.continuesName (b :: rest) = false := ends
    obtain ⟨-, gap, -⟩ := keyword?_name keyword name ended found
    simp [Lexeme.blankRun, starts] at gap

/-- Where a keyword is written, the text goes on after its blanks. -/
theorem drop_keyword (k gap rest : Bytes) :
    (k ++ (gap ++ rest)).drop (k.length + gap.length) = rest := by
  rw [← List.append_assoc, ← List.length_append, List.drop_left]

/-! Each form on a text that it fits, given where the keyword ends. -/

section Forms

variable {s n tail : Bytes} {lead : Nat} (name : IsName n)
  (ends : Lexeme.continuesName tail = false)

include name ends

theorem globalKeyword?_eq (found : keyword? (ascii "GLOBAL") s = some lead) {mark : Bytes}
    (dollar : mark = [] ∨ mark = [Byte.dollar]) (place : s.drop lead = mark ++ (n ++ tail)) :
    globalKeyword? s = some ⟨⟨.global, n, []⟩, lead + mark.length + n.length⟩ := by
  have skipped : Spelled.dollar lead s = lead + mark.length := by
    unfold Spelled.dollar
    rw [place]
    rcases dollar with rfl | rfl
    · obtain ⟨b, rest, start, letter⟩ := name.starts tail
      rw [List.nil_append, start, List.head?_cons, if_neg (by simpa using (letter_apart b letter).2.2.1)]
      rfl
    · rfl
  have rest : s.drop (lead + mark.length) = n ++ tail := by
    rw [← List.drop_drop, place, List.drop_left]
  unfold globalKeyword?
  rw [found, Option.bind_eq_bind, Option.bind_some, skipped, name?_eq rest name ends]
  rfl

theorem staticKeyword?_eq (found : keyword? (ascii "STATIC") s = some lead)
    (place : s.drop lead = n ++ tail) :
    staticKeyword? s = some ⟨⟨.static, n, []⟩, lead + n.length⟩ := by
  unfold staticKeyword?
  rw [found, Option.bind_eq_bind, Option.bind_some, name?_eq place name ends]
  rfl

theorem parentDotName?_eq {p : Bytes} (above : IsName p)
    (place : s.drop lead = p ++ Byte.dot :: (n ++ tail)) :
    parentDotName? lead s = some ⟨⟨.nested, n, p⟩, lead + p.length + 1 + n.length⟩ := by
  have rest : s.drop (lead + p.length) = Byte.dot :: (n ++ tail) := by
    rw [← List.drop_drop, place, List.drop_left]
  unfold parentDotName?
  rw [name?_eq place above rfl, Option.bind_eq_bind, Option.bind_some]
  dsimp only
  rw [dotName?_eq rest name ends]
  rfl

theorem bareDotName?_eq (parent : Bytes) (place : s.drop lead = Byte.dot :: (n ++ tail)) :
    bareDotName? parent lead s = some ⟨⟨.nested, n, parent⟩, lead + 1 + n.length⟩ := by
  unfold bareDotName?
  rw [dotName?_eq place name ends]
  rfl

end Forms

/-! Each form on a text that it does not fit. -/

theorem parentDotName?_eq_none {s rest : Bytes} {lead : Nat} (place : s.drop lead = rest)
    (other : ∀ b ∈ rest.head?, Byte.isLetter b = false) : parentDotName? lead s = none := by
  unfold parentDotName?
  rw [name?_eq_none place other]
  rfl

theorem dollarName?_eq_none {s : Bytes} (other : ∀ b ∈ s.head?, b ≠ Byte.dollar) :
    dollarName? s = none := by
  unfold dollarName?
  split
  next dollar => exact absurd rfl (other _ dollar)
  next => rfl

/-- The forms with a keyword, on a text in which no name, dollar sign or dot goes with it. -/
theorem keywordForms_eq_none (parent s : Bytes)
    (alone : ∀ word, IsKeyword word → keyword? word s = none ∨
      ∃ lead, keyword? word s = some lead ∧ ∀ b ∈ (s.drop lead).head?,
        Byte.isLetter b = false ∧ b ≠ Byte.dollar ∧ b ≠ Byte.dot) :
    globalKeyword? s = none ∧ staticKeyword? s = none ∧ localKeyword? s = none ∧
      localKeywordBare? parent s = none := by
  refine ⟨?_, ?_, ?_, ?_⟩
  · unfold globalKeyword?
    rcases alone _ keywords.1 with absent | ⟨lead, found, apart⟩
    · rw [absent]
      rfl
    · have skipped : Spelled.dollar lead s = lead := by
        unfold Spelled.dollar
        rw [if_neg]
        intro first
        exact (apart _ (beq_iff_eq.mp first)).2.1 rfl
      rw [found, Option.bind_eq_bind, Option.bind_some, skipped,
        name?_eq_none rfl fun b first => (apart b first).1]
      rfl
  · unfold staticKeyword?
    rcases alone _ keywords.2.1 with absent | ⟨lead, found, apart⟩
    · rw [absent]
      rfl
    · rw [found, Option.bind_eq_bind, Option.bind_some,
        name?_eq_none rfl fun b first => (apart b first).1]
      rfl
  · unfold localKeyword?
    rcases alone _ keywords.2.2 with absent | ⟨lead, found, apart⟩
    · rw [absent]
      rfl
    · rw [found, Option.bind_eq_bind, Option.bind_some]
      exact parentDotName?_eq_none rfl fun b first => (apart b first).1
  · unfold localKeywordBare?
    rcases alone _ keywords.2.2 with absent | ⟨lead, found, apart⟩
    · rw [absent]
      rfl
    · rw [found, Option.bind_eq_bind, Option.bind_some, bareDotName?,
        dotName?_eq_none rfl fun b first => (apart b first).2.2]
      rfl

end Spelled

theorem IsName.starts_not_blank {n : Bytes} (name : IsName n) (tail : Bytes) : Starts (n ++ tail) := by
  obtain ⟨b, rest, start, letter⟩ := name.starts tail
  rw [start]
  intro c first
  obtain rfl : b = c := Option.some.inj first
  exact (letter_apart b letter).1

theorem IsName.not_dollar {n : Bytes} (name : IsName n) (tail : Bytes) :
    ∀ b ∈ (n ++ tail).head?, b ≠ Byte.dollar := by
  obtain ⟨b, rest, start, letter⟩ := name.starts tail
  rw [start]
  intro c first
  obtain rfl : b = c := Option.some.inj first
  exact (letter_apart b letter).2.2.1

theorem starts_cons {b : UInt8} (apart : Byte.isBlank b = false) (rest : Bytes) :
    Starts (b :: rest) := by
  intro c first
  obtain rfl : b = c := Option.some.inj first
  exact apart

namespace Spelled

/-- Before LOCAL neither another keyword nor a dollar sign is found. -/
theorem local_others {k gap : Bytes} (word : AnyCase (ascii "LOCAL") k) (blank : IsGap gap)
    (rest : Bytes) : globalKeyword? (k ++ (gap ++ rest)) = none ∧
      dollarName? (k ++ (gap ++ rest)) = none ∧ staticKeyword? (k ++ (gap ++ rest)) = none := by
  refine ⟨?_, dollarName?_eq_none ((word.isName keywords.2.2).not_dollar (gap ++ rest)), ?_⟩
  · unfold globalKeyword?
    rw [keyword?_other keywords.2.2 keywords.1 (by decide) word blank]
    rfl
  · unfold staticKeyword?
    rw [keyword?_other keywords.2.2 keywords.2.1 (by decide) word blank]
    rfl

/-! The forms are tried in an order in which each spelling is found as what it is. -/

section Found

variable (parent : Bytes) {n tail : Bytes} (name : IsName n) (stops : Stops tail)

include name stops

theorem found_dollar : (referenceForms parent).findSome? (· (Byte.dollar :: (n ++ tail))) =
    some ⟨⟨.global, n, []⟩, 1 + n.length⟩ := by
  have other : ∀ b ∈ (Byte.dollar :: (n ++ tail)).head?, Byte.isLetter b = false := by
    intro b first
    obtain rfl : Byte.dollar = b := Option.some.inj first
    rfl
  have global := (keywordForms_eq_none parent (Byte.dollar :: (n ++ tail))
    fun word keyword => .inl (keyword?_eq_none keyword other)).1
  have found : dollarName? (Byte.dollar :: (n ++ tail)) =
      some ⟨⟨.global, n, []⟩, 1 + n.length⟩ := by
    unfold dollarName?
    rw [List.head?_cons, name?_eq rfl name stops.continuesName]
    rfl
  simp only [referenceForms, List.findSome?_cons, global, found]

theorem found_bare : (referenceForms parent).findSome? (· (Byte.dot :: (n ++ tail))) =
    some ⟨⟨.nested, n, parent⟩, 1 + n.length⟩ := by
  have other : ∀ b ∈ (Byte.dot :: (n ++ tail)).head?, Byte.isLetter b = false := by
    intro b first
    obtain rfl : Byte.dot = b := Option.some.inj first
    rfl
  obtain ⟨global, static, nested, bare⟩ := keywordForms_eq_none parent (Byte.dot :: (n ++ tail))
    fun word keyword => .inl (keyword?_eq_none keyword other)
  have undollared : dollarName? (Byte.dot :: (n ++ tail)) = none := rfl
  have undotted : parentDotName? 0 (Byte.dot :: (n ++ tail)) = none :=
    parentDotName?_eq_none rfl other
  have nameless : name? 0 (Byte.dot :: (n ++ tail)) = none := name?_eq_none rfl other
  have unnamed : plainName? (Byte.dot :: (n ++ tail)) = none := by
    unfold plainName?
    rw [nameless]
    rfl
  have found : bareDotName? parent 0 (Byte.dot :: (n ++ tail)) =
      some ⟨⟨.nested, n, parent⟩, 0 + 1 + n.length⟩ :=
    bareDotName?_eq name stops.continuesName parent rfl
  simp only [referenceForms, List.findSome?_cons, global, undollared, static, nested, bare,
    undotted, unnamed, found, Nat.zero_add]

theorem found_plain : (referenceForms parent).findSome? (· (n ++ tail)) =
    some ⟨⟨.static, n, []⟩, n.length⟩ := by
  obtain ⟨global, static, nested, bare⟩ := keywordForms_eq_none parent (n ++ tail) fun _ keyword => by
    rcases keyword?_plain keyword name stops with absent | ⟨lead, found, place⟩
    · exact .inl absent
    · exact .inr ⟨lead, found, by rw [place]; exact stops.after⟩
  have named : name? 0 (n ++ tail) = some (n, 0 + n.length) :=
    name?_eq rfl name stops.continuesName
  have undotted : parentDotName? 0 (n ++ tail) = none := by
    unfold parentDotName?
    rw [named, Option.bind_eq_bind, Option.bind_some]
    dsimp only
    rw [Nat.zero_add, dotName?_eq_none List.drop_left fun b first => (stops.head b first).2]
    rfl
  have found : plainName? (n ++ tail) = some ⟨⟨.static, n, []⟩, n.length⟩ := by
    unfold plainName?
    rw [named, Nat.zero_add]
    rfl
  simp only [referenceForms, List.findSome?_cons, global, dollarName?_eq_none (name.not_dollar tail),
    static, nested, bare, undotted, found]

theorem found_nested {p : Bytes} (above : IsName p) :
    (referenceForms parent).findSome? (· (p ++ Byte.dot :: (n ++ tail))) =
      some ⟨⟨.nested, n, p⟩, p.length + 1 + n.length⟩ := by
  obtain ⟨global, static, nested, bare⟩ := keywordForms_eq_none parent
    (p ++ Byte.dot :: (n ++ tail))
    fun word keyword => .inl (keyword?_unspaced keyword above rfl rfl)
  have undollared := dollarName?_eq_none (above.not_dollar (Byte.dot :: (n ++ tail)))
  have found : parentDotName? 0 (p ++ Byte.dot :: (n ++ tail)) =
      some ⟨⟨.nested, n, p⟩, 0 + p.length + 1 + n.length⟩ :=
    parentDotName?_eq name stops.continuesName above rfl
  simp only [referenceForms, List.findSome?_cons, global, undollared, static, nested, bare, found,
    Nat.zero_add]

variable {k gap : Bytes} (blank : IsGap gap)

include blank

theorem found_globalKeyword (word : AnyCase (ascii "GLOBAL") k) {mark : Bytes}
    (dollar : mark = [] ∨ mark = [Byte.dollar]) :
    (referenceForms parent).findSome? (· (k ++ (gap ++ (mark ++ (n ++ tail))))) =
      some ⟨⟨.global, n, []⟩, k.length + gap.length + mark.length + n.length⟩ := by
  have starts : Starts (mark ++ (n ++ tail)) := by
    rcases dollar with rfl | rfl
    · exact name.starts_not_blank tail
    · exact starts_cons rfl (n ++ tail)
  have found := globalKeyword?_eq name stops.continuesName (keyword?_eq keywords.1 word blank starts)
    dollar (drop_keyword k gap _)
  simp only [referenceForms, List.findSome?_cons, found]

theorem found_staticKeyword (word : AnyCase (ascii "STATIC") k) :
    (referenceForms parent).findSome? (· (k ++ (gap ++ (n ++ tail)))) =
      some ⟨⟨.static, n, []⟩, k.length + gap.length + n.length⟩ := by
  have global : globalKeyword? (k ++ (gap ++ (n ++ tail))) = none := by
    unfold globalKeyword?
    rw [keyword?_other keywords.2.1 keywords.1 (by decide) word blank]
    rfl
  have undollared := dollarName?_eq_none
    ((word.isName keywords.2.1).not_dollar (gap ++ (n ++ tail)))
  have found := staticKeyword?_eq name stops.continuesName
    (keyword?_eq keywords.2.1 word blank (name.starts_not_blank tail))
    (drop_keyword k gap (n ++ tail))
  simp only [referenceForms, List.findSome?_cons, global, undollared, found]

theorem found_nestedKeyword (word : AnyCase (ascii "LOCAL") k) {p : Bytes} (above : IsName p) :
    (referenceForms parent).findSome? (· (k ++ (gap ++ (p ++ Byte.dot :: (n ++ tail))))) =
      some ⟨⟨.nested, n, p⟩, k.length + gap.length + p.length + 1 + n.length⟩ := by
  obtain ⟨global, undollared, static⟩ := local_others word blank (p ++ Byte.dot :: (n ++ tail))
  have found : localKeyword? (k ++ (gap ++ (p ++ Byte.dot :: (n ++ tail)))) =
      some ⟨⟨.nested, n, p⟩, k.length + gap.length + p.length + 1 + n.length⟩ := by
    unfold localKeyword?
    rw [keyword?_eq keywords.2.2 word blank (above.starts_not_blank _), Option.bind_eq_bind,
      Option.bind_some]
    exact parentDotName?_eq name stops.continuesName above (drop_keyword k gap _)
  simp only [referenceForms, List.findSome?_cons, global, undollared, static, found]

theorem found_bareKeyword (word : AnyCase (ascii "LOCAL") k) :
    (referenceForms parent).findSome? (· (k ++ (gap ++ Byte.dot :: (n ++ tail)))) =
      some ⟨⟨.nested, n, parent⟩, k.length + gap.length + 1 + n.length⟩ := by
  obtain ⟨global, undollared, static⟩ := local_others word blank (Byte.dot :: (n ++ tail))
  have starts : Starts (Byte.dot :: (n ++ tail)) := starts_cons rfl (n ++ tail)
  have lead := keyword?_eq keywords.2.2 word blank starts
  have nested : localKeyword? (k ++ (gap ++ Byte.dot :: (n ++ tail))) = none := by
    unfold localKeyword?
    rw [lead, Option.bind_eq_bind, Option.bind_some]
    refine parentDotName?_eq_none (drop_keyword k gap _) fun b first => ?_
    obtain rfl : Byte.dot = b := Option.some.inj first
    rfl
  have found : localKeywordBare? parent (k ++ (gap ++ Byte.dot :: (n ++ tail))) =
      some ⟨⟨.nested, n, parent⟩, k.length + gap.length + 1 + n.length⟩ := by
    unfold localKeywordBare?
    rw [lead, Option.bind_eq_bind, Option.bind_some]
    exact bareDotName?_eq name stops.continuesName parent (drop_keyword k gap _)
  simp only [referenceForms, List.findSome?_cons, global, undollared, static, nested, found]

end Found

end Spelled

open Spelled in
theorem LabelText.found {parent s tail : Bytes} {l : Label} (text : LabelText parent l s)
    (stops : Stops tail) :
    (referenceForms parent).findSome? (· (s ++ tail)) = some ⟨l, s.length⟩ := by
  cases text with
  | dollar name => simpa [Nat.add_comm] using found_dollar parent name stops
  | globalKeyword word blank name =>
    simpa [Nat.add_assoc] using found_globalKeyword parent name stops blank word (.inl rfl)
  | globalKeywordDollar word blank name =>
    simpa [Nat.add_assoc, Nat.add_comm 1] using
      found_globalKeyword parent name stops blank word (.inr rfl)
  | plain name => exact found_plain parent name stops
  | staticKeyword word blank name =>
    simpa [Nat.add_assoc] using found_staticKeyword parent name stops blank word
  | nested above name =>
    simpa [Nat.add_assoc, Nat.add_comm 1] using found_nested parent name stops above
  | nestedKeyword word blank above name =>
    simpa [Nat.add_assoc, Nat.add_comm 1] using
      found_nestedKeyword parent name stops blank word above
  | bare name => simpa [Nat.add_comm] using found_bare parent name stops
  | bareKeyword word blank name =>
    simpa [Nat.add_assoc, Nat.add_comm 1] using found_bareKeyword parent name stops blank word

open Spelled in
/-- No spelling starts with a byte that is no letter, dollar sign or dot. -/
theorem referenceForms_eq_none (parent : Bytes) {s : Bytes}
    (other : ∀ b ∈ s.head?, Byte.isLetter b = false ∧ b ≠ Byte.dot)
    (undollared : dollarName? s = none) : (referenceForms parent).findSome? (· s) = none := by
  have letterless : ∀ b ∈ s.head?, Byte.isLetter b = false := fun b first => (other b first).1
  obtain ⟨global, static, nested, bare⟩ := keywordForms_eq_none parent s
    fun word keyword => .inl (keyword?_eq_none keyword letterless)
  have nameless : name? 0 s = none := name?_eq_none rfl letterless
  have undotted : parentDotName? 0 s = none := parentDotName?_eq_none rfl letterless
  have unnamed : plainName? s = none := by
    unfold plainName?
    rw [nameless]
    rfl
  have dotless : dotName? 0 s = none := dotName?_eq_none rfl fun b first => (other b first).2
  have bareless : bareDotName? parent 0 s = none := by
    unfold bareDotName?
    rw [dotless]
    rfl
  simp only [referenceForms, List.findSome?_cons, List.findSome?_nil, global, undollared, static,
    nested, bare, undotted, unnamed, bareless]

def StartsLabel (b : UInt8) : Prop := Byte.isLetter b = true ∨ b = Byte.dollar ∨ b = Byte.dot

instance : DecidablePred StartsLabel := fun _ => inferInstanceAs (Decidable (_ ∨ _))

theorem StartsLabel.apart (b : UInt8) (starts : StartsLabel b) :
    Byte.isBlank b = false ∧ Byte.isDigit b = false := by
  rcases starts with letter | rfl | rfl
  · exact ⟨(letter_apart b letter).1, (letter_apart b letter).2.1⟩
  · exact ⟨rfl, rfl⟩
  · exact ⟨rfl, rfl⟩

theorem LabelText.head {parent s : Bytes} {l : Label} (text : LabelText parent l s) :
    ∃ b rest, s = b :: rest ∧ StartsLabel b := by
  have named : ∀ {n : Bytes}, IsName n → ∀ tail, ∃ b rest, n ++ tail = b :: rest ∧
      StartsLabel b := by
    intro n name tail
    obtain ⟨b, rest, start, letter⟩ := name.starts tail
    exact ⟨b, rest, start, .inl letter⟩
  cases text with
  | dollar => exact ⟨_, _, rfl, .inr (.inl rfl)⟩
  | bare => exact ⟨_, _, rfl, .inr (.inr rfl)⟩
  | plain name =>
    have whole := named name []
    rwa [List.append_nil] at whole
  | nested above => exact named above _
  | globalKeyword word | globalKeywordDollar word => exact named (word.isName keywords.1) _
  | staticKeyword word => exact named (word.isName keywords.2.1) _
  | nestedKeyword word | bareKeyword word => exact named (word.isName keywords.2.2) _

/-- A spelling is read as a reference to its label. -/
theorem LabelText.reference? {scope : Scope} {l : Label} {s tail : Bytes}
    (text : LabelText scope.parent l s) (stops : Stops tail) (line : Int) (offset : Nat) :
    scope.reference? line ⟨offset, s ++ tail⟩ =
      some (⟨l, if l.kind = .global then [] else scope.file, line, s⟩,
        ⟨offset + s.length, tail⟩) := by
  have starts : Starts (s ++ tail) := by
    obtain ⟨b, rest, rfl, start⟩ := text.head
    exact starts_cons (StartsLabel.apart b start).1 (rest ++ tail)
  unfold Scope.reference?
  dsimp only
  rw [Cursor.skipBlanks_of_starts offset starts]
  dsimp only
  rw [text.found stops]
  dsimp only
  rw [List.take_left, Cursor.advance_append]

end Assembler8080
