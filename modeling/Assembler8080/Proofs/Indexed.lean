import Assembler8080.Proofs.CommentedText

/-! Lexemes by index. Here a text stays whole, a place in it is a number, and each byte is asked for
by its index; an index without a byte is an error (`OutOfRange`). Every lexeme is found in this way
without an error, and is the one at the start of what the text is from that place on. -/
namespace Assembler8080

/-- An index at which a text has no byte. -/
structure OutOfRange where
  index : Nat
  deriving Repr, DecidableEq

abbrev Checked (α : Type) := Except OutOfRange α

namespace Checked

variable {α β γ δ : Type}

@[simp] theorem pure_eq_ok (a : α) : (pure a : Checked α) = .ok a := rfl

@[simp] theorem bind_ok (a : α) (next : α → Checked β) : (Except.ok a >>= next) = next a := rfl

def andThen (found : Checked (Option α)) (next : α → Checked (Option β)) : Checked (Option β) := do
  match ← found with
  | some a => next a
  | none => return none

theorem andThen_ok {found : Checked (Option α)} {next : α → Checked (Option β)}
    {first : Option γ} {second : γ → Option δ} {place : γ → α} {place' : δ → β}
    (whole : found = .ok (first.map place))
    (after : ∀ c, next (place c) = .ok ((second c).map place')) :
    andThen found next = .ok ((first.bind second).map place') := by
  subst whole
  cases first with
  | none => rfl
  | some c => exact after c

theorem andThen_map {found : Checked (Option α)} {next : α → Checked (Option β)}
    {first : Option γ} {make : γ → δ} {place : γ → α} {place' : δ → β}
    (whole : found = .ok (first.map place))
    (after : ∀ c, next (place c) = .ok (some (place' (make c)))) :
    andThen found next = .ok ((first.map make).map place') := by
  subst whole
  cases first with
  | none => rfl
  | some c => exact after c

def orElse (found other : Checked (Option α)) : Checked (Option α) := do
  match ← found with
  | some a => return some a
  | none => other

theorem orElse_ok {found other : Checked (Option α)} {first second : Option γ} {place : γ → α}
    (whole : found = .ok (first.map place)) (after : other = .ok (second.map place)) :
    orElse found other = .ok ((first.or second).map place) := by
  subst whole after
  cases first <;> rfl

end Checked

namespace Indexed

open Checked

/-! ### Bytes and slices -/

def byte (s : Bytes) (i : Nat) : Checked UInt8 :=
  match s[i]? with
  | some b => .ok b
  | none => .error ⟨i⟩

def slice (s : Bytes) (i j : Nat) : Checked Bytes :=
  if i ≤ j ∧ j ≤ s.length then .ok ((s.drop i).take (j - i)) else .error ⟨j⟩

/-- The byte at an index, where the text may have ended. -/
def next? (s : Bytes) (i : Nat) : Checked (Option UInt8) :=
  if i < s.length then do return some (← byte s i) else return none

/-- At an index a text has ended, or has a byte and goes on after it. -/
theorem ends_or_goes_on (s : Bytes) (i : Nat) :
    (s.length ≤ i ∧ s.drop i = []) ∨
      ∃ b, i < s.length ∧ byte s i = .ok b ∧ s.drop i = b :: s.drop (i + 1) := by
  by_cases inside : i < s.length
  · refine .inr ⟨s[i], inside, ?_, List.drop_eq_getElem_cons inside⟩
    simp [byte, inside]
  · exact .inl ⟨by omega, List.drop_eq_nil_of_le (by omega)⟩

theorem slice_ok {s : Bytes} {i n : Nat} (inside : i + n ≤ s.length) :
    slice s i (i + n) = .ok ((s.drop i).take n) := by
  have order : i ≤ i + n := Nat.le_add_right i n
  have width : i + n - i = n := by omega
  simp [slice, order, inside, width]

theorem next?_ok (s : Bytes) (i : Nat) : next? s i = .ok (s.drop i).head? := by
  rcases ends_or_goes_on s i with ⟨beyond, rest⟩ | ⟨b, inside, here, rest⟩
  · have outside : ¬ i < s.length := by omega
    simp [next?, outside, rest]
  · simp [next?, inside, here, rest]

/-! ### Runs, names and keywords -/

/-- The index after the bytes of a class that stand at an index. -/
def runEnd (class_ : UInt8 → Bool) (s : Bytes) (i : Nat) : Checked Nat := do
  if i < s.length then
    if class_ (← byte s i) then runEnd class_ s (i + 1) else return i
  else return i
termination_by s.length - i

theorem runEnd_ok (class_ : UInt8 → Bool) (s : Bytes) (i : Nat) :
    runEnd class_ s i = .ok (i + ((s.drop i).takeWhile class_).length) := by
  fun_induction runEnd class_ s i with
  | case1 i inside ih =>
    rcases ends_or_goes_on s i with ⟨beyond, -⟩ | ⟨b, -, here, rest⟩
    · omega
    · rw [here, rest]
      by_cases member : class_ b = true
      · simp [member, ih]
        omega
      · simp [member]
  | case2 i beyond =>
    have ended : s.drop i = [] := List.drop_eq_nil_of_le (by omega)
    simp [ended]

theorem blanks_ok (s : Bytes) (i : Nat) :
    runEnd Byte.isBlank s i = .ok (i + Lexeme.blankRun (s.drop i)) := runEnd_ok ..

theorem word_ok (s : Bytes) (i : Nat) :
    runEnd Byte.isNameChar s i = .ok (i + Lexeme.wordRun (s.drop i)) := runEnd_ok ..

def name (s : Bytes) (i : Nat) : Checked Nat := do
  if i < s.length then
    if Byte.isLetter (← byte s i) then return (← runEnd Byte.isNameChar s (i + 1)) - i
    else return 0
  else return 0

theorem name_ok (s : Bytes) (i : Nat) : name s i = .ok (Lexeme.name (s.drop i)) := by
  rcases ends_or_goes_on s i with ⟨beyond, rest⟩ | ⟨b, inside, here, rest⟩
  · have outside : ¬ i < s.length := by omega
    simp [name, outside, rest, Lexeme.name]
  · by_cases letter : Byte.isLetter b = true
    · have length : i + 1 + Lexeme.wordRun (s.drop (i + 1)) - i =
          1 + Lexeme.wordRun (s.drop (i + 1)) := by omega
      simp [name, inside, here, letter, word_ok, length, rest, Lexeme.name]
    · simp [name, inside, here, letter, rest, Lexeme.name]

theorem name_le (s : Bytes) : Lexeme.name s ≤ s.length := by
  cases s with
  | nil => exact Nat.le_refl 0
  | cons b rest =>
    have run := Lexeme.wordRun_le rest
    simp only [Lexeme.name, List.length_cons]
    split <;> omega

def keyword (word s : Bytes) (i : Nat) : Checked Nat := do
  if s.length - i < word.length then return 0
  else if Text.startsWithFold word (← slice s i (i + word.length)) then
    let stop ← runEnd Byte.isBlank s (i + word.length)
    if stop = i + word.length then return 0 else return stop - i
  else return 0

theorem startsWithFold_take {word : Bytes} (keyword : IsKeyword word) (s : Bytes) :
    Text.startsWithFold word (s.take word.length) = Text.startsWithFold word s := by
  rw [Bool.eq_iff_iff, Spelled.startsWithFold_iff keyword, Spelled.startsWithFold_iff keyword,
    List.take_take, Nat.min_self]

theorem keyword_ok {word : Bytes} (listed : IsKeyword word) (s : Bytes) (i : Nat) :
    keyword word s i = .ok (Lexeme.keyword word (s.drop i)) := by
  have longer : Text.startsWithFold word (s.drop i) = true → word.length ≤ s.length - i := by
    intro found
    simpa using Text.length_le_of_startsWithFold listed found
  by_cases short : s.length - i < word.length
  · have absent : Text.startsWithFold word (s.drop i) = false := by
      by_contra found
      have inside := longer (by simpa using found)
      omega
    simp [keyword, short, Lexeme.keyword, absent]
  · have positive := List.length_pos_iff.mpr listed.ne_nil
    have start : slice s i (i + word.length) = .ok ((s.drop i).take word.length) :=
      slice_ok (by omega)
    simp only [keyword, short, if_false, start, bind_ok, startsWithFold_take listed,
      Lexeme.keyword, List.drop_drop, blanks_ok]
    by_cases found : Text.startsWithFold word (s.drop i) = true
    · simp only [found, if_true]
      cases run : Lexeme.blankRun (s.drop (i + word.length)) with
      | zero => simp
      | succ n =>
        have length : i + word.length + (n + 1) - i = word.length + (n + 1) := by omega
        simp [length]
    · simp [found]

/-! ### Operators -/

def rest (s : Bytes) (i : Nat) : Checked Bytes :=
  if i < s.length then slice s i s.length else return []

theorem rest_ok (s : Bytes) (i : Nat) : rest s i = .ok (s.drop i) := by
  by_cases inside : i < s.length
  · have whole : i + (s.length - i) = s.length := by omega
    have found := slice_ok (s := s) (i := i) (n := s.length - i) (by omega)
    rw [whole, List.take_of_length_le (by simp)] at found
    simp [rest, inside, found]
  · simp [rest, inside, List.drop_eq_nil_of_le (Nat.le_of_not_lt inside)]

def startsWith (word s : Bytes) (i : Nat) : Checked Bool := do
  let ahead ← rest s i
  if ahead.length < word.length then return false
  else return (← slice ahead 0 word.length) == word

theorem startsWith_ok (word s : Bytes) (i : Nat) :
    startsWith word s i = .ok (word.isPrefixOf (s.drop i)) := by
  simp only [startsWith, rest_ok, bind_ok]
  by_cases short : (s.drop i).length < word.length
  · have absent : word.isPrefixOf (s.drop i) = false := by
      by_contra found
      have inside : word <+: s.drop i := by simpa using found
      have length := inside.length_le
      omega
    rw [if_pos short, absent]
    rfl
  · have start := slice_ok (s := s.drop i) (i := 0) (n := word.length) (by omega)
    rw [Nat.zero_add, List.drop_zero] at start
    rw [if_neg short, start]
    simp only [bind_ok, pure_eq_ok, Except.ok.injEq]
    rw [Bool.eq_iff_iff, beq_iff_eq, List.isPrefixOf_iff_prefix, List.prefix_iff_eq_take]
    exact eq_comm

def firstOf {α : Type} (word : α → Bytes) (s : Bytes) (i : Nat) : List α → Checked (Option α)
  | [] => return none
  | a :: rest => do if ← startsWith (word a) s i then return some a else firstOf word s i rest

theorem firstOf_ok {α : Type} (word : α → Bytes) (s : Bytes) (i : Nat) (all : List α) :
    firstOf word s i all = .ok (all.find? fun a => (word a).isPrefixOf (s.drop i)) := by
  induction all with
  | nil => rfl
  | cons a rest ih =>
    simp only [firstOf, startsWith_ok, bind_ok, List.find?_cons, ih]
    by_cases found : (word a).isPrefixOf (s.drop i) = true
    · simp [found]
    · simp [found]

/-! ### Quotations -/

/-- Reads on from an index inside a quotation that starts at another. -/
def quotationFrom (mark : UInt8) (s : Bytes) (start i characters : Nat) :
    Checked (Option Lexeme.Quotation) := do
  if i < s.length then
    let b ← byte s i
    if b == Byte.backslash then
      if i + 1 < s.length then quotationFrom mark s start (i + 2) (characters + 1)
      else return none
    else if b == mark then return some ⟨i + 1 - start, characters⟩
    else quotationFrom mark s start (i + 1) (characters + 1)
  else return none
termination_by s.length - i

def quotation? (mark : UInt8) (s : Bytes) (i : Nat) : Checked (Option Lexeme.Quotation) := do
  if i < s.length then
    if (← byte s i) == mark then quotationFrom mark s i (i + 1) 0 else return none
  else return none

theorem quotationFrom_ok (mark : UInt8) (s : Bytes) {start i : Nat} (behind : start ≤ i)
    (characters : Nat) :
    quotationFrom mark s start i characters =
      .ok (Lexeme.quotationFrom mark (i - start) characters (s.drop i)) := by
  fun_induction quotationFrom mark s start i characters with
  | case1 i characters inside escaped plain =>
    rcases ends_or_goes_on s i with ⟨beyond, -⟩ | ⟨b, -, here, rest⟩
    · omega
    · simp only [here, bind_ok, rest]
      by_cases escape : (b == Byte.backslash) = true
      · rw [if_pos escape]
        rcases ends_or_goes_on s (i + 1) with ⟨beyond, ended⟩ | ⟨c, more, -, after⟩
        · rw [if_neg (by omega), ended, Lexeme.quotationFrom.eq_def]
          simp [escape]
        · have width : i + 2 - start = i - start + 2 := by omega
          rw [if_pos more, escaped more (by omega), after, Lexeme.quotationFrom_escape escape, width]
      · have width : i + 1 - start = i - start + 1 := by omega
        rw [if_neg escape, Lexeme.quotationFrom_cons escape, plain (by omega), width]
        by_cases closes : (b == mark) = true
        · rw [if_pos closes, if_pos closes]
          rfl
        · rw [if_neg closes, if_neg closes]
  | case2 i characters beyond =>
    have ended : s.drop i = [] := List.drop_eq_nil_of_le (by omega)
    rw [ended, Lexeme.quotationFrom]
    rfl

theorem quotation?_ok (mark : UInt8) (s : Bytes) (i : Nat) :
    quotation? mark s i = .ok (Lexeme.quotation? mark (s.drop i)) := by
  rcases ends_or_goes_on s i with ⟨beyond, rest⟩ | ⟨b, inside, here, rest⟩
  · have outside : ¬ i < s.length := by omega
    simp [quotation?, outside, rest, Lexeme.quotation?]
  · have width : i + 1 - i = 1 := by omega
    by_cases opens : (b == mark) = true
    · have inner := quotationFrom_ok mark s (Nat.le_succ i) 0
      rw [width] at inner
      simp only [quotation?, inside, if_true, here, bind_ok, opens, inner, rest, Lexeme.quotation?]
    · simp only [quotation?, inside, if_true, here, bind_ok, opens, rest, Lexeme.quotation?]
      rfl

/-- Takes the escapes out of a text from an index on, after the bytes `seen`, last one first. -/
def unescapeFrom (s : Bytes) (i : Nat) (seen : Bytes) : Checked Bytes := do
  if i < s.length then
    let b ← byte s i
    if b == Byte.backslash && i + 1 < s.length then
      unescapeFrom s (i + 2) ((← byte s (i + 1)) :: seen)
    else unescapeFrom s (i + 1) (b :: seen)
  else return seen.reverse
termination_by s.length - i

theorem unescapeFrom_ok (s : Bytes) (i : Nat) (seen : Bytes) :
    unescapeFrom s i seen = .ok (Lexeme.unescapeOnto seen (s.drop i)) := by
  fun_induction unescapeFrom s i seen with
  | case1 i seen inside escaped plain =>
    rcases ends_or_goes_on s i with ⟨beyond, -⟩ | ⟨b, -, here, rest⟩
    · omega
    · simp only [here, bind_ok, rest]
      rcases ends_or_goes_on s (i + 1) with ⟨beyond, ended⟩ | ⟨c, more, next, after⟩
      · -- A backslash at the very end stands for itself.
        have last : ¬ i + 1 < s.length := by omega
        simp only [last, decide_false, Bool.and_false, Bool.false_eq_true, if_false, plain, ended]
        rfl
      · by_cases escape : (b == Byte.backslash) = true
        · simp only [escape, more, decide_true, Bool.and_self, if_true, next, bind_ok, escaped,
            after, Lexeme.unescapeOnto]
        · simp only [escape, Bool.false_and, Bool.false_eq_true, if_false, plain, after,
            Lexeme.unescapeOnto]
  | case2 i seen beyond =>
    have ended : s.drop i = [] := List.drop_eq_nil_of_le (by omega)
    rw [ended, Lexeme.unescapeOnto]
    rfl

end Indexed

end Assembler8080
