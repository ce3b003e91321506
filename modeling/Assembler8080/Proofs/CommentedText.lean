import Assembler8080.Proofs.DataLists
import Assembler8080.Proofs.Declarations
import Assembler8080.Proofs.Meeting

/-! A comment after a text. A blank and a semicolon end every lexeme, so what is found at the start of
a text is found there too when a comment is added: names and keywords, labels (`Spelled.form_remark`),
what ends a declaration, and the leaves of an expression (`Term.leaf?_remark`). A keyword at the end
of a text gets a blank behind it, but no name follows; a quotation that is not closed may be closed by
the comment, but then it has more than one character. -/
namespace Assembler8080

def remark (c : Bytes) : Bytes := Byte.blank :: Byte.semicolon :: c

theorem takeWhile_remark {p : UInt8 → Bool} (blank : p Byte.blank = false) (s c : Bytes) :
    (s ++ remark c).takeWhile p = s.takeWhile p := by
  induction s with
  | nil => simp [remark, blank]
  | cons b rest ih => by_cases holds : p b = true <;> simp [holds, ih]

theorem drop_remark {s : Bytes} {n : Nat} (inside : n ≤ s.length) (c : Bytes) :
    (s ++ remark c).drop n = s.drop n ++ remark c := List.drop_append_of_le_length inside

theorem drop_beyond (s c : Bytes) : (s ++ remark c).drop (s.length + 1) = Byte.semicolon :: c := by
  simp [remark]

namespace Lexeme

variable (s c : Bytes)

theorem wordRun_le : wordRun s ≤ s.length := (List.takeWhile_prefix _).length_le

theorem wordRun_remark : wordRun (s ++ remark c) = wordRun s := by
  rw [wordRun, takeWhile_remark rfl, wordRun]

theorem continuesName_remark : continuesName (s ++ remark c) = continuesName s := by
  cases s <;> rfl

theorem name_remark : name (s ++ remark c) = name s := by
  cases s with
  | nil => rfl
  | cons b rest => rw [List.cons_append, name, name, wordRun_remark]

theorem letters_remark : letters (s ++ remark c) = letters s := by
  have inside : (s.takeWhile Byte.isLetter).length ≤ s.length := (List.takeWhile_prefix _).length_le
  simp only [letters, takeWhile_remark (p := Byte.isLetter) rfl, drop_remark inside,
    continuesName_remark]

theorem letters_le : letters s ≤ s.length := by
  have inside : (s.takeWhile Byte.isLetter).length ≤ s.length := (List.takeWhile_prefix _).length_le
  simp only [letters]
  split <;> omega

/-- The blanks of a text end before the comment, or go on into it. -/
theorem blankRun_remark :
    (blankRun (s ++ remark c) = blankRun s ∧ blankRun s < s.length) ∨
      (blankRun (s ++ remark c) = s.length + 1 ∧ blankRun s = s.length) := by
  unfold blankRun
  induction s with
  | nil => exact .inr ⟨rfl, rfl⟩
  | cons b rest ih =>
    by_cases blank : Byte.isBlank b = true
    · simpa [blank] using ih
    · simp [blank]

end Lexeme

namespace Text

theorem length_le_of_startsWithFold {word s : Bytes} (keyword : IsKeyword word)
    (found : startsWithFold word s = true) : word.length ≤ s.length := by
  have length := ((Spelled.startsWithFold_iff keyword).mp found).length
  rw [List.length_take] at length
  omega

theorem startsWithFold_remark {word : Bytes} (keyword : IsKeyword word) (s c : Bytes) :
    startsWithFold word (s ++ remark c) = startsWithFold word s := by
  have same : startsWithFold word (s ++ remark c) = true ↔ startsWithFold word s = true := by
    constructor
    · intro found
      rw [Spelled.startsWithFold_iff keyword] at found ⊢
      have inside := found.length_le keyword rfl
      rwa [List.take_append_of_le_length inside] at found
    · intro found
      have inside := length_le_of_startsWithFold keyword found
      rw [Spelled.startsWithFold_iff keyword] at found ⊢
      rwa [List.take_append_of_le_length inside]
  exact Bool.eq_iff_iff.mpr same

end Text

theorem Lexeme.wholeWord_remark {word : Bytes} (keyword : IsKeyword word) (s c : Bytes) :
    wholeWord word (s ++ remark c) = wholeWord word s := by
  unfold wholeWord
  rw [Text.startsWithFold_remark keyword]
  cases found : Text.startsWithFold word s with
  | false => rfl
  | true =>
    rw [drop_remark (Text.length_le_of_startsWithFold keyword found), continuesName_remark]

/-! ### Labels -/

namespace Spelled

variable {s : Bytes} {lead : Nat} (c : Bytes)

theorem name?_remark (inside : lead ≤ s.length) : name? lead (s ++ remark c) = name? lead s := by
  have short := Lexeme.name_le (s.drop lead)
  simp only [name?, drop_remark inside, Lexeme.name_remark]
  split
  next => rfl
  next n named =>
    rw [List.take_append_of_le_length (by omega)]

theorem name?_beyond (s : Bytes) : name? (s.length + 1) (s ++ remark c) = none :=
  name?_eq_none (drop_beyond s c) fun b first => by
    obtain rfl : Byte.semicolon = b := Option.some.inj first
    rfl

theorem name?_end (s : Bytes) : name? s.length s = none :=
  name?_eq_none (List.drop_length ..) fun _ first => by contradiction

theorem dotName?_remark (inside : lead ≤ s.length) :
    dotName? lead (s ++ remark c) = dotName? lead s := by
  unfold dotName?
  rw [drop_remark inside]
  rcases rest : s.drop lead with _ | ⟨b, more⟩
  · rfl
  · have further : lead + 1 ≤ s.length := by
      have length := congrArg List.length rest
      rw [List.length_drop, List.length_cons] at length
      omega
    simp only [List.cons_append, List.head?_cons]
    split
    · exact name?_remark c further
    · rfl

theorem dotName?_beyond (s : Bytes) : dotName? (s.length + 1) (s ++ remark c) = none :=
  dotName?_eq_none (drop_beyond s c) fun b first => by
    obtain rfl : Byte.semicolon = b := Option.some.inj first
    decide

theorem dotName?_end (s : Bytes) : dotName? s.length s = none :=
  dotName?_eq_none (List.drop_length ..) fun _ first => by contradiction

/-- A keyword is found as before, or it is at the end of the text. -/
theorem keyword?_remark {word : Bytes} (keyword : IsKeyword word) (s c : Bytes) :
    (keyword? word (s ++ remark c) = keyword? word s ∧ ∀ lead ∈ keyword? word s, lead ≤ s.length) ∨
      (keyword? word (s ++ remark c) = some (s.length + 1) ∧
        ∀ lead ∈ keyword? word s, lead = s.length) := by
  unfold keyword? Lexeme.keyword
  rw [Text.startsWithFold_remark keyword]
  cases found : Text.startsWithFold word s with
  | false => simp
  | true =>
    have inside := Text.length_le_of_startsWithFold keyword found
    have length : (s.drop word.length).length = s.length - word.length := List.length_drop
    rw [drop_remark inside]
    rcases Lexeme.blankRun_remark (s.drop word.length) c with ⟨same, short⟩ | ⟨longer, all⟩
    · rw [same]
      refine .inl ⟨rfl, fun lead => ?_⟩
      cases run : Lexeme.blankRun (s.drop word.length) with
      | zero => simp
      | succ n =>
        simp
        omega
    · rw [longer, all]
      refine .inr ⟨?_, fun lead => ?_⟩
      · simp
        omega
      · cases run : (s.drop word.length).length with
        | zero => simp
        | succ n =>
          simp
          omega

/-- What is found after a keyword is found as before, if it is not found at the end. -/
theorem afterKeyword_remark {α : Type} {word : Bytes} (keyword : IsKeyword word)
    (next : Nat → Bytes → Option α)
    (inside : ∀ lead ≤ s.length, next lead (s ++ remark c) = next lead s)
    (beyond : next (s.length + 1) (s ++ remark c) = none) (ended : next s.length s = none) :
    (keyword? word (s ++ remark c)).bind (next · (s ++ remark c)) =
      (keyword? word s).bind (next · s) := by
  rcases keyword?_remark keyword s c with ⟨same, short⟩ | ⟨longer, last⟩
  · rw [same]
    cases found : keyword? word s with
    | none => rfl
    | some lead => exact inside lead (short lead found)
  · rw [longer]
    cases found : keyword? word s with
    | none => exact beyond
    | some lead =>
      obtain rfl := last lead found
      exact beyond.trans ended.symm

theorem dollar_remark (inside : lead ≤ s.length) :
    dollar lead (s ++ remark c) = dollar lead s ∧ dollar lead s ≤ s.length := by
  unfold dollar
  rw [drop_remark inside]
  rcases rest : s.drop lead with _ | ⟨b, more⟩
  · exact ⟨rfl, inside⟩
  · have length := congrArg List.length rest
    rw [List.length_drop, List.length_cons] at length
    refine ⟨rfl, ?_⟩
    split <;> omega

theorem globalKeyword?_remark : globalKeyword? (s ++ remark c) = globalKeyword? s := by
  refine afterKeyword_remark c keywords.1 (fun lead s => (name? (dollar lead s) s).bind
    fun found => some (Spelled.mk ⟨.global, found.1, []⟩ found.2)) ?_ ?_ ?_
  · intro lead inside
    obtain ⟨same, within⟩ := dollar_remark c inside
    simp only [same, name?_remark c within]
  · have plain : dollar (s.length + 1) (s ++ remark c) = s.length + 1 := by
      rw [dollar, drop_beyond]
      rfl
    simp only [plain, name?_beyond, Option.bind_none]
  · have plain : dollar s.length s = s.length := by simp [dollar]
    simp only [plain, name?_end, Option.bind_none]

theorem staticKeyword?_remark : staticKeyword? (s ++ remark c) = staticKeyword? s := by
  refine afterKeyword_remark c keywords.2.1 (fun lead s => (name? lead s).bind
    fun found => some (Spelled.mk ⟨.static, found.1, []⟩ found.2)) ?_ ?_ ?_
  · intro lead inside
    simp only [name?_remark c inside]
  · simp only [name?_beyond, Option.bind_none]
  · simp only [name?_end, Option.bind_none]

theorem dollarName?_remark : dollarName? (s ++ remark c) = dollarName? s := by
  cases s with
  | nil => rfl
  | cons b rest =>
    unfold dollarName?
    rw [name?_remark c (by simp)]
    rfl

theorem plainName?_remark : plainName? (s ++ remark c) = plainName? s := by
  rw [plainName?, plainName?, name?_remark c (Nat.zero_le _)]

theorem parentDotName?_remark (inside : lead ≤ s.length) :
    parentDotName? lead (s ++ remark c) = parentDotName? lead s := by
  unfold parentDotName?
  rw [name?_remark c inside]
  cases found : name? lead s with
  | none => rfl
  | some parent =>
    obtain ⟨p, before⟩ := parent
    obtain ⟨-, tail, place, rfl⟩ := name?_split found
    have length := congrArg List.length place
    rw [List.length_drop, List.length_append] at length
    have inner : lead + p.length ≤ s.length := by omega
    simp only [Option.bind_eq_bind, Option.bind_some, dotName?_remark c inner]

theorem parentDotName?_eq_none_of_name? (unnamed : name? lead s = none) :
    parentDotName? lead s = none := by
  rw [parentDotName?, unnamed]
  rfl

theorem localKeyword?_remark : localKeyword? (s ++ remark c) = localKeyword? s :=
  afterKeyword_remark c keywords.2.2 parentDotName?
    (fun _ inside => parentDotName?_remark c inside)
    (parentDotName?_eq_none_of_name? (name?_beyond c s))
    (parentDotName?_eq_none_of_name? (name?_end s))

theorem bareDotName?_remark (parent : Bytes) (inside : lead ≤ s.length) :
    bareDotName? parent lead (s ++ remark c) = bareDotName? parent lead s := by
  rw [bareDotName?, bareDotName?, dotName?_remark c inside]

theorem localKeywordBare?_remark (parent : Bytes) :
    localKeywordBare? parent (s ++ remark c) = localKeywordBare? parent s := by
  refine afterKeyword_remark c keywords.2.2 (bareDotName? parent)
    (fun _ inside => bareDotName?_remark c parent inside) ?_ ?_
  · rw [bareDotName?, dotName?_beyond, Option.map_none]
  · rw [bareDotName?, dotName?_end, Option.map_none]

/-- Every form finds the same with a comment added. -/
theorem form_remark {parent : Bytes} {form : Bytes → Option Spelled}
    (member : form ∈ declarationForms parent ++ referenceForms parent) :
    form (s ++ remark c) = form s := by
  simp only [declarationForms, referenceForms, List.cons_append, List.nil_append, List.mem_cons,
    List.not_mem_nil, or_false] at member
  rcases member with rfl | rfl | rfl | rfl | rfl | rfl | rfl | rfl | rfl | rfl | rfl | rfl | rfl |
    rfl | rfl <;>
    simp only [globalKeyword?_remark, dollarName?_remark, staticKeyword?_remark, plainName?_remark,
      localKeyword?_remark, localKeywordBare?_remark, parentDotName?_remark c (Nat.zero_le _),
      bareDotName?_remark c parent (Nat.zero_le _)]

theorem form_fits {parent : Bytes} {form : Bytes → Option Spelled}
    (member : form ∈ declarationForms parent ++ referenceForms parent) {s : Bytes} {x : Spelled}
    (found : form s = some x) : Fits parent s x :=
  (List.mem_append.mp member).elim (declarationForms_fits · found) (referenceForms_fits · found)

theorem Fits.length_le {parent s : Bytes} {x : Spelled} (fits : Fits parent s x) :
    x.length ≤ s.length := by
  obtain ⟨text, tail, rfl, length, -⟩ := fits
  simp [length]

/-- At the end of a line there is no label. -/
theorem form_eq_none {parent : Bytes} {form : Bytes → Option Spelled}
    (member : form ∈ declarationForms parent ++ referenceForms parent) {rest : Bytes}
    (ends : EndsLine rest) : form rest = none := by
  cases found : form rest with
  | none => rfl
  | some x =>
    obtain ⟨text, tail, rfl, -, spelled⟩ := form_fits member found
    obtain ⟨b, more, rfl, start⟩ := spelled.head
    obtain rfl : b = Byte.semicolon := ends b rfl
    exact absurd start (by decide +kernel)

end Spelled

/-- A comment ends no declaration. -/
theorem declarationEnd?_remark (s c : Bytes) : declarationEnd? (s ++ remark c) = declarationEnd? s := by
  cases s with
  | nil => rfl
  | cons b rest =>
    unfold declarationEnd?
    rw [List.cons_append, List.head?_cons, List.head?_cons, ← List.cons_append]
    split
    · rfl
    · dsimp only
      rcases Lexeme.blankRun_remark (b :: rest) c with ⟨same, short⟩ | ⟨longer, all⟩
      · rw [same, drop_remark short.le, Lexeme.wholeWord_remark equ_isKeyword]
      · have after : Lexeme.wholeWord (ascii "EQU") (Byte.semicolon :: c) = 0 := rfl
        have wordless : Lexeme.wholeWord (ascii "EQU") [] = 0 := rfl
        rw [longer, drop_beyond, after, all, List.drop_length, wordless]
        simp

theorem declaredBy?_remark {parent : Bytes} {form : Bytes → Option Spelled}
    (member : form ∈ declarationForms parent) (s c : Bytes) :
    declaredBy? (s ++ remark c) form = declaredBy? s form := by
  have listed := List.mem_append_left (referenceForms parent) member
  unfold declaredBy?
  rw [Spelled.form_remark c listed]
  cases found : form s with
  | none => rfl
  | some x =>
    have inside := (Spelled.form_fits listed found).length_le
    simp only [Option.bind_eq_bind, Option.bind_some, drop_remark inside, declarationEnd?_remark]

theorem declaredBy?_length_le {parent : Bytes} {form : Bytes → Option Spelled}
    (member : form ∈ declarationForms parent) {s : Bytes} {x : Spelled}
    (found : declaredBy? s form = some x) : x.length ≤ s.length := by
  simp only [declaredBy?, Option.bind_eq_bind, Option.bind_eq_some_iff] at found
  obtain ⟨plain, formed, ending, ended, same⟩ := found
  obtain rfl := Option.some.inj same
  have inside := (declarationForms_fits member formed).length_le
  rcases declarationEnd?_cases ended with rfl | ⟨rfl, rest, colon⟩
  · exact inside
  · have length := congrArg List.length colon
    rw [List.length_drop, List.length_cons] at length
    dsimp only
    omega

/-! ### Places in a line and in the line with a comment -/

namespace Cursor

def remarked (c : Bytes) (p : Cursor) : Cursor := ⟨p.offset, p.rest ++ remark c⟩

/-- Places that correspond: the same place, or the end of the line and the semicolon. -/
inductive Beside (c : Bytes) : Cursor → Cursor → Prop where
  | before (p : Cursor) : Beside c p (p.remarked c)
  | beyond (offset : Nat) : Beside c ⟨offset, []⟩ ⟨offset + 1, Byte.semicolon :: c⟩

variable {c : Bytes} {p q : Cursor}

theorem advance_remarked {n : Nat} (inside : n ≤ p.rest.length) :
    (p.remarked c).advance n = (p.advance n).remarked c := by
  simp only [advance, remarked, drop_remark inside, List.take_append_of_le_length inside]

/-- After blanks, the places are the same before the end and differ at it. -/
theorem Beside.skipBlanks (beside : Beside c p q) :
    (p.skipBlanks.rest ≠ [] ∧ q.skipBlanks = p.skipBlanks.remarked c) ∨
      (p.skipBlanks.rest = [] ∧ q.skipBlanks = ⟨p.skipBlanks.offset + 1, Byte.semicolon :: c⟩) := by
  cases beside with
  | before =>
    rcases Lexeme.blankRun_remark p.rest c with ⟨same, short⟩ | ⟨longer, all⟩
    · refine .inl ⟨?_, ?_⟩
      · rw [Cursor.skipBlanks, rest_advance, ne_eq, List.drop_eq_nil_iff]
        omega
      · have run : Lexeme.blankRun (p.remarked c).rest = Lexeme.blankRun p.rest := same
        rw [Cursor.skipBlanks, run, advance_remarked short.le]
        rfl
    · refine .inr ⟨?_, ?_⟩
      · rw [Cursor.skipBlanks, rest_advance, all, List.drop_length]
      · have run : Lexeme.blankRun (p.remarked c).rest = p.rest.length + 1 := longer
        rw [Cursor.skipBlanks, Cursor.skipBlanks, run, all]
        simp [advance, remarked, remark]
        omega
  | beyond offset => exact .inr ⟨rfl, rfl⟩

end Cursor

/-! ### Labels at a place -/

namespace Cursor

/-- The label that a search finds after blanks, made of it and its text, and the place after it. -/
def spelled? {α : Type} (find : Bytes → Option Spelled) (make : Label → Bytes → α) (p : Cursor) :
    Option (α × Cursor) :=
  match find p.skipBlanks.rest with
  | none => none
  | some x => some (make x.label (p.skipBlanks.rest.take x.length), p.skipBlanks.advance x.length)

theorem spelled?_remark {α : Type} (find : Bytes → Option Spelled) (make : Label → Bytes → α)
    {c : Bytes} (stable : ∀ s, find (s ++ remark c) = find s)
    (short : ∀ s x, find s = some x → x.length ≤ s.length)
    (ended : ∀ rest, EndsLine rest → find rest = none) (p : Cursor) :
    (p.remarked c).spelled? find make =
      (p.spelled? find make).map fun (label, after) => (label, after.remarked c) := by
  unfold spelled?
  rcases (Beside.before p : Beside c p _).skipBlanks with ⟨-, same⟩ | ⟨last, later⟩
  · have found : find (p.skipBlanks.remarked c).rest = find p.skipBlanks.rest := stable _
    rw [same, found]
    cases spelled : find p.skipBlanks.rest with
    | none => rfl
    | some x =>
      have inside := short _ x spelled
      have source : (p.skipBlanks.remarked c).rest.take x.length = p.skipBlanks.rest.take x.length :=
        List.take_append_of_le_length inside
      simp only [source, advance_remarked inside, Option.map_some]
  · rw [later, last, ended _ (by simp [EndsLine]), ended _ (by simp [EndsLine])]
    rfl

end Cursor

theorem findSome?_congr {α β : Type} {l : List α} {f g : α → Option β}
    (same : ∀ x ∈ l, f x = g x) : l.findSome? f = l.findSome? g := by
  rw [← List.head?_filterMap, ← List.head?_filterMap, List.filterMap_congr same]

namespace Scope

variable (scope : Scope) (line : Int) (c : Bytes) (p : Cursor)

theorem declaration?_remark : scope.declaration? line (p.remarked c) =
    (scope.declaration? line p).map fun (d, after) => (d, after.remarked c) := by
  refine Cursor.spelled?_remark
    (fun s => (declarationForms scope.parent).findSome? (declaredBy? s))
    (fun label source => Declaration.mk label scope.file line source) ?_ ?_ ?_ p
  · exact fun s => findSome?_congr fun form member => declaredBy?_remark member s c
  · intro s x found
    obtain ⟨form, member, declared⟩ := List.exists_of_findSome?_eq_some found
    exact declaredBy?_length_le member declared
  · exact fun rest ends => List.findSome?_eq_none_iff.mpr fun form member =>
      declaredBy?_eq_none (Spelled.form_eq_none (List.mem_append_left _ member) ends)

theorem reference?_remark : scope.reference? line (p.remarked c) =
    (scope.reference? line p).map fun (r, after) => (r, after.remarked c) := by
  refine Cursor.spelled?_remark (fun s => (referenceForms scope.parent).findSome? (· s))
    (fun label source =>
      Reference.mk label (if label.kind = .global then [] else scope.file) line source) ?_ ?_ ?_ p
  · exact fun s => findSome?_congr fun form member =>
      Spelled.form_remark c (List.mem_append_right _ member)
  · intro s x found
    obtain ⟨form, member, spelled⟩ := List.exists_of_findSome?_eq_some found
    exact (referenceForms_fits member spelled).length_le
  · exact fun rest ends => List.findSome?_eq_none_iff.mpr fun form member =>
      Spelled.form_eq_none (List.mem_append_right _ member) ends

end Scope

/-! ### Quotations -/

namespace Lexeme

variable {mark : UInt8} {length characters : Nat} {s : Bytes} {q : Quotation}

theorem quotationFrom_bounds (found : quotationFrom mark length characters s = some q) :
    characters ≤ q.characters ∧ q.length ≤ length + s.length := by
  fun_induction quotationFrom mark length characters s with
  | case1 => contradiction
  | case2 => contradiction
  | case3 length characters b more c rest ih =>
    have bounds := ih found
    simp only [List.length_cons]
    omega
  | case4 length characters b rest other closes =>
    obtain rfl := Option.some.inj found
    simp
  | case5 length characters b rest other inside ih =>
    have bounds := ih found
    simp only [List.length_cons]
    omega

theorem quotationFrom_cons {b : UInt8} (plain : ¬ (b == Byte.backslash) = true) (rest : Bytes) :
    quotationFrom mark length characters (b :: rest) =
      if b == mark then some ⟨length + 1, characters⟩
      else quotationFrom mark (length + 1) (characters + 1) rest := by
  rw [quotationFrom.eq_def]
  exact if_neg plain

theorem quotationFrom_escape {b : UInt8} (escape : (b == Byte.backslash) = true) (next : UInt8)
    (rest : Bytes) : quotationFrom mark length characters (b :: next :: rest) =
      quotationFrom mark (length + 2) (characters + 1) rest := by
  rw [quotationFrom.eq_def]
  exact if_pos escape

/-- A comment that closes a quotation makes it longer than one character. -/
theorem quotationFrom_remark (blank : mark ≠ Byte.blank) (semicolon : mark ≠ Byte.semicolon)
    (c : Bytes) :
    quotationFrom mark length characters (s ++ remark c) = quotationFrom mark length characters s ∨
      (quotationFrom mark length characters s = none ∧
        ∀ q, quotationFrom mark length characters (s ++ remark c) = some q →
          characters + 2 ≤ q.characters) := by
  have unquoted : ¬ (Byte.blank == mark) = true := by simpa using blank.symm
  have unquoted' : ¬ (Byte.semicolon == mark) = true := by simpa using semicolon.symm
  fun_induction quotationFrom mark length characters s with
  | case1 length characters =>
    refine .inr ⟨rfl, fun q found => ?_⟩
    rw [List.nil_append, remark, quotationFrom_cons (by decide), if_neg unquoted,
      quotationFrom_cons (by decide), if_neg unquoted'] at found
    exact (quotationFrom_bounds found).1
  | case2 length characters b escape =>
    refine .inr ⟨rfl, fun q found => ?_⟩
    rw [List.cons_append, List.nil_append, remark, quotationFrom_escape escape,
      quotationFrom_cons (by decide), if_neg unquoted'] at found
    exact (quotationFrom_bounds found).1
  | case3 length characters b escape next rest ih =>
    rw [List.cons_append, List.cons_append, quotationFrom_escape escape]
    rcases ih with same | ⟨unclosed, longer⟩
    · exact .inl same
    · refine .inr ⟨unclosed, fun q found => ?_⟩
      have more := longer q found
      omega
  | case4 length characters b rest plain closes =>
    left
    rw [List.cons_append, quotationFrom_cons plain, if_pos closes]
  | case5 length characters b rest plain inside ih =>
    rw [List.cons_append, quotationFrom_cons plain, if_neg inside]
    rcases ih with same | ⟨unclosed, longer⟩
    · exact .inl same
    · refine .inr ⟨unclosed, fun q found => ?_⟩
      have more := longer q found
      omega

/-- A quotation that is closed is found as before, and a comment does not make a single character
of one that is not. -/
theorem quotation?_remark (blank : mark ≠ Byte.blank) (semicolon : mark ≠ Byte.semicolon)
    (s c : Bytes) : quotation? mark (s ++ remark c) = quotation? mark s ∨
      (quotation? mark s = none ∧ ∀ q, quotation? mark (s ++ remark c) = some q →
        2 ≤ q.characters) := by
  cases s with
  | nil =>
    have unquoted : (Byte.blank == mark) = false := by simpa using blank.symm
    simp [remark, quotation?, unquoted]
  | cons b rest =>
    rw [List.cons_append, quotation?, quotation?]
    split
    · simpa using quotationFrom_remark blank semicolon c
    · exact .inl rfl

theorem quotation?_length_le (found : quotation? mark s = some q) : q.length ≤ s.length := by
  cases s with
  | nil => contradiction
  | cons b rest =>
    rw [quotation?] at found
    split at found
    · have bounds := (quotationFrom_bounds found).2
      rw [List.length_cons]
      omega
    · contradiction

end Lexeme

/-! ### Leaves -/

theorem NumberLiteral.first?_remark (s c : Bytes) : first? (s ++ remark c) = first? s := by
  cases s with
  | nil => rfl
  | cons b rest =>
    have inside := Lexeme.wordRun_le (b :: rest)
    rw [first?, first?, Lexeme.wordRun_remark, List.take_append_of_le_length inside]
    rfl

theorem NumberLiteral.word_length_le {s : Bytes} {n : NumberLiteral} (found : first? s = some n) :
    n.word.length ≤ s.length := by
  unfold first? at found
  split at found
  · simp only [ofWord?] at found
    split at found
    · contradiction
    · obtain rfl := Option.some.inj found
      exact List.length_take_le' ..
  · contradiction

namespace Term

variable (scope : Scope) (line : Int) (c : Bytes) (p : Cursor)

theorem number?_remark : number? (p.remarked c) =
    (number? p).map fun (e, after) => (e, after.remarked c) := by
  have same : NumberLiteral.first? (p.remarked c).rest = NumberLiteral.first? p.rest :=
    NumberLiteral.first?_remark p.rest c
  unfold number?
  rw [same]
  cases found : NumberLiteral.first? p.rest with
  | none => rfl
  | some n =>
    simp only [Option.map_some, Cursor.advance_remarked (NumberLiteral.word_length_le found)]

theorem label?_remark : label? scope line (p.remarked c) =
    (label? scope line p).map fun (e, after) => (e, after.remarked c) := by
  rw [label?, label?, scope.reference?_remark, Option.map_map, Option.map_map]
  rfl

theorem character?_remark : character? (p.remarked c) =
    (character? p).map fun (e, after) => (e, after.remarked c) := by
  have rest : (p.remarked c).rest = p.rest ++ remark c := rfl
  unfold character?
  rw [rest]
  rcases @Lexeme.quotation?_remark Byte.singleQuote (by decide) (by decide) p.rest c with
    same | ⟨unclosed, longer⟩
  · rw [same]
    split
    next length found =>
      have inside : length ≤ p.rest.length := Lexeme.quotation?_length_le found
      simp only [List.take_append_of_le_length inside, Cursor.advance_remarked inside,
        Option.map_some]
    next => rfl
  · rw [unclosed]
    split
    next length found => exact absurd (longer _ found) (by simp)
    next => rfl

theorem here?_remark : here? (p.remarked c) =
    (here? p).map fun (e, after) => (e, after.remarked c) := by
  unfold here?
  obtain ⟨offset, rest⟩ := p
  cases rest with
  | nil => rfl
  | cons b rest =>
    have next : ((Cursor.mk offset (b :: rest)).remarked c).next? =
        (Cursor.mk offset (b :: rest)).next? := rfl
    have tail : Lexeme.continuesName (((Cursor.mk offset (b :: rest)).remarked c).rest.drop 1) =
        Lexeme.continuesName ((Cursor.mk offset (b :: rest)).rest.drop 1) :=
      Lexeme.continuesName_remark rest c
    rw [next, tail, Cursor.advance_remarked (by simp)]
    split <;> rfl

theorem leaf?_remark : leaf? scope line (p.remarked c) =
    (leaf? scope line p).map fun (e, after) => (e, after.remarked c) := by
  rw [leaf?, leaf?, number?_remark, label?_remark, character?_remark, here?_remark]
  simp only [Option.map_or]

end Term

end Assembler8080
