import Assembler8080.Proofs.Lookups
import Assembler8080.Proofs.Spelling

/-! A declaration and a reference that are spelled the same. What a declaration writes, without its
colon, is a spelling of its label (`LabelText`), and so is read as a reference to that label. In a
table the two meet in one symbol, whichever is looked up first: a reference finds the file that
declares a global label through the index, and a declaration takes the symbol that waits for its
file (`Takes`). -/
namespace Assembler8080

/-! ### What the forms take from a text -/

theorem Lexeme.name_le (s : Bytes) : name s ≤ s.length := by
  cases s with
  | nil => exact Nat.le_refl 0
  | cons b rest =>
    have run : wordRun rest ≤ rest.length := (List.takeWhile_prefix _).length_le
    rw [name, List.length_cons]
    split <;> omega

namespace Spelled

theorem name?_split {lead length : Nat} {s n : Bytes} (found : name? lead s = some (n, length)) :
    IsName n ∧ ∃ tail, s.drop lead = n ++ tail ∧ length = lead + n.length := by
  have name := name?_isName found
  simp only [name?] at found
  split at found
  next => contradiction
  next k named =>
    obtain ⟨rfl, rfl⟩ := Prod.mk.inj (Option.some.inj found)
    have inside : k + 1 ≤ (s.drop lead).length := Nat.le_trans named.ge (Lexeme.name_le _)
    refine ⟨name, (s.drop lead).drop (k + 1), (List.take_append_drop ..).symm, ?_⟩
    rw [List.length_take_of_le inside]

theorem dotName?_split {lead length : Nat} {s n : Bytes}
    (found : dotName? lead s = some (n, length)) :
    IsName n ∧ ∃ tail, s.drop lead = Byte.dot :: (n ++ tail) ∧ length = lead + 1 + n.length := by
  unfold dotName? at found
  split at found
  next dot =>
    obtain ⟨name, tail, place, counted⟩ := name?_split found
    obtain ⟨rest, starts⟩ := List.head?_eq_some_iff.mp dot
    rw [← List.drop_drop, starts, List.drop_succ_cons, List.drop_zero] at place
    exact ⟨name, tail, starts.trans (congrArg _ place), counted⟩
  next => contradiction

theorem keyword?_split {word s : Bytes} {lead : Nat} (keyword : IsKeyword word)
    (found : keyword? word s = some lead) : ∃ k gap tail, AnyCase word k ∧ IsGap gap ∧
      s = k ++ (gap ++ tail) ∧ lead = k.length + gap.length := by
  obtain ⟨same, spaced, counted⟩ := keyword?_cases keyword found
  have blanks : IsGap ((s.drop word.length).takeWhile Byte.isBlank) :=
    ⟨fun _ member => List.mem_takeWhile_imp member, List.length_pos_iff.mp spaced⟩
  refine ⟨_, _, (s.drop word.length).dropWhile Byte.isBlank, same, blanks, ?_, ?_⟩
  · rw [List.takeWhile_append_dropWhile, List.take_append_drop]
  · rw [same.length]
    exact counted

/-- A text that starts with a spelling of the label, of the given length. -/
def Fits (parent s : Bytes) (x : Spelled) : Prop :=
  ∃ text tail, s = text ++ tail ∧ x.length = text.length ∧ LabelText parent x.label text

variable {parent s : Bytes} {x : Spelled}

theorem globalKeyword?_fits (found : globalKeyword? s = some x) : Fits parent s x := by
  simp only [globalKeyword?, Option.bind_eq_bind, Option.bind_eq_some_iff] at found
  obtain ⟨lead, keyword, ⟨n, length⟩, named, same⟩ := found
  obtain rfl := Option.some.inj same
  obtain ⟨k, gap, rest, word, blank, rfl, rfl⟩ := keyword?_split keywords.1 keyword
  obtain ⟨name, tail, place, rfl⟩ := name?_split named
  rw [dollar, drop_keyword] at place ⊢
  split at place
  next mark =>
    obtain ⟨after, rfl⟩ := List.head?_eq_some_iff.mp (beq_iff_eq.mp mark)
    rw [← List.drop_drop, drop_keyword, List.drop_succ_cons, List.drop_zero] at place
    refine ⟨_, tail, ?_, ?_, .globalKeywordDollar word blank name⟩
    · simp [place]
    · simp
      omega
  next mark =>
    rw [drop_keyword] at place
    refine ⟨_, tail, ?_, ?_, .globalKeyword word blank name⟩
    · simp [place]
    · simp [mark]
      omega

theorem dollarName?_fits (found : dollarName? s = some x) : Fits parent s x := by
  unfold dollarName? at found
  split at found
  next mark =>
    obtain ⟨⟨n, length⟩, named, rfl⟩ := Option.map_eq_some_iff.mp found
    obtain ⟨name, tail, place, rfl⟩ := name?_split named
    obtain ⟨rest, rfl⟩ := List.head?_eq_some_iff.mp mark
    obtain rfl : rest = n ++ tail := place
    exact ⟨_, tail, rfl, Nat.add_comm .., .dollar name⟩
  next => contradiction

theorem staticKeyword?_fits (found : staticKeyword? s = some x) : Fits parent s x := by
  simp only [staticKeyword?, Option.bind_eq_bind, Option.bind_eq_some_iff] at found
  obtain ⟨lead, keyword, ⟨n, length⟩, named, same⟩ := found
  obtain rfl := Option.some.inj same
  obtain ⟨k, gap, rest, word, blank, rfl, rfl⟩ := keyword?_split keywords.2.1 keyword
  obtain ⟨name, tail, place, rfl⟩ := name?_split named
  rw [drop_keyword] at place
  refine ⟨_, tail, ?_, ?_, .staticKeyword word blank name⟩
  · simp [place]
  · simp
    omega

theorem plainName?_fits (found : plainName? s = some x) : Fits parent s x := by
  obtain ⟨⟨n, length⟩, named, rfl⟩ := Option.map_eq_some_iff.mp found
  obtain ⟨name, tail, place, rfl⟩ := name?_split named
  exact ⟨n, tail, place, Nat.zero_add _, .plain name⟩

theorem parentDotName?_split {lead : Nat} (found : parentDotName? lead s = some x) :
    ∃ p n tail, IsName p ∧ IsName n ∧ s.drop lead = p ++ Byte.dot :: (n ++ tail) ∧
      x = ⟨⟨.nested, n, p⟩, lead + (p ++ Byte.dot :: n).length⟩ := by
  simp only [parentDotName?, Option.bind_eq_bind, Option.bind_eq_some_iff] at found
  obtain ⟨⟨p, before⟩, parentNamed, ⟨n, length⟩, named, same⟩ := found
  obtain rfl := Option.some.inj same
  obtain ⟨above, rest, start, rfl⟩ := name?_split parentNamed
  obtain ⟨name, tail, place, rfl⟩ := dotName?_split named
  rw [← List.drop_drop, start, List.drop_left] at place
  refine ⟨p, n, tail, above, name, place ▸ start, ?_⟩
  simp
  omega

theorem parentDotName?_fits (found : parentDotName? 0 s = some x) : Fits parent s x := by
  obtain ⟨p, n, tail, above, name, place, rfl⟩ := parentDotName?_split found
  rw [List.drop_zero] at place
  refine ⟨_, tail, ?_, Nat.zero_add _, .nested above name⟩
  simp [place]

theorem localKeyword?_fits (found : localKeyword? s = some x) : Fits parent s x := by
  simp only [localKeyword?, Option.bind_eq_bind, Option.bind_eq_some_iff] at found
  obtain ⟨lead, keyword, found⟩ := found
  obtain ⟨k, gap, rest, word, blank, rfl, rfl⟩ := keyword?_split keywords.2.2 keyword
  obtain ⟨p, n, tail, above, name, place, rfl⟩ := parentDotName?_split found
  rw [drop_keyword] at place
  refine ⟨_, tail, ?_, ?_, .nestedKeyword word blank above name⟩
  · simp [place]
  · simp
    omega

theorem bareDotName?_fits (found : bareDotName? parent 0 s = some x) : Fits parent s x := by
  obtain ⟨⟨n, length⟩, named, rfl⟩ := Option.map_eq_some_iff.mp found
  obtain ⟨name, tail, place, rfl⟩ := dotName?_split named
  rw [List.drop_zero] at place
  refine ⟨_, tail, place, ?_, .bare name⟩
  simp
  omega

theorem localKeywordBare?_fits (found : localKeywordBare? parent s = some x) : Fits parent s x := by
  simp only [localKeywordBare?, Option.bind_eq_bind, Option.bind_eq_some_iff] at found
  obtain ⟨lead, keyword, found⟩ := found
  obtain ⟨k, gap, rest, word, blank, rfl, rfl⟩ := keyword?_split keywords.2.2 keyword
  obtain ⟨⟨n, length⟩, named, rfl⟩ := Option.map_eq_some_iff.mp found
  obtain ⟨name, tail, place, rfl⟩ := dotName?_split named
  rw [drop_keyword] at place
  refine ⟨_, tail, ?_, ?_, .bareKeyword word blank name⟩
  · simp [place]
  · simp
    omega

end Spelled

open Spelled

theorem declarationForms_fits {parent s : Bytes} {form : Bytes → Option Spelled} {x : Spelled}
    (member : form ∈ declarationForms parent) (found : form s = some x) : Fits parent s x := by
  simp only [declarationForms, List.mem_cons, List.not_mem_nil, or_false] at member
  rcases member with rfl | rfl | rfl | rfl | rfl | rfl | rfl
  · exact globalKeyword?_fits found
  · exact dollarName?_fits found
  · exact staticKeyword?_fits found
  · exact plainName?_fits found
  · exact localKeyword?_fits found
  · exact parentDotName?_fits found
  · exact bareDotName?_fits found

theorem referenceForms_fits {parent s : Bytes} {form : Bytes → Option Spelled} {x : Spelled}
    (member : form ∈ referenceForms parent) (found : form s = some x) : Fits parent s x := by
  simp only [referenceForms, List.mem_cons, List.not_mem_nil, or_false] at member
  rcases member with rfl | rfl | rfl | rfl | rfl | rfl | rfl | rfl
  · exact globalKeyword?_fits found
  · exact dollarName?_fits found
  · exact staticKeyword?_fits found
  · exact localKeyword?_fits found
  · exact localKeywordBare?_fits found
  · exact parentDotName?_fits found
  · exact plainName?_fits found
  · exact bareDotName?_fits found

/-! ### What a declaration writes -/

/-- The text of a declaration without its colon. -/
def Declaration.written (d : Declaration) : Bytes :=
  if d.source.getLast? = some Byte.colon then d.source.dropLast else d.source

namespace LabelText

variable {parent s : Bytes} {l : Label}

theorem ends (text : LabelText parent l s) : IsName l.text ∧ ∃ lead, s = lead ++ l.text := by
  cases text with
  | dollar name => exact ⟨name, [Byte.dollar], rfl⟩
  | @globalKeyword k gap _ _ _ name => exact ⟨name, k ++ gap, by simp⟩
  | @globalKeywordDollar k gap _ _ _ name => exact ⟨name, k ++ gap ++ [Byte.dollar], by simp⟩
  | plain name => exact ⟨name, [], rfl⟩
  | @staticKeyword k gap _ _ _ name => exact ⟨name, k ++ gap, by simp⟩
  | @nested p _ _ name => exact ⟨name, p ++ [Byte.dot], by simp⟩
  | @nestedKeyword k gap p _ _ _ _ name => exact ⟨name, k ++ gap ++ p ++ [Byte.dot], by simp⟩
  | bare name => exact ⟨name, [Byte.dot], rfl⟩
  | @bareKeyword k gap _ _ _ name => exact ⟨name, k ++ gap ++ [Byte.dot], by simp⟩

/-- A spelling does not end in a colon, so that one after it is not part of it. -/
theorem last_ne_colon (text : LabelText parent l s) : s.getLast? ≠ some Byte.colon := by
  obtain ⟨name, lead, rfl⟩ := text.ends
  cases last : l.text.getLast? with
  | none => exact absurd (List.getLast?_eq_none_iff.mp last) name.ne_nil
  | some b =>
    have member : b ∈ l.text := List.mem_of_getLast? last
    rw [List.getLast?_append, last, Option.some_or]
    rintro ⟨⟩
    exact name.notMem (by decide) member

theorem kind (text : LabelText parent l s) : l.kind ≠ .kindless := by
  cases text <;> simp

theorem proper_of_global (text : LabelText parent l s) (global : l.kind = .global) : l.Proper := by
  refine ⟨text.kind, text.ends.1, .inl ?_⟩
  cases text <;> first | rfl | contradiction

end LabelText

/-- A label takes some of the line. -/
theorem Scope.reference?_offset {scope : Scope} {line : Int} {c d : Cursor} {r : Reference}
    (read : scope.reference? line c = some (r, d)) : c.offset < d.offset := by
  simp only [reference?] at read
  split at read
  next => contradiction
  next x first =>
    obtain ⟨-, rfl⟩ := Prod.mk.inj (Option.some.inj read)
    obtain ⟨form, member, found⟩ := List.exists_of_findSome?_eq_some first
    obtain ⟨text, tail, rest, length, spelled⟩ := referenceForms_fits member found
    obtain ⟨name, lead, rfl⟩ := spelled.ends
    have start := (Cursor.Reaches.skipBlanks c).offset_le
    have positive := List.length_pos_iff.mpr name.ne_nil
    simp only [Cursor.advance, rest, length, List.length_take, List.length_append]
    omega

theorem declarationEnd?_cases {s : Bytes} {ending : Nat} (found : declarationEnd? s = some ending) :
    ending = 0 ∨ ending = 1 ∧ ∃ rest, s = Byte.colon :: rest := by
  unfold declarationEnd? at found
  split at found
  next colon => exact .inr ⟨(Option.some.inj found).symm, List.head?_eq_some_iff.mp colon⟩
  next =>
    dsimp only at found
    split at found
    · exact .inl (Option.some.inj found).symm
    · contradiction

/-- What a declaration writes is a spelling of its label. -/
theorem Scope.declaration?_written {scope : Scope} {line : Int} {c after : Cursor} {d : Declaration}
    (read : scope.declaration? line c = some (d, after)) :
    LabelText scope.parent d.toLabel d.written ∧ d.file = scope.file := by
  simp only [declaration?] at read
  split at read
  next => contradiction
  next x first =>
    obtain ⟨rfl, -⟩ := Prod.mk.inj (Option.some.inj read)
    obtain ⟨form, member, declared⟩ := List.exists_of_findSome?_eq_some first
    simp only [declaredBy?, Option.bind_eq_bind, Option.bind_eq_some_iff] at declared
    obtain ⟨plain, formed, ending, ended, same⟩ := declared
    obtain rfl := Option.some.inj same
    obtain ⟨text, tail, start, length, spelling⟩ := declarationForms_fits member formed
    refine ⟨?_, rfl⟩
    rw [start, length, List.drop_left] at ended
    have written : Declaration.written ⟨plain.label, scope.file, line,
        c.skipBlanks.rest.take (plain.length + ending)⟩ = text := by
      unfold Declaration.written
      dsimp only
      rw [start, length]
      rcases declarationEnd?_cases ended with rfl | ⟨rfl, rest, rfl⟩
      · rw [Nat.add_zero, List.take_left, if_neg spelling.last_ne_colon]
      · rw [List.take_length_add_append]
        simp
    rw [written]
    exact spelling

/-! ### Meeting in a table -/

/-- A reference to the label that is declared. Only a global one may come from another file; the
parent of a nested one may be any text. -/
structure Reference.Meets (r : Reference) (d : Declaration) : Prop where
  label : r.toLabel = d.toLabel
  file : d.kind ≠ .global → r.file = d.file
  kind : d.kind ≠ .kindless
  proper : d.kind = .global → d.toLabel.Proper

namespace SymbolTable

variable {t u : SymbolTable} {d : Declaration} {r : Reference} {s : Symbol} {key : Bytes}

theorem refer_of_hit (kind : r.kind ≠ .kindless) (hit : t.get? (t.referenceKey r) = some s) :
    t.refer r = (t, some (t.referenceKey r)) := by
  simp [refer, kind, find?, contains_eq, hit]

theorem refer_of_miss (kind : r.kind ≠ .kindless) (miss : t.get? (t.referenceKey r) = none)
    (unawaited : r.kind = .global → t.get? (pendingKey r.toLabel) = none) :
    t.refer r = (t.insert (t.referenceKey r) (Symbol.ofReference r), some (t.referenceKey r)) := by
  have unfound : t.find? r = none := by
    simp only [find?, contains_eq, miss]
    simp +contextual [unawaited]
  simp [refer, kind, unfound]

/-- The symbol that an accepted declaration takes as its own: the one under its key, or the one of a
global label that waits for its file. -/
inductive Takes (t : SymbolTable) (d : Declaration) : Bytes → Symbol → Prop where
  | own {s : Symbol} (hit : t.get? d.key = some s) (line : s.line = 0 ∨ s.line = d.line)
      (file : d.kind = .global → isConcrete d.file = true → s.file = d.file) : Takes t d d.key s
  | waiting {s : Symbol} (miss : t.get? d.key = none) (global : d.kind = .global)
      (concrete : isConcrete d.file = true) (undeclared : t.globals[d.text]? = none)
      (found : t.get? (pendingKey d.toLabel) = some s) : Takes t d (pendingKey d.toLabel) s

/-- The declaration is accepted, its symbol has the given value and uses and the place of the
declaration, and no symbol is left under `key` beside it. -/
def Yields (t : SymbolTable) (d : Declaration) (key : Bytes) (v : Value) (uses : List Location) :
    Prop :=
  ∃ u s, t.declare d = ⟨u, some d.key, none⟩ ∧ u.get? d.key = some s ∧
    (key ≠ d.key → u.get? key = none) ∧ s.value = v ∧ s.uses = uses ∧ s.line = d.line ∧
    (d.kind = .global → isConcrete d.file = true → s.file = d.file)

namespace Takes

theorem found (takes : Takes t d key s) : t.get? key = some s := by
  cases takes with
  | own hit => exact hit
  | waiting _ _ _ _ found => exact found

/-- What the client writes in the symbol does not keep the declaration from taking it. -/
theorem write (takes : Takes t d key s) (v : Value) (uses : List Location) :
    Takes (t.write key v uses) d key { s with value := v, uses := uses } := by
  cases takes with
  | own hit line file => exact .own (by simp [get?_write, hit]) line file
  | waiting miss global concrete undeclared found =>
    have apart := ne_of_missing miss found
    exact .waiting (by simp [get?_write, apart.symm, miss]) global concrete undeclared
      (by simp [get?_write, found])

theorem yields (takes : Takes t d key s) (kind : d.kind ≠ .kindless) :
    t.Yields d key s.value s.uses := by
  cases takes with
  | own hit line file =>
    by_cases unknown : s.line = 0
    · refine ⟨t.insert d.key { s with line := d.line }, { s with line := d.line }, ?_, ?_⟩
      · simp [declare, kind, hit, unknown]
      · exact ⟨by simp [get?_insert], fun apart => absurd rfl apart, rfl, rfl, rfl, file⟩
    · have again : s.line = d.line := line.resolve_left unknown
      refine ⟨t, s, ?_, hit, fun apart => absurd rfl apart, rfl, rfl, again, file⟩
      simp [declare, kind, hit, unknown, ← again]
  | waiting miss global concrete undeclared found =>
    refine ⟨t.promote d s, { s with file := d.file, line := d.line }, ?_, ?_⟩
    · simp [declare, miss, declaredElsewhere?, undeclared, pending?, global, concrete, found]
    · refine ⟨by simp [get?_promote], fun apart => ?_, rfl, rfl, rfl, fun _ _ => rfl⟩
      simp [get?_promote, apart.symm]

end Takes

section Meets

variable (meets : r.Meets d)

include meets

theorem referenceKey_of_meets (other : d.kind ≠ .global) : t.referenceKey r = d.key := by
  simp [referenceKey, Reference.key, Declaration.key, meets.label, other, meets.file other]

/-- A global label that no concrete file declares is looked up where it would wait. -/
theorem referenceKey_of_undeclared (global : d.kind = .global)
    (undeclared : t.globals[d.text]? = none) : t.referenceKey r = pendingKey d.toLabel := by
  simp [referenceKey, Reference.key, meets.label, global, undeclared, pendingKey_of_global]

/-- Where the declaration has an entry, a reference is looked up there: under the declaring file if
it is concrete, and else where the label would wait, which is the same key. -/
theorem Consistent.referenceKey_of_hit (valid : t.Consistent) (hit : t.get? d.key = some s) :
    t.referenceKey r = d.key := by
  by_cases global : d.kind = .global
  · obtain ⟨properSymbol, own⟩ := valid.keyed hit
    obtain ⟨⟨kind, text, -⟩, files⟩ := Label.key_inj properSymbol (meets.proper global) own
    have symbolGlobal : s.kind = .global := kind.trans global
    by_cases concrete : isConcrete s.file = true
    · have listed := valid.indexed hit symbolGlobal concrete
      rw [text] at listed
      simp [referenceKey, meets.label, global, listed]
    · have undeclared : t.globals[d.text]? = none := by
        cases declared : t.globals[d.text]? with
        | none => rfl
        | some other =>
          obtain ⟨x, found, kind', text', concrete'⟩ := valid.listed declared
          obtain rfl := valid.single hit found symbolGlobal kind' (text.trans text'.symm)
          obtain rfl := Option.some.inj (hit.symm.trans found)
          contradiction
      rw [referenceKey_of_undeclared meets global undeclared, pendingKey_of_global global]
      exact globalKey_congr global global rfl ((keyFile_of_not_concrete concrete).symm.trans files)
  · exact referenceKey_of_meets meets global

/-- A reference after the declaration finds the symbol of the declaration and changes nothing. -/
theorem Consistent.refer_declared (valid : t.Consistent) (accepted : (t.declare d).fault = none) :
    (t.declare d).key = some d.key ∧
      (t.declare d).table.refer r = ((t.declare d).table, some d.key) := by
  have declared := valid.declared meets.kind
  obtain ⟨key, s, hit, -⟩ := declared.present accepted
  have same : (t.declare d).table.referenceKey r = d.key := by
    by_cases global : d.kind = .global
    · exact (declared.consistent valid (meets.proper global)).referenceKey_of_hit meets hit
    · exact referenceKey_of_meets meets global
  refine ⟨key, ?_⟩
  rw [← same] at hit ⊢
  exact refer_of_hit (meets.label ▸ meets.kind) hit

/-- Where a declaration would make an entry, a reference makes the one that the declaration then
takes. -/
theorem takes_refer_of_miss (miss : t.get? d.key = none)
    (undeclared : d.kind = .global → t.globals[d.text]? = none)
    (alone : d.kind = .global → isConcrete d.file = true → t.get? (pendingKey d.toLabel) = none) :
    ∃ key, (t.refer r).2 = some key ∧ Takes (t.refer r).1 d key (Symbol.ofReference r) := by
  have kind : r.kind ≠ .kindless := meets.label ▸ meets.kind
  by_cases global : d.kind = .global
  · have same := referenceKey_of_undeclared meets global (undeclared global)
    by_cases concrete : isConcrete d.file = true
    · have apart := key_ne_pendingKey (meets.proper global) (meets.proper global) global concrete
      have unawaited := alone global concrete
      rw [refer_of_miss kind (same ▸ unawaited) fun _ => meets.label ▸ unawaited, same]
      refine ⟨_, rfl, .waiting ?_ global concrete (undeclared global) ?_⟩
      · simp [get?_insert, apart.symm, miss]
      · simp [get?_insert]
    · -- The key of an unknown file is the one under which the label would wait.
      have pending : pendingKey d.toLabel = d.key := by
        rw [pendingKey_of_global global]
        exact globalKey_congr global global rfl (keyFile_of_not_concrete concrete).symm
      rw [pending] at same
      rw [refer_of_miss kind (same ▸ miss) fun _ => meets.label ▸ pending ▸ miss, same]
      exact ⟨_, rfl, .own (by simp [get?_insert]) (.inl rfl) fun _ known => absurd known concrete⟩
  · have same : t.referenceKey r = d.key := referenceKey_of_meets meets global
    rw [refer_of_miss kind (same ▸ miss) fun other => absurd (meets.label ▸ other) global, same]
    exact ⟨_, rfl, .own (by simp [get?_insert]) (.inl rfl) fun other => absurd other global⟩

/-- A reference before the declaration is given the symbol that the declaration takes. -/
theorem Consistent.takes_refer (valid : t.Consistent) (accepted : (t.declare d).fault = none) :
    ∃ key s, (t.refer r).2 = some key ∧ Takes (t.refer r).1 d key s := by
  have kind : r.kind ≠ .kindless := meets.label ▸ meets.kind
  have declared := valid.declared meets.kind
  generalize t.declare d = outcome at declared accepted
  cases declared with
  | refused => contradiction
  | @found _ s hit line =>
    have same := valid.referenceKey_of_hit meets hit
    rw [refer_of_hit kind (same ▸ hit), same]
    refine ⟨d.key, s, rfl, .own hit line fun global concrete => ?_⟩
    obtain ⟨properSymbol, own⟩ := valid.keyed hit
    obtain ⟨-, files⟩ := Label.key_inj properSymbol (meets.proper global) own
    exact file_of_keyFile files concrete
  | @promoted s miss global concrete undeclared waiting =>
    have same := referenceKey_of_undeclared meets global undeclared
    rw [refer_of_hit kind (same ▸ waiting), same]
    exact ⟨_, s, rfl, .waiting miss global concrete undeclared waiting⟩
  | entered miss undeclared alone =>
    obtain ⟨key, given, takes⟩ := takes_refer_of_miss meets miss undeclared alone
    exact ⟨key, _, given, takes⟩

end Meets

end SymbolTable

/-- A look-up of a label that is read from a text, where the parent of dotted labels is a name or
there is none. -/
inductive TableStep.IsRead : TableStep → Prop where
  | declare {scope : Scope} {line : Int} {c after : Cursor} {d : Declaration} (above : scope.Proper)
      (read : scope.declaration? line c = some (d, after)) : IsRead (.declare d)
  | refer {scope : Scope} {line : Int} {c after : Cursor} {r : Reference} (above : scope.Proper)
      (read : scope.reference? line c = some (r, after)) : IsRead (.refer r)
  | write (key : Bytes) (v : Value) (uses : List Location) : IsRead (.write key v uses)

theorem TableStep.IsRead.named {step : TableStep} (read : step.IsRead) : step.Named := by
  cases read with
  | declare above read => exact (Scope.declaration?_proper above read).1.named
  | refer above read => exact (Scope.reference?_proper above read).named
  | write => trivial

/-- What a declaration writes is read, whole, as a reference to the same label. After any look-ups
of labels that are read, if the declaration is accepted, the two meet in one symbol. A reference
after the declaration is given the symbol of the declaration and adds none. A reference before the
declaration is given the symbol that the declaration then takes: the declaration is accepted, finds
what is written in the symbol in between, and gives it its line and, for a global label of a concrete
file, its file. -/
theorem declaration_meets_reference (scope : Scope) (line : Int) (text : Bytes) (place : Nat)
    {d : Declaration} {after : Cursor}
    (read : scope.declaration? line (.inside text place) = some (d, after)) (line' : Int) :
    ∃ r, scope.reference? line' (.atStart d.written) = some (r, ⟨d.written.length, []⟩) ∧
      r.toLabel = d.toLabel ∧
      ∀ steps : List TableStep, (∀ step ∈ steps, step.IsRead) →
        let t := TableStep.run steps
        (t.declare d).fault = none →
          (∃ key, (t.declare d).key = some key ∧
            (t.declare d).table.refer r = ((t.declare d).table, some key)) ∧
          ∃ key s, (t.refer r).2 = some key ∧ (t.refer r).1.get? key = some s ∧
            (t.refer r).1.Yields d key s.value s.uses ∧
            ∀ v uses, ((t.refer r).1.write key v uses).Yields d key v uses := by
  obtain ⟨spelling, file⟩ := Scope.declaration?_written read
  have stops : Stops [] := by simp [Stops]
  have found := spelling.reference? stops line' 0
  rw [List.append_nil, Nat.zero_add] at found
  refine ⟨_, found, rfl, fun steps steady => ?_⟩
  intro t accepted
  have valid : t.Consistent := TableStep.run_consistent fun step member => (steady step member).named
  have meets : Reference.Meets ⟨d.toLabel, if d.kind = .global then [] else scope.file, line',
      d.written⟩ d :=
    ⟨rfl, fun other => (if_neg other).trans file.symm, spelling.kind, spelling.proper_of_global⟩
  obtain ⟨key, s, given, takes⟩ := valid.takes_refer meets accepted
  refine ⟨⟨d.key, valid.refer_declared meets accepted⟩, key, s, given, takes.found, ?_, ?_⟩
  · exact takes.yields meets.kind
  · exact fun v uses => (takes.write v uses).yields meets.kind

/-- A global label that another file uses before it is declared. It is named as an instruction is,
and its declaration has no colon. -/
def usedBefore : List TableStep :=
  [.refer ⟨⟨.global, ascii "EQU", []⟩, [], 1, ascii "GLOBAL EQU"⟩,
    .write (ascii "$EQU@?") (some 7) [⟨ascii "a.asm", 1⟩]]

def equateDeclaration : Declaration :=
  ⟨⟨.global, ascii "EQU", []⟩, ascii "b.asm", 3, ascii "Global $EQU"⟩

theorem declaration_meets_reference_usedBefore :
    let t := TableStep.run usedBefore
    ((Scope.mk (ascii "b.asm") []).declaration? 3 (.inside (ascii "x  Global $EQU equ 5") 1) =
        some (equateDeclaration, ⟨14, ascii " equ 5"⟩) ∧
      (∀ step ∈ usedBefore, step.IsRead) ∧ (t.declare equateDeclaration).fault = none) ∧
    ∃ r, (Scope.mk (ascii "b.asm") []).reference? 9 (.atStart (ascii "Global $EQU")) =
        some (r, ⟨11, []⟩) ∧
      ∃ key s, (t.refer r).2 = some key ∧ (t.refer r).1.get? key = some s ∧
        (t.refer r).1.Yields equateDeclaration key s.value s.uses := by
  intro t
  have read : (Scope.mk (ascii "b.asm") []).declaration? 3
      (.inside (ascii "x  Global $EQU equ 5") 1) =
        some (equateDeclaration, ⟨14, ascii " equ 5"⟩) := by decide +kernel
  have steady : ∀ step ∈ usedBefore, step.IsRead := by
    intro step member
    simp only [usedBefore, List.mem_cons, List.not_mem_nil, or_false] at member
    rcases member with rfl | rfl
    · have use : (Scope.ofFile (ascii "a.asm")).reference? 1 (.atStart (ascii "GLOBAL EQU+1")) =
          some (⟨⟨.global, ascii "EQU", []⟩, [], 1, ascii "GLOBAL EQU"⟩, ⟨10, ascii "+1"⟩) := by
        decide +kernel
      exact .refer (Scope.ofFile_proper _) use
    · exact .write ..
  have accepted : (t.declare equateDeclaration).fault = none := by decide +kernel
  obtain ⟨r, found, -, meet⟩ := declaration_meets_reference _ _ _ _ read 9
  obtain ⟨-, key, s, given, present, yields, -⟩ := meet usedBefore steady accepted
  exact ⟨⟨read, steady, accepted⟩, r, found, key, s, given, present, yields⟩

end Assembler8080
