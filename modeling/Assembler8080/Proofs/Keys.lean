import Mathlib.Data.List.TakeWhile
import Assembler8080.Label.Spelling

/-! Names and keys. A name has no dollar sign, dot or at sign in it, so the key of a label can be
taken apart again: `Label.key_inj`. Every label that is read from a source line is proper in this
sense, because its text and parent are names: `Scope.declaration?_proper`,
`Scope.reference?_proper`. -/
namespace Assembler8080

/-- A letter, then letters, digits and underscores. -/
def IsName : Bytes → Prop
  | [] => False
  | b :: rest => Byte.isLetter b = true ∧ ∀ x ∈ rest, Byte.isNameChar x = true

instance : DecidablePred IsName
  | [] => inferInstanceAs (Decidable False)
  | _ :: _ => inferInstanceAs (Decidable (_ ∧ _))

theorem Byte.isNameChar_of_isLetter {b : UInt8} (letter : Byte.isLetter b = true) :
    Byte.isNameChar b = true := by
  simp [Byte.isNameChar, letter]

namespace IsName

theorem all {s : Bytes} (name : IsName s) : ∀ x ∈ s, Byte.isNameChar x = true := by
  cases s with
  | nil => exact name.elim
  | cons b rest =>
    intro x member
    rcases List.mem_cons.mp member with rfl | inside
    · exact Byte.isNameChar_of_isLetter name.1
    · exact name.2 x inside

theorem ne_nil {s : Bytes} (name : IsName s) : s ≠ [] := by
  rintro rfl
  exact name

theorem notMem {s : Bytes} (name : IsName s) {x : UInt8} (other : Byte.isNameChar x = false) :
    x ∉ s := by
  intro member
  have inside := name.all x member
  rw [other] at inside
  exact Bool.noConfusion inside

end IsName

/-- A label of some kind whose text is a name and whose parent, if it has one, is a name. -/
structure Label.Proper (l : Label) : Prop where
  kind : l.kind ≠ .kindless
  text : IsName l.text
  parent : l.parent = [] ∨ IsName l.parent

/-- A text is taken apart in one way at the first place of a byte. -/
theorem append_cons_inj {a : UInt8} {before before' after after' : Bytes} (left : a ∉ before)
    (right : a ∉ before') (same : before ++ a :: after = before' ++ a :: after') :
    before = before' ∧ after = after' := by
  induction before generalizing before' with
  | nil =>
    cases before' with
    | nil => simpa using same
    | cons b rest =>
      simp only [List.nil_append, List.cons_append, List.cons.injEq] at same
      exact absurd (same.1 ▸ List.mem_cons_self) right
  | cons b rest ih =>
    cases before' with
    | nil =>
      simp only [List.nil_append, List.cons_append, List.cons.injEq] at same
      exact absurd (same.1 ▸ List.mem_cons_self) left
    | cons b' rest' =>
      simp only [List.cons_append, List.cons.injEq] at same
      obtain ⟨rfl, same⟩ := same
      obtain ⟨rfl, rfl⟩ := ih (fun h => left (List.mem_cons_of_mem _ h))
        (fun h => right (List.mem_cons_of_mem _ h)) same
      exact ⟨rfl, rfl⟩

namespace Label

theorem Proper.parent_notMem {l : Label} (proper : l.Proper) {x : UInt8}
    (other : Byte.isNameChar x = false) : x ∉ l.parent := by
  rcases proper.parent with orphan | name
  · simp [orphan]
  · exact name.notMem other

theorem Proper.atSign_notMem {l : Label} (proper : l.Proper) : Byte.atSign ∉ l.name := by
  have text := proper.text.notMem (x := Byte.atSign) rfl
  have parent := proper.parent_notMem (x := Byte.atSign) rfl
  have dollar : Byte.atSign ≠ Byte.dollar := by decide
  have dot : Byte.atSign ≠ Byte.dot := by decide
  unfold name
  split
  · simp [text, dollar]
  · simp [text, parent, dot]
  · exact text
  · exact text

/-- The name as it is written tells the kind, the text and the parent of a nested label. -/
theorem Proper.name_inj {l m : Label} (left : l.Proper) (right : m.Proper)
    (same : l.name = m.name) :
    l.kind = m.kind ∧ l.text = m.text ∧ (l.kind = .nested → l.parent = m.parent) := by
  have leftDollar := left.text.notMem (x := Byte.dollar) rfl
  have rightDollar := right.text.notMem (x := Byte.dollar) rfl
  have leftDot := left.text.notMem (x := Byte.dot) rfl
  have rightDot := right.text.notMem (x := Byte.dot) rfl
  have leftParent := left.parent_notMem (x := Byte.dot) rfl
  have rightParent := right.parent_notMem (x := Byte.dot) rfl
  have leftStart := left.parent_notMem (x := Byte.dollar) rfl
  have rightStart := right.parent_notMem (x := Byte.dollar) rfl
  obtain ⟨kind, text, parent⟩ := l
  obtain ⟨kind', text', parent'⟩ := m
  cases kind <;> cases kind' <;> simp only [name] at same
  all_goals first
    | exact absurd rfl left.kind
    | exact absurd rfl right.kind
    | skip
  · simpa using same
  · exact absurd (same ▸ List.mem_cons_self) rightDollar
  · refine absurd (same ▸ List.mem_cons_self : Byte.dollar ∈ parent' ++ Byte.dot :: text') ?_
    simpa [rightStart, rightDollar] using (by decide : Byte.dollar ≠ Byte.dot)
  · exact absurd (same.symm ▸ List.mem_cons_self) leftDollar
  · simpa using same
  · exact absurd (same ▸ List.mem_append_right _ List.mem_cons_self) leftDot
  · refine absurd (same.symm ▸ List.mem_cons_self : Byte.dollar ∈ parent ++ Byte.dot :: text) ?_
    simpa [leftStart, leftDollar] using (by decide : Byte.dollar ≠ Byte.dot)
  · exact absurd (same ▸ List.mem_append_right _ List.mem_cons_self) rightDot
  · obtain ⟨sameParent, sameText⟩ := append_cons_inj leftParent rightParent same
    exact ⟨rfl, sameText, fun _ => sameParent⟩

theorem Proper.key_eq {l : Label} (proper : l.Proper) (file : Bytes) :
    l.key file = l.name ++ Byte.atSign :: keyFile file := by
  unfold key
  split
  · exact absurd ‹_› proper.kind
  all_goals rfl

theorem key_parts {l m : Label} (left : l.Proper) (right : m.Proper) {file other : Bytes}
    (same : l.key file = m.key other) : l.name = m.name ∧ keyFile file = keyFile other := by
  rw [left.key_eq, right.key_eq] at same
  exact append_cons_inj left.atSign_notMem right.atSign_notMem same

/-- Keys do not collide: the key tells the label and, up to the empty name, its file. -/
theorem key_inj {l m : Label} (left : l.Proper) (right : m.Proper) {file other : Bytes}
    (same : l.key file = m.key other) :
    (l.kind = m.kind ∧ l.text = m.text ∧ (l.kind = .nested → l.parent = m.parent)) ∧
      keyFile file = keyFile other := by
  obtain ⟨names, files⟩ := key_parts left right same
  exact ⟨left.name_inj right names, files⟩

/-- A name is written with the parent of a nested label only. -/
theorem name_congr {l m : Label} (kind : l.kind = m.kind) (text : l.text = m.text)
    (parent : l.kind = .nested → l.parent = m.parent) : l.name = m.name := by
  obtain ⟨k, t, p⟩ := l
  obtain ⟨k', t', p'⟩ := m
  dsimp only at kind text parent
  subst kind text
  by_cases nested : k = .nested
  · rw [parent nested]
  · cases k with
    | nested => contradiction
    | kindless | global | static => rfl

/-- Two labels have one key exactly if they are of one kind, with one text and, when they are
nested, one parent, and belong to one file. The file may hold any bytes, also those that separate
the parts of a key; an empty name counts as `?`. -/
theorem key_eq_iff {l m : Label} (left : l.Proper) (right : m.Proper) (file other : Bytes) :
    l.key file = m.key other ↔
      l.kind = m.kind ∧ l.text = m.text ∧ (l.kind = .nested → l.parent = m.parent) ∧
        (if file = [] then ascii "?" else file) = (if other = [] then ascii "?" else other) := by
  have written (f : Bytes) : keyFile f = if f = [] then ascii "?" else f := by
    simp [keyFile, pendingFile]
  rw [← written, ← written]
  constructor
  · intro same
    obtain ⟨⟨kind, text, parent⟩, files⟩ := key_inj left right same
    exact ⟨kind, text, parent, files⟩
  · rintro ⟨kind, text, parent, files⟩
    rw [left.key_eq, right.key_eq, name_congr kind text parent, files]

/-- The file of a static label may look like the rest of a nested one, and still the keys differ;
without a file name, a label has the key that it has in the file `?`. -/
theorem key_eq_iff_separators :
    (Label.mk .static (ascii "A") []).key (ascii ".B@$x") ≠
        (Label.mk .nested (ascii "B") (ascii "A")).key (ascii "$x") ∧
      (Label.mk .nested (ascii "B") []).key [] = (Label.mk .nested (ascii "B") []).key (ascii "?") := by
  have a : IsName (ascii "A") := ⟨rfl, fun _ inside => absurd inside List.not_mem_nil⟩
  have b : IsName (ascii "B") := ⟨rfl, fun _ inside => absurd inside List.not_mem_nil⟩
  have static : (Label.mk .static (ascii "A") []).Proper := ⟨by simp, a, .inl rfl⟩
  have nested : (Label.mk .nested (ascii "B") (ascii "A")).Proper := ⟨by simp, b, .inr a⟩
  have bare : (Label.mk .nested (ascii "B") []).Proper := ⟨by simp, b, .inl rfl⟩
  constructor
  · intro same
    have kinds := ((key_eq_iff static nested _ _).mp same).1
    simp at kinds
  · exact (key_eq_iff bare bare _ _).mpr ⟨rfl, rfl, fun _ => rfl, rfl⟩

end Label

/-! ### Labels that are read are proper -/

namespace Lexeme

theorem take_wordRun (s : Bytes) : s.take (wordRun s) = s.takeWhile Byte.isNameChar :=
  (List.prefix_iff_eq_take.mp (List.takeWhile_prefix _)).symm

theorem isName_of_name {s : Bytes} {n : Nat} (found : name s = n + 1) : IsName (s.take (n + 1)) := by
  cases s with
  | nil => simp [name] at found
  | cons b rest =>
    simp only [name] at found
    split at found
    next letter =>
      have run : wordRun rest = n := by omega
      rw [List.take_succ_cons, ← run, take_wordRun]
      exact ⟨letter, fun x member => List.mem_takeWhile_imp member⟩
    next => omega

end Lexeme

namespace Spelled

theorem name?_isName {lead length : Nat} {s text : Bytes}
    (found : name? lead s = some (text, length)) : IsName text := by
  simp only [name?] at found
  split at found
  next => contradiction
  next n named =>
    obtain ⟨rfl, -⟩ := Prod.mk.inj (Option.some.inj found)
    exact Lexeme.isName_of_name named

theorem dotName?_isName {lead length : Nat} {s text : Bytes}
    (found : dotName? lead s = some (text, length)) : IsName text := by
  unfold dotName? at found
  split at found
  · exact name?_isName found
  · contradiction

theorem globalKeyword?_proper {s : Bytes} {spelled : Spelled}
    (found : globalKeyword? s = some spelled) : spelled.label.Proper := by
  simp only [globalKeyword?, Option.bind_eq_bind, Option.bind_eq_some_iff] at found
  obtain ⟨lead, -, ⟨text, length⟩, named, same⟩ := found
  obtain rfl := Option.some.inj same
  exact ⟨by simp, name?_isName named, .inl rfl⟩

theorem staticKeyword?_proper {s : Bytes} {spelled : Spelled}
    (found : staticKeyword? s = some spelled) : spelled.label.Proper := by
  simp only [staticKeyword?, Option.bind_eq_bind, Option.bind_eq_some_iff] at found
  obtain ⟨lead, -, ⟨text, length⟩, named, same⟩ := found
  obtain rfl := Option.some.inj same
  exact ⟨by simp, name?_isName named, .inl rfl⟩

theorem dollarName?_proper {s : Bytes} {spelled : Spelled}
    (found : dollarName? s = some spelled) : spelled.label.Proper := by
  unfold dollarName? at found
  split at found
  · obtain ⟨⟨text, length⟩, named, rfl⟩ := Option.map_eq_some_iff.mp found
    exact ⟨by simp, name?_isName named, .inl rfl⟩
  · contradiction

theorem plainName?_proper {s : Bytes} {spelled : Spelled}
    (found : plainName? s = some spelled) : spelled.label.Proper := by
  obtain ⟨⟨text, length⟩, named, rfl⟩ := Option.map_eq_some_iff.mp found
  exact ⟨by simp, name?_isName named, .inl rfl⟩

theorem parentDotName?_proper {lead : Nat} {s : Bytes} {spelled : Spelled}
    (found : parentDotName? lead s = some spelled) : spelled.label.Proper := by
  simp only [parentDotName?, Option.bind_eq_bind, Option.bind_eq_some_iff] at found
  obtain ⟨⟨parent, before⟩, parentNamed, ⟨text, length⟩, named, same⟩ := found
  obtain rfl := Option.some.inj same
  exact ⟨by simp, dotName?_isName named, .inr (name?_isName parentNamed)⟩

theorem bareDotName?_proper {parent : Bytes} {lead : Nat} {s : Bytes} {spelled : Spelled}
    (above : parent = [] ∨ IsName parent) (found : bareDotName? parent lead s = some spelled) :
    spelled.label.Proper := by
  obtain ⟨⟨text, length⟩, named, rfl⟩ := Option.map_eq_some_iff.mp found
  exact ⟨by simp, dotName?_isName named, above⟩

theorem localKeyword?_proper {s : Bytes} {spelled : Spelled}
    (found : localKeyword? s = some spelled) : spelled.label.Proper := by
  simp only [localKeyword?, Option.bind_eq_bind, Option.bind_eq_some_iff] at found
  obtain ⟨lead, -, found⟩ := found
  exact parentDotName?_proper found

theorem localKeywordBare?_proper {parent s : Bytes} {spelled : Spelled}
    (above : parent = [] ∨ IsName parent) (found : localKeywordBare? parent s = some spelled) :
    spelled.label.Proper := by
  simp only [localKeywordBare?, Option.bind_eq_bind, Option.bind_eq_some_iff] at found
  obtain ⟨lead, -, found⟩ := found
  exact bareDotName?_proper above found

end Spelled

open Spelled

theorem declarationForms_proper {parent s : Bytes} {form : Bytes → Option Spelled}
    {spelled : Spelled} (above : parent = [] ∨ IsName parent)
    (member : form ∈ declarationForms parent) (found : form s = some spelled) :
    spelled.label.Proper := by
  simp only [declarationForms, List.mem_cons, List.not_mem_nil, or_false] at member
  rcases member with rfl | rfl | rfl | rfl | rfl | rfl | rfl
  · exact globalKeyword?_proper found
  · exact dollarName?_proper found
  · exact staticKeyword?_proper found
  · exact plainName?_proper found
  · exact localKeyword?_proper found
  · exact parentDotName?_proper found
  · exact bareDotName?_proper above found

theorem referenceForms_proper {parent s : Bytes} {form : Bytes → Option Spelled}
    {spelled : Spelled} (above : parent = [] ∨ IsName parent)
    (member : form ∈ referenceForms parent) (found : form s = some spelled) :
    spelled.label.Proper := by
  simp only [referenceForms, List.mem_cons, List.not_mem_nil, or_false] at member
  rcases member with rfl | rfl | rfl | rfl | rfl | rfl | rfl | rfl
  · exact globalKeyword?_proper found
  · exact dollarName?_proper found
  · exact staticKeyword?_proper found
  · exact localKeyword?_proper found
  · exact localKeywordBare?_proper above found
  · exact parentDotName?_proper found
  · exact plainName?_proper found
  · exact bareDotName?_proper above found

namespace Scope

/-- The parent of dotted labels is a name, or there is none yet. -/
def Proper (scope : Scope) : Prop := scope.parent = [] ∨ IsName scope.parent

theorem ofFile_proper (file : Bytes) : (Scope.ofFile file).Proper := .inl rfl

theorem declare_proper {scope : Scope} {l : Label} (above : scope.Proper) (proper : l.Proper) :
    (scope.declare l).Proper := by
  unfold declare
  split
  · exact .inr proper.text
  · exact above

/-- A declaration carries the file of its scope and the number of its line. -/
theorem declaration?_proper {scope : Scope} {line : Int} {c after : Cursor} {d : Declaration}
    (above : scope.Proper) (found : scope.declaration? line c = some (d, after)) :
    d.toLabel.Proper ∧ d.file = scope.file ∧ d.line = line := by
  simp only [declaration?] at found
  split at found
  next => contradiction
  next spelled first =>
    obtain ⟨rfl, -⟩ := Prod.mk.inj (Option.some.inj found)
    obtain ⟨form, member, declared⟩ := List.exists_of_findSome?_eq_some first
    simp only [declaredBy?, Option.bind_eq_bind, Option.bind_eq_some_iff] at declared
    obtain ⟨plain, formed, ending, -, same⟩ := declared
    obtain rfl := Option.some.inj same
    exact ⟨declarationForms_proper above member formed, rfl, rfl⟩

theorem reference?_proper {scope : Scope} {line : Int} {c after : Cursor} {r : Reference}
    (above : scope.Proper) (found : scope.reference? line c = some (r, after)) :
    r.toLabel.Proper := by
  simp only [reference?] at found
  split at found
  next => contradiction
  next spelled first =>
    obtain ⟨rfl, -⟩ := Prod.mk.inj (Option.some.inj found)
    obtain ⟨form, member, formed⟩ := List.exists_of_findSome?_eq_some first
    exact referenceForms_proper above member formed

end Scope

end Assembler8080
