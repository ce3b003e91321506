import Assembler8080.Statement
import Assembler8080.Proofs.Spelling

/-! Declarations of labels. `DeclaredText` lists the ways to write one before its colon, in which a
name may be any word, keywords and mnemonics among them. The forms of a declaration are tried in an
order in which each of these is found as what it is (`DeclaredText.found`), so a line that starts
with one declares its label: `declarations_read_back`. -/
namespace Assembler8080

/-- The spellings of a label where it is declared, below a parent for one that names none. After
LOCAL a parent that is the word EQU would make LOCAL the name of a value. -/
inductive DeclaredText (parent : Bytes) : Label → Bytes → Prop where
  | globalKeyword {k gap n : Bytes} (word : AnyCase (ascii "GLOBAL") k) (blank : IsGap gap)
      (name : IsName n) : DeclaredText parent ⟨.global, n, []⟩ (k ++ (gap ++ n))
  | globalKeywordDollar {k gap n : Bytes} (word : AnyCase (ascii "GLOBAL") k) (blank : IsGap gap)
      (name : IsName n) : DeclaredText parent ⟨.global, n, []⟩ (k ++ (gap ++ Byte.dollar :: n))
  | dollar {n : Bytes} (name : IsName n) : DeclaredText parent ⟨.global, n, []⟩ (Byte.dollar :: n)
  | staticKeyword {k gap n : Bytes} (word : AnyCase (ascii "STATIC") k) (blank : IsGap gap)
      (name : IsName n) : DeclaredText parent ⟨.static, n, []⟩ (k ++ (gap ++ n))
  | plain {n : Bytes} (name : IsName n) : DeclaredText parent ⟨.static, n, []⟩ n
  | nestedKeyword {k gap p n : Bytes} (word : AnyCase (ascii "LOCAL") k) (blank : IsGap gap)
      (above : IsName p) (other : ¬ AnyCase (ascii "EQU") p) (name : IsName n) :
      DeclaredText parent ⟨.nested, n, p⟩ (k ++ (gap ++ (p ++ Byte.dot :: n)))
  | nested {p n : Bytes} (above : IsName p) (name : IsName n) :
      DeclaredText parent ⟨.nested, n, p⟩ (p ++ Byte.dot :: n)
  | bare {n : Bytes} (name : IsName n) : DeclaredText parent ⟨.nested, n, parent⟩ (Byte.dot :: n)

theorem DeclaredText.labelText {parent s : Bytes} {l : Label} (text : DeclaredText parent l s) :
    LabelText parent l s := by
  cases text with
  | globalKeyword word blank name => exact .globalKeyword word blank name
  | globalKeywordDollar word blank name => exact .globalKeywordDollar word blank name
  | dollar name => exact .dollar name
  | staticKeyword word blank name => exact .staticKeyword word blank name
  | plain name => exact .plain name
  | nestedKeyword word blank above _ name => exact .nestedKeyword word blank above name
  | nested above name => exact .nested above name
  | bare name => exact .bare name

/-! ### What ends a declaration -/

/-- A whole word at the start of a name is the name. -/
theorem Lexeme.anyCase_of_wholeWord {word n tail : Bytes} (keyword : IsKeyword word)
    (name : IsName n) (ends : continuesName tail = false)
    (found : 0 < wholeWord word (n ++ tail)) : AnyCase word n := by
  unfold wholeWord at found
  split at found
  next whole =>
    obtain ⟨fold, stops⟩ := Bool.and_eq_true_iff.mp whole
    have same := (Spelled.startsWithFold_iff keyword).mp fold
    have inside := same.length_le keyword ends
    rw [List.take_append_of_le_length inside] at same
    have all : n.drop word.length = [] := by
      cases rest : n.drop word.length with
      | nil => rfl
      | cons b more =>
        have member : b ∈ n := List.mem_of_mem_drop (rest ▸ List.mem_cons_self)
        rw [List.drop_append_of_le_length inside, rest] at stops
        simp [continuesName, name.all b member] at stops
    rwa [List.take_of_length_le (List.drop_eq_nil_iff.mp all)] at same
  next => contradiction

theorem equ_isKeyword : IsKeyword (ascii "EQU") := by
  constructor <;> decide +kernel

/-- After blanks, a name other than EQU does not end a declaration. -/
theorem declarationEnd?_gap {gap n tail : Bytes} (blank : IsGap gap) (name : IsName n)
    (ends : Lexeme.continuesName tail = false) (other : ¬ AnyCase (ascii "EQU") n) :
    declarationEnd? (gap ++ (n ++ tail)) = none := by
  have colonless : (gap ++ (n ++ tail)).head? ≠ some Byte.colon := by
    cases gap with
    | nil => exact absurd rfl blank.ne_nil
    | cons b rest =>
      intro colon
      obtain rfl : b = Byte.colon := Option.some.inj colon
      exact absurd (blank.blanks _ List.mem_cons_self) (by decide)
  have place : (gap ++ (n ++ tail)).drop (Lexeme.blankRun (gap ++ (n ++ tail))) = n ++ tail := by
    rw [Lexeme.drop_blankRun, List.dropWhile_append_of_pos blank.blanks]
    obtain ⟨b, rest, start, letter⟩ := name.starts tail
    simp [start, (letter_apart b letter).1]
  have apart : ¬ 0 < Lexeme.wholeWord (ascii "EQU") (n ++ tail) := fun found =>
    other (Lexeme.anyCase_of_wholeWord equ_isKeyword name ends found)
  unfold declarationEnd?
  split
  next colon => exact absurd colon colonless
  next => simp [place, apart]

theorem declarationEnd?_dot (rest : Bytes) : declarationEnd? (Byte.dot :: rest) = none := rfl

theorem declarationEnd?_colon (rest : Bytes) : declarationEnd? (Byte.colon :: rest) = some 1 := rfl

theorem declaredBy?_colon {form : Bytes → Option Spelled} {text tail : Bytes} {l : Label} {n : Nat}
    (found : form (text ++ Byte.colon :: tail) = some ⟨l, n⟩) (whole : n = text.length) :
    declaredBy? (text ++ Byte.colon :: tail) form = some ⟨l, text.length + 1⟩ := by
  simp [declaredBy?, found, whole, declarationEnd?_colon]

theorem declaredBy?_eq_none {form : Bytes → Option Spelled} {s : Bytes} (unformed : form s = none) :
    declaredBy? s form = none := by
  simp [declaredBy?, unformed]

/-- A form that fits without what ends a declaration does not declare anything. -/
theorem declaredBy?_unended {form : Bytes → Option Spelled} {s : Bytes} {x : Spelled}
    (found : form s = some x) (unended : declarationEnd? (s.drop x.length) = none) :
    declaredBy? s form = none := by
  simp [declaredBy?, found, unended]

/-! ### The forms in their order -/

namespace Spelled

/-- Without its keyword, none of the forms with a keyword is found. -/
theorem declared_keyword_none {s : Bytes} (unspelled : ∀ word, IsKeyword word → keyword? word s = none) :
    declaredBy? s globalKeyword? = none ∧ declaredBy? s staticKeyword? = none ∧
      declaredBy? s localKeyword? = none := by
  refine ⟨?_, ?_, ?_⟩ <;> apply declaredBy?_eq_none
  · simp [globalKeyword?, unspelled _ keywords.1]
  · simp [staticKeyword?, unspelled _ keywords.2.1]
  · simp [localKeyword?, unspelled _ keywords.2.2]

theorem plainName?_eq {n tail : Bytes} (name : IsName n)
    (ends : Lexeme.continuesName tail = false) :
    plainName? (n ++ tail) = some ⟨⟨.static, n, []⟩, n.length⟩ := by
  have named : name? 0 (n ++ tail) = some (n, 0 + n.length) := name?_eq rfl name ends
  simp [plainName?, named]

section Declared

variable (parent : Bytes) {n : Bytes} (name : IsName n) (tail : Bytes)

include name

theorem declared_globalKeyword {k gap : Bytes} (word : AnyCase (ascii "GLOBAL") k)
    (blank : IsGap gap) (mark : Bytes) (dollar : mark = [] ∨ mark = [Byte.dollar]) :
    (declarationForms parent).findSome?
        (declaredBy? ((k ++ (gap ++ (mark ++ n))) ++ Byte.colon :: tail)) =
      some ⟨⟨.global, n, []⟩, (k ++ (gap ++ (mark ++ n))).length + 1⟩ := by
  have starts : Starts (mark ++ (n ++ Byte.colon :: tail)) := by
    rcases dollar with rfl | rfl
    · exact name.starts_not_blank _
    · exact starts_cons rfl _
  have found : globalKeyword? ((k ++ (gap ++ (mark ++ n))) ++ Byte.colon :: tail) =
      some ⟨⟨.global, n, []⟩, k.length + gap.length + mark.length + n.length⟩ := by
    simpa using globalKeyword?_eq name rfl (keyword?_eq keywords.1 word blank starts) dollar
      (drop_keyword k gap _)
  have declared := declaredBy?_colon found (by simp; omega)
  simp only [declarationForms, List.findSome?_cons, declared]

theorem declared_dollar :
    (declarationForms parent).findSome? (declaredBy? ((Byte.dollar :: n) ++ Byte.colon :: tail)) =
      some ⟨⟨.global, n, []⟩, (Byte.dollar :: n).length + 1⟩ := by
  have keyless := declared_keyword_none (s := (Byte.dollar :: n) ++ Byte.colon :: tail)
    fun word keyword => keyword?_eq_none keyword (by simp; rfl)
  have named : name? 1 ((Byte.dollar :: n) ++ Byte.colon :: tail) = some (n, 1 + n.length) :=
    name?_eq rfl name rfl
  have found : dollarName? ((Byte.dollar :: n) ++ Byte.colon :: tail) =
      some ⟨⟨.global, n, []⟩, 1 + n.length⟩ := by
    rw [dollarName?, List.cons_append, List.head?_cons, ← List.cons_append, named]
    rfl
  have declared := declaredBy?_colon found (by simp; omega)
  simp only [declarationForms, List.findSome?_cons, keyless.1, declared]

theorem declared_staticKeyword {k gap : Bytes} (word : AnyCase (ascii "STATIC") k)
    (blank : IsGap gap) :
    (declarationForms parent).findSome? (declaredBy? ((k ++ (gap ++ n)) ++ Byte.colon :: tail)) =
      some ⟨⟨.static, n, []⟩, (k ++ (gap ++ n)).length + 1⟩ := by
  have global : globalKeyword? ((k ++ (gap ++ n)) ++ Byte.colon :: tail) = none := by
    have other := keyword?_other keywords.2.1 keywords.1 (by decide) word blank
      (n ++ Byte.colon :: tail)
    simp [globalKeyword?, other]
  have undollared : dollarName? ((k ++ (gap ++ n)) ++ Byte.colon :: tail) = none := by
    simpa using dollarName?_eq_none ((word.isName keywords.2.1).not_dollar
      (gap ++ (n ++ Byte.colon :: tail)))
  have found : staticKeyword? ((k ++ (gap ++ n)) ++ Byte.colon :: tail) =
      some ⟨⟨.static, n, []⟩, k.length + gap.length + n.length⟩ := by
    simpa using staticKeyword?_eq name rfl (keyword?_eq keywords.2.1 word blank
      (name.starts_not_blank (Byte.colon :: tail))) (drop_keyword k gap _)
  have declared := declaredBy?_colon found (by simp; omega)
  simp only [declarationForms, List.findSome?_cons, declaredBy?_eq_none global,
    declaredBy?_eq_none undollared, declared]

theorem declared_plain :
    (declarationForms parent).findSome? (declaredBy? (n ++ Byte.colon :: tail)) =
      some ⟨⟨.static, n, []⟩, n.length + 1⟩ := by
  obtain ⟨global, static, -⟩ := declared_keyword_none (s := n ++ Byte.colon :: tail)
    fun word keyword => keyword?_unspaced keyword name rfl rfl
  have undollared := dollarName?_eq_none (name.not_dollar (Byte.colon :: tail))
  have named : plainName? (n ++ Byte.colon :: tail) = some ⟨⟨.static, n, []⟩, n.length⟩ :=
    plainName?_eq name rfl
  have declared := declaredBy?_colon named rfl
  simp only [declarationForms, List.findSome?_cons, global, declaredBy?_eq_none undollared, static,
    declared]

theorem declared_nested {p : Bytes} (above : IsName p) :
    (declarationForms parent).findSome? (declaredBy? ((p ++ Byte.dot :: n) ++ Byte.colon :: tail)) =
      some ⟨⟨.nested, n, p⟩, (p ++ Byte.dot :: n).length + 1⟩ := by
  have split : (p ++ Byte.dot :: n) ++ Byte.colon :: tail =
      p ++ Byte.dot :: (n ++ Byte.colon :: tail) := by simp
  obtain ⟨global, static, nested⟩ := declared_keyword_none
    (s := (p ++ Byte.dot :: n) ++ Byte.colon :: tail) fun word keyword => by
      rw [split]
      exact keyword?_unspaced keyword above rfl rfl
  have undollared : dollarName? ((p ++ Byte.dot :: n) ++ Byte.colon :: tail) = none := by
    rw [split]
    exact dollarName?_eq_none (above.not_dollar _)
  -- The parent is found as a plain name first, which the dot keeps from being declared.
  have plain : declaredBy? ((p ++ Byte.dot :: n) ++ Byte.colon :: tail) plainName? = none := by
    rw [split]
    refine declaredBy?_unended (plainName?_eq above rfl) ?_
    rw [List.drop_left]
    exact declarationEnd?_dot _
  have found : parentDotName? 0 ((p ++ Byte.dot :: n) ++ Byte.colon :: tail) =
      some ⟨⟨.nested, n, p⟩, 0 + p.length + 1 + n.length⟩ := by
    rw [split]
    exact parentDotName?_eq name rfl above rfl
  have declared := declaredBy?_colon found (by simp; omega)
  simp only [declarationForms, List.findSome?_cons, global, declaredBy?_eq_none undollared, static,
    plain, nested, declared]

theorem declared_nestedKeyword {k gap p : Bytes} (word : AnyCase (ascii "LOCAL") k)
    (blank : IsGap gap) (above : IsName p) (other : ¬ AnyCase (ascii "EQU") p) :
    (declarationForms parent).findSome?
        (declaredBy? ((k ++ (gap ++ (p ++ Byte.dot :: n))) ++ Byte.colon :: tail)) =
      some ⟨⟨.nested, n, p⟩, (k ++ (gap ++ (p ++ Byte.dot :: n))).length + 1⟩ := by
  have split : (k ++ (gap ++ (p ++ Byte.dot :: n))) ++ Byte.colon :: tail =
      k ++ (gap ++ (p ++ Byte.dot :: (n ++ Byte.colon :: tail))) := by simp
  obtain ⟨global, undollared, static⟩ := local_others word blank
    (p ++ Byte.dot :: (n ++ Byte.colon :: tail))
  rw [← split] at global undollared static
  -- LOCAL is found as a plain name first, and only EQU after it would make it one.
  have plain : declaredBy? ((k ++ (gap ++ (p ++ Byte.dot :: n))) ++ Byte.colon :: tail) plainName? =
      none := by
    rw [split]
    refine declaredBy?_unended (plainName?_eq (word.isName keywords.2.2)
      (blank.continuesName _)) ?_
    rw [List.drop_left]
    exact declarationEnd?_gap blank above rfl other
  have found : localKeyword? ((k ++ (gap ++ (p ++ Byte.dot :: n))) ++ Byte.colon :: tail) =
      some ⟨⟨.nested, n, p⟩, k.length + gap.length + p.length + 1 + n.length⟩ := by
    have lead := keyword?_eq keywords.2.2 word blank
      (above.starts_not_blank (Byte.dot :: (n ++ Byte.colon :: tail)))
    rw [split, localKeyword?, lead]
    exact parentDotName?_eq name rfl above (drop_keyword k gap _)
  have declared := declaredBy?_colon found (by simp; omega)
  simp only [declarationForms, List.findSome?_cons, declaredBy?_eq_none global,
    declaredBy?_eq_none undollared, declaredBy?_eq_none static, plain, declared]

theorem declared_bare :
    (declarationForms parent).findSome? (declaredBy? ((Byte.dot :: n) ++ Byte.colon :: tail)) =
      some ⟨⟨.nested, n, parent⟩, (Byte.dot :: n).length + 1⟩ := by
  have other : ∀ b ∈ ((Byte.dot :: n) ++ Byte.colon :: tail).head?, Byte.isLetter b = false := by
    simp; rfl
  obtain ⟨global, static, nested⟩ := declared_keyword_none fun word keyword =>
    keyword?_eq_none keyword other
  have undollared : dollarName? ((Byte.dot :: n) ++ Byte.colon :: tail) = none := rfl
  have nameless : name? 0 ((Byte.dot :: n) ++ Byte.colon :: tail) = none := name?_eq_none rfl other
  have plain : plainName? ((Byte.dot :: n) ++ Byte.colon :: tail) = none := by
    rw [plainName?, nameless]
    rfl
  have undotted : parentDotName? 0 ((Byte.dot :: n) ++ Byte.colon :: tail) = none :=
    parentDotName?_eq_none rfl other
  have found : bareDotName? parent 0 ((Byte.dot :: n) ++ Byte.colon :: tail) =
      some ⟨⟨.nested, n, parent⟩, 0 + 1 + n.length⟩ := bareDotName?_eq name rfl parent rfl
  have declared := declaredBy?_colon found (by simp; omega)
  simp only [declarationForms, List.findSome?_cons, global, declaredBy?_eq_none undollared, static,
    declaredBy?_eq_none plain, nested, declaredBy?_eq_none undotted, declared]

end Declared

end Spelled

open Spelled in
theorem DeclaredText.found {parent s : Bytes} {l : Label} (text : DeclaredText parent l s)
    (tail : Bytes) :
    (declarationForms parent).findSome? (declaredBy? (s ++ Byte.colon :: tail)) =
      some ⟨l, s.length + 1⟩ := by
  cases text with
  | globalKeyword word blank name =>
    exact declared_globalKeyword parent name tail word blank [] (.inl rfl)
  | globalKeywordDollar word blank name =>
    exact declared_globalKeyword parent name tail word blank [Byte.dollar] (.inr rfl)
  | dollar name => exact declared_dollar parent name tail
  | staticKeyword word blank name => exact declared_staticKeyword parent name tail word blank
  | plain name => exact declared_plain parent name tail
  | nestedKeyword word blank above other name =>
    exact declared_nestedKeyword parent name tail word blank above other
  | nested above name => exact declared_nested parent name tail above
  | bare name => exact declared_bare parent name tail

/-- A spelling with its colon, after blanks, is read as a declaration of its label. -/
theorem DeclaredText.declaration? {scope : Scope} {l : Label} {s lead : Bytes}
    (text : DeclaredText scope.parent l s) (blanks : IsBlanks lead) (line : Int) (offset : Nat)
    (tail : Bytes) :
    scope.declaration? line ⟨offset, lead ++ (s ++ Byte.colon :: tail)⟩ =
      some (⟨l, scope.file, line, s ++ [Byte.colon]⟩,
        ⟨offset + lead.length + s.length + 1, tail⟩) := by
  have starts : Starts (s ++ Byte.colon :: tail) := by
    obtain ⟨b, rest, rfl, start⟩ := text.labelText.head
    exact starts_cons (StartsLabel.apart b start).1 _
  have taken : (s ++ Byte.colon :: tail).take (s.length + 1) = s ++ [Byte.colon] := by
    rw [List.take_length_add_append]
    rfl
  have place := Cursor.advance_append (offset + lead.length) (s ++ [Byte.colon]) tail
  simp only [List.append_assoc, List.singleton_append, List.length_append, List.length_singleton,
    ← Nat.add_assoc] at place
  simp only [Scope.declaration?, Cursor.skipBlanks_append offset blanks starts, text.found tail,
    taken, place]

/-- Whatever the names are, each spelling of a declaration, after any blanks and before any text
that follows its colon, declares its label for the file and line of the scope. The place after it is
the one after the colon, and the parent of dotted labels changes for a static label only. Where
nothing is declared, neither scope nor place changes. -/
theorem declarations_read_back (scope : Scope) (line : Int) :
    (∀ (l : Label) (s lead tail : Bytes) (offset : Nat), DeclaredText scope.parent l s →
      IsBlanks lead →
      Statement.readLabel scope line ⟨offset, lead ++ (s ++ Byte.colon :: tail)⟩ =
        (some ⟨l, scope.file, line, s ++ [Byte.colon]⟩,
          ⟨scope.file, if l.kind = .static then l.text else scope.parent⟩,
          ⟨offset + lead.length + s.length + 1, tail⟩)) ∧
      ∀ c : Cursor, (Statement.readLabel scope line c).1 = none →
        Statement.readLabel scope line c = (none, scope, c) := by
  constructor
  · intro l s lead tail offset text blanks
    have declared : scope.declare l =
        ⟨scope.file, if l.kind = .static then l.text else scope.parent⟩ := by
      by_cases static : l.kind = .static <;> simp [Scope.declare, static]
    simp only [Statement.readLabel, text.declaration? blanks, declared]
  · intro c undeclared
    cases found : scope.declaration? line c with
    | none => simp [Statement.readLabel, found]
    | some declared => simp [Statement.readLabel, found] at undeclared

/-- Keywords in the places of the names. -/
theorem declarations_read_back_keywords :
    let scope : Scope := ⟨ascii "t.asm", ascii "P"⟩
    Statement.readLabel scope 7 ⟨3, ascii "\t " ++ (ascii "LoCaL  GLOBAL.EQU" ++
        Byte.colon :: ascii "STATIC X:")⟩ =
      (some ⟨⟨.nested, ascii "EQU", ascii "GLOBAL"⟩, ascii "t.asm", 7, ascii "LoCaL  GLOBAL.EQU:"⟩,
        scope, ⟨23, ascii "STATIC X:"⟩) ∧
    Statement.readLabel scope 7 ⟨3, ascii "LOCAL .X:"⟩ = (none, scope, ⟨3, ascii "LOCAL .X:"⟩) := by
  intro scope
  have text : DeclaredText (ascii "P") ⟨.nested, ascii "EQU", ascii "GLOBAL"⟩
      (ascii "LoCaL  GLOBAL.EQU") :=
    @DeclaredText.nestedKeyword _ (ascii "LoCaL") (ascii "  ") (ascii "GLOBAL") (ascii "EQU")
      (by decide +kernel) ⟨by decide +kernel, by decide +kernel⟩ (by decide +kernel)
      (by decide +kernel) (by decide +kernel)
  obtain ⟨read, unread⟩ := declarations_read_back scope 7
  exact ⟨read _ _ _ _ 3 text (by decide +kernel), unread _ (by decide +kernel)⟩

end Assembler8080
