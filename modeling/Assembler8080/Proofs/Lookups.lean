import Assembler8080.Proofs.Table

/-! Sequences of look-ups. A client looks labels up in any order and writes the values and uses of
the symbols that it is given. Whatever it does, the two maps of the table agree (`Coherent`), and a
look-up keeps every entry (`Carries`) and makes at most one more: the only entry that ever moves is
that of a global label whose file comes to be known. -/
namespace Assembler8080

/-- The text of a label is a name, and its parent is one unless it has none. The kind may be any. -/
structure Label.Named (l : Label) : Prop where
  text : IsName l.text
  parent : l.parent = [] ∨ IsName l.parent

theorem Label.Named.proper {l : Label} (named : l.Named) (kind : l.kind ≠ .kindless) : l.Proper :=
  ⟨kind, named.text, named.parent⟩

theorem Label.Proper.named {l : Label} (proper : l.Proper) : l.Named := ⟨proper.text, proper.parent⟩

/-! ### What a look-up keeps -/

/-- What a look-up may do with a symbol. It keeps its label, its value and its uses; it stays under
its key, or it was waiting for its file and moves to the key that it has there. -/
structure Symbol.Carried (key : Bytes) (s : Symbol) (key' : Bytes) (s' : Symbol) : Prop where
  label : s'.toLabel = s.toLabel
  value : s'.value = s.value
  uses : s'.uses = s.uses
  place : key' = key ∧ s'.file = s.file ∨
    s.kind = .global ∧ isConcrete s.file = false ∧ isConcrete s'.file = true ∧
      key = s.toLabel.key pendingFile ∧ key' = s.toLabel.key s'.file

theorem Symbol.Carried.refl (key : Bytes) (s : Symbol) : Carried key s key s :=
  ⟨rfl, rfl, rfl, .inl ⟨rfl, rfl⟩⟩

namespace SymbolTable

variable {t u : SymbolTable} {d : Declaration} {r : Reference}

/-- Where the symbols of one table are in another: none is lost, and no two become one. -/
structure Carries (t u : SymbolTable) (moved : Bytes → Bytes) : Prop where
  carried : ∀ {key s}, t.get? key = some s →
    ∃ s', u.get? (moved key) = some s' ∧ Symbol.Carried key s (moved key) s'
  apart : ∀ {key other s s'}, t.get? key = some s → t.get? other = some s' →
    moved key = moved other → key = other

theorem ne_of_missing {key other : Bytes} {s : Symbol} (miss : t.get? key = none)
    (found : t.get? other = some s) : key ≠ other := by
  rintro rfl
  simp [miss] at found

theorem carries_of_kept (kept : ∀ {key s}, t.get? key = some s → ∃ s', u.get? key = some s' ∧
    s'.toLabel = s.toLabel ∧ s'.file = s.file ∧ s'.value = s.value ∧ s'.uses = s.uses) :
    Carries t u id where
  carried found := by
    obtain ⟨s', found', label, file, value, uses⟩ := kept found
    exact ⟨s', found', label, value, uses, .inl ⟨rfl, file⟩⟩
  apart _ _ same := same

theorem carries_self (t : SymbolTable) : Carries t t id :=
  carries_of_kept fun found => ⟨_, found, rfl, rfl, rfl, rfl⟩

/-- A promoted label is the one entry that moves, and no entry is where it moves to. -/
theorem Consistent.carries_promote (valid : t.Consistent) {s : Symbol} (proper : d.toLabel.Proper)
    (miss : t.get? d.key = none) (global : d.kind = .global) (concrete : isConcrete d.file = true)
    (undeclared : t.globals[d.text]? = none)
    (waiting : t.get? (pendingKey d.toLabel) = some s) :
    Carries t (t.promote d s) fun key => if key = pendingKey d.toLabel then d.key else key where
  carried {key x} found := by
    by_cases moves : key = pendingKey d.toLabel
    · subst moves
      obtain rfl := Option.some.inj (waiting.symm.trans found)
      obtain ⟨kind, text⟩ := valid.waiting proper global waiting
      have waits : isConcrete s.file = false := by
        -- A concrete file would have listed the name.
        by_contra listed
        have declared := valid.indexed waiting kind (by simpa using listed)
        simp [text, undeclared] at declared
      have start : pendingKey d.toLabel = s.toLabel.key pendingFile := by
        rw [pendingKey_of_global global]
        exact globalKey_congr global kind text.symm rfl
      have goal : d.key = s.toLabel.key d.file := globalKey_congr global kind text.symm rfl
      refine ⟨{ s with file := d.file, line := d.line }, ?_, rfl, rfl, rfl, .inr ?_⟩
      · simp [get?_promote]
      · exact ⟨kind, waits, concrete, start, (if_pos rfl).trans goal⟩
    · have elsewhere := ne_of_missing miss found
      refine ⟨x, ?_, ?_⟩
      · simp [moves, get?_promote, elsewhere, Ne.symm moves, found]
      · rw [if_neg moves]
        exact .refl key x
  apart {key other x y} found found' same := by
    by_cases first : key = pendingKey d.toLabel <;> by_cases second : other = pendingKey d.toLabel
    · exact first.trans second.symm
    · rw [if_pos first, if_neg second] at same
      exact absurd same (ne_of_missing miss found')
    · rw [if_neg first, if_pos second] at same
      exact absurd same.symm (ne_of_missing miss found)
    · rwa [if_neg first, if_neg second] at same

/-- A declaration keeps every entry; only a global label that waits for its file moves. -/
theorem Declared.carries {outcome : Lookup} (declared : Declared t d outcome) (valid : t.Consistent)
    (proper : d.toLabel.Proper) : ∃ moved, Carries t outcome.table moved := by
  cases declared with
  | refused => exact ⟨id, carries_self t⟩
  | @found _ s hit line entries globals =>
    refine ⟨id, carries_of_kept fun {key x} found => ?_⟩
    by_cases same : d.key = key
    · subst same
      obtain rfl := Option.some.inj (hit.symm.trans found)
      exact ⟨{ s with line := d.line }, by simp [entries], rfl, rfl, rfl, rfl⟩
    · exact ⟨x, by simp [entries, same, found], rfl, rfl, rfl, rfl⟩
  | promoted miss global concrete undeclared waiting =>
    exact ⟨_, valid.carries_promote proper miss global concrete undeclared waiting⟩
  | entered miss undeclared alone =>
    refine ⟨id, carries_of_kept fun {key x} found => ⟨x, ?_, rfl, rfl, rfl, rfl⟩⟩
    simp [get?_enter, ne_of_missing miss found, found]

theorem Consistent.carries_declare (valid : t.Consistent) (named : d.toLabel.Named) :
    ∃ moved, Carries t (t.declare d).table moved := by
  by_cases kind : d.kind = .kindless
  · refine ⟨id, ?_⟩
    simpa [declare, kind] using carries_self t
  · exact (valid.declared kind).carries valid (named.proper kind)

theorem Consistent.carries_refer (valid : t.Consistent) (named : r.toLabel.Named) :
    Carries t (t.refer r).1 id := by
  by_cases kind : r.kind = .kindless
  · simpa [SymbolTable.refer, kind] using carries_self t
  · apply carries_of_kept
    intro key s found
    refine ⟨s, ?_, rfl, rfl, rfl, rfl⟩
    simp [valid.get?_refer (named.proper kind), found]

/-! ### How many entries a look-up makes -/

theorem size_insert_le (t : SymbolTable) (key : Bytes) (s : Symbol) :
    (t.insert key s).size ≤ t.size + 1 := Std.TreeMap.size_insert_le

theorem size_enter_le (t : SymbolTable) (d : Declaration) : (t.enter d).size ≤ t.size + 1 := by
  have added := size_insert_le t d.key (Symbol.ofDeclaration d)
  unfold enter
  dsimp only
  split <;> exact added

theorem size_promote_le (t : SymbolTable) (d : Declaration) (s : Symbol) :
    (t.promote d s).size ≤ t.size + 1 := by
  apply Nat.le_trans Std.TreeMap.size_insert_le
  exact Nat.succ_le_succ Std.TreeMap.size_erase_le

theorem size_declare_le (t : SymbolTable) (d : Declaration) :
    (t.declare d).table.size ≤ t.size + 1 := by
  fun_cases declare t d with
  | case1 | case3 | case4 | case5 => exact Nat.le_succ _
  | case2 => exact size_insert_le ..
  | case6 => exact size_promote_le ..
  | case7 => exact size_enter_le ..

theorem size_refer_le (t : SymbolTable) (r : Reference) : (t.refer r).1.size ≤ t.size + 1 := by
  fun_cases refer t r with
  | case1 | case2 => exact Nat.le_succ _
  | case3 => exact size_insert_le ..

/-! ### Tables whose two maps agree -/

structure Coherent (t : SymbolTable) : Prop where
  /-- Every symbol stands under its own key. -/
  keyed : ∀ {key s}, t.get? key = some s → s.key = key
  /-- A global name has one entry in the whole table. -/
  single : ∀ {key other s u}, t.get? key = some s → t.get? other = some u → s.kind = .global →
    u.kind = .global → s.text = u.text → key = other
  /-- The index gives the entry of a global name that a concrete file declares, and no other. -/
  indexed : ∀ text key, t.globals[text]? = some key ↔
    ∃ s, t.get? key = some s ∧ s.kind = .global ∧ s.text = text ∧ isConcrete s.file = true
  /-- A name that the index gives does not wait for its file. -/
  unawaited : ∀ text : Bytes, (t.globals[text]?).isSome = true →
    t.get? (Label.key ⟨.global, text, []⟩ pendingFile) = none

/-- A name that a concrete file declares has no entry that waits for its file: the name would have
two entries. -/
theorem Consistent.not_waiting (valid : t.Consistent) {text key : Bytes}
    (listed : t.globals[text]? = some key) :
    t.get? (Label.key ⟨.global, text, []⟩ pendingFile) = none := by
  obtain ⟨s, found, kind, rfl, concrete⟩ := valid.listed listed
  obtain ⟨proper, own⟩ := valid.keyed found
  have properName : Label.Proper ⟨.global, s.text, []⟩ := ⟨by simp, proper.text, .inl rfl⟩
  cases waiting : t.get? (Label.key ⟨.global, s.text, []⟩ pendingFile) with
  | none => rfl
  | some u =>
    obtain ⟨properOther, other⟩ := valid.keyed waiting
    obtain ⟨⟨kind', text', -⟩, -⟩ := Label.key_inj properOther properName other
    have same := valid.single found waiting kind kind' text'.symm
    -- The key of the one entry names a concrete file and the unknown one.
    obtain ⟨-, files⟩ := Label.key_inj proper properName (own.trans same)
    obtain ⟨plain, apart⟩ := keyFile_of_concrete concrete
    exact absurd (plain.symm.trans files) apart

theorem Consistent.coherent (valid : t.Consistent) : t.Coherent where
  keyed found := (valid.keyed found).2
  single := valid.single
  indexed text key := by
    constructor
    · exact valid.listed
    · rintro ⟨s, found, kind, rfl, concrete⟩
      exact valid.indexed found kind concrete
  unawaited text listed := by
    obtain ⟨key, declared⟩ := Option.isSome_iff_exists.mp listed
    exact valid.not_waiting declared

/-! ### Runs -/

def write (t : SymbolTable) (key : Bytes) (v : Value) (uses : List Location) : SymbolTable :=
  { t with entries := t.entries.modify key fun s => { s with value := v, uses := uses } }

theorem get?_write (t : SymbolTable) (key other : Bytes) (v : Value) (uses : List Location) :
    (t.write key v uses).get? other =
      if key = other then (t.get? key).map fun s => { s with value := v, uses := uses }
      else t.get? other := by
  simp [write, get?, Std.TreeMap.getElem?_modify]

theorem write_sameLabels (t : SymbolTable) (key : Bytes) (v : Value) (uses : List Location) :
    SameLabels t (t.write key v uses) where
  entries other := by
    by_cases same : key = other
    · subst same
      cases found : t.get? key <;> simp [get?_write, found]
    · simp [get?_write, same]
  globals _ := rfl

end SymbolTable

/-- What a client does with a table: it looks a label up, or writes what a symbol that it was given
holds. A symbol is named by the key that it has at the time. -/
inductive TableStep where
  | declare (d : Declaration)
  | refer (r : Reference)
  | write (key : Bytes) (v : Value) (uses : List Location)

namespace TableStep

def apply (t : SymbolTable) : TableStep → SymbolTable
  | declare d => (t.declare d).table
  | refer r => (t.refer r).1
  | write key v uses => t.write key v uses

def run (steps : List TableStep) : SymbolTable := steps.foldl apply .empty

/-- A look-up is of a label made of names. -/
def Named : TableStep → Prop
  | declare d => d.toLabel.Named
  | refer r => r.toLabel.Named
  | write _ _ _ => True

theorem Named.consistent {t : SymbolTable} (valid : t.Consistent) {step : TableStep}
    (named : step.Named) : (step.apply t).Consistent := by
  cases step with
  | declare d =>
    by_cases kind : d.kind = .kindless
    · simpa [apply, SymbolTable.declare, kind] using valid
    · exact (valid.declared kind).consistent valid (Label.Named.proper named kind)
  | refer r =>
    by_cases kind : r.kind = .kindless
    · simpa [apply, SymbolTable.refer, kind] using valid
    · exact valid.refer (Label.Named.proper named kind)
  | write key v uses => exact (SymbolTable.write_sameLabels t key v uses).consistent valid

theorem foldl_consistent {steps : List TableStep} {t : SymbolTable} (valid : t.Consistent)
    (named : ∀ step ∈ steps, step.Named) : (steps.foldl apply t).Consistent := by
  induction steps generalizing t with
  | nil => exact valid
  | cons step rest ih =>
    apply ih ((named step List.mem_cons_self).consistent valid)
    exact fun x member => named x (List.mem_cons_of_mem _ member)

theorem run_consistent {steps : List TableStep} (named : ∀ step ∈ steps, step.Named) :
    (run steps).Consistent := foldl_consistent SymbolTable.empty_consistent named

end TableStep

/-- After any look-ups of labels that are made of names, in any order and with any writes between
them, the two maps of the table agree; and the next look-up, whatever it is, keeps every entry and
makes at most one. A reference moves none. -/
theorem lookups_coherent (steps : List TableStep) (named : ∀ step ∈ steps, step.Named) :
    let t := TableStep.run steps
    t.Coherent ∧
      (∀ d : Declaration, d.toLabel.Named →
        (∃ moved, t.Carries (t.declare d).table moved) ∧ (t.declare d).table.size ≤ t.size + 1) ∧
      ∀ r : Reference, r.toLabel.Named →
        t.Carries (t.refer r).1 id ∧ (t.refer r).1.size ≤ t.size + 1 := by
  intro t
  have valid : t.Consistent := TableStep.run_consistent named
  refine ⟨valid.coherent, fun d named => ?_, fun r named => ?_⟩
  · exact ⟨valid.carries_declare named, t.size_declare_le d⟩
  · exact ⟨valid.carries_refer named, t.size_refer_le r⟩

/-- A global label that is used and written before any file declares it, next to a static label of
a file without a name. -/
def awaitedSteps : List TableStep :=
  [.refer ⟨⟨.global, ascii "X", []⟩, [], 1, ascii "$X"⟩,
    .write (ascii "$X@?") (some 7) [⟨ascii "a.asm", 1⟩],
    .declare ⟨⟨.static, ascii "X", []⟩, [], 2, ascii "X:"⟩]

def awaitedDeclaration : Declaration := ⟨⟨.global, ascii "X", []⟩, ascii "b.asm", 3, ascii "$X:"⟩

theorem lookups_coherent_awaitedSteps :
    let t := TableStep.run awaitedSteps
    ((∀ step ∈ awaitedSteps, step.Named) ∧ awaitedDeclaration.toLabel.Named ∧
      (t.get? (ascii "$X@?")).isSome = true) ∧
    t.Coherent ∧ (∃ moved, t.Carries (t.declare awaitedDeclaration).table moved) ∧
      (t.declare awaitedDeclaration).table.size ≤ t.size + 1 := by
  intro t
  have named : ∀ step ∈ awaitedSteps, step.Named := by
    intro step member
    simp only [awaitedSteps, List.mem_cons, List.not_mem_nil, or_false] at member
    rcases member with rfl | rfl | rfl
    · exact ⟨by decide +kernel, .inl rfl⟩
    · trivial
    · exact ⟨by decide +kernel, .inl rfl⟩
  have last : awaitedDeclaration.toLabel.Named := ⟨by decide +kernel, .inl rfl⟩
  obtain ⟨coherent, declarations, -⟩ := lookups_coherent awaitedSteps named
  obtain ⟨carries, size⟩ := declarations awaitedDeclaration last
  exact ⟨⟨named, last, by decide +kernel⟩, coherent, carries, size⟩

end Assembler8080
