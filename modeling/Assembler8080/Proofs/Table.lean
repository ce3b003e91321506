import Assembler8080.Line
import Assembler8080.Proofs.Keys

/-! Laws of the symbol table. `Consistent` is the invariant that keeps its two maps together;
`Declared` says once what a declaration can do to a table, and every law about declarations is
derived from it. A reference changes no value and moves no entry. -/
namespace Assembler8080

namespace SymbolTable

/-- The value of the symbol under a key, if there is one and it is resolved. -/
def valueOf (t : SymbolTable) (key : Bytes) : Value := (t.get? key).bind (·.value)

/-- Entries stand under their own keys, a global name has one entry, and the index lists the global
names that a concrete file declares. -/
structure Consistent (t : SymbolTable) : Prop where
  keyed : ∀ {key s}, t.get? key = some s → s.toLabel.Proper ∧ s.key = key
  listed : ∀ {text key}, t.globals[text]? = some key →
    ∃ s, t.get? key = some s ∧ s.kind = .global ∧ s.text = text ∧ isConcrete s.file = true
  indexed : ∀ {key s}, t.get? key = some s → s.kind = .global → isConcrete s.file = true →
    t.globals[s.text]? = some key
  single : ∀ {key other s u}, t.get? key = some s → t.get? other = some u → s.kind = .global →
    u.kind = .global → s.text = u.text → key = other

theorem empty_consistent : empty.Consistent := by
  constructor <;> intros <;> simp_all [empty, get?]

/-! ### Changes that leave labels and files alone -/

/-- Values, uses and lines may change; the entries, their labels and files may not. -/
structure SameLabels (t u : SymbolTable) : Prop where
  entries : ∀ key, (u.get? key).map (fun s => (s.toLabel, s.file)) =
    (t.get? key).map (fun s => (s.toLabel, s.file))
  globals : ∀ text : Bytes, u.globals[text]? = t.globals[text]?

theorem SameLabels.exists {t u : SymbolTable} (same : SameLabels t u) {key : Bytes} {s : Symbol}
    (found : u.get? key = some s) :
    ∃ s', t.get? key = some s' ∧ s'.toLabel = s.toLabel ∧ s'.file = s.file := by
  have entries := same.entries key
  rw [found] at entries
  cases before : t.get? key with
  | none => simp [before] at entries
  | some s' =>
    simp only [before, Option.map_some, Option.some.injEq, Prod.mk.injEq] at entries
    exact ⟨s', rfl, entries.1.symm, entries.2.symm⟩

theorem SameLabels.symm {t u : SymbolTable} (same : SameLabels t u) : SameLabels u t :=
  ⟨fun key => (same.entries key).symm, fun text => (same.globals text).symm⟩

theorem SameLabels.consistent {t u : SymbolTable} (same : SameLabels t u) (valid : t.Consistent) :
    u.Consistent where
  keyed := by
    intro key s found
    obtain ⟨s', before, label, file⟩ := same.exists found
    obtain ⟨proper, own⟩ := valid.keyed before
    simp only [Symbol.key, label, file] at proper own
    exact ⟨proper, own⟩
  listed := by
    intro text key found
    rw [same.globals] at found
    obtain ⟨s, before, kind, name, concrete⟩ := valid.listed found
    obtain ⟨s', after, label, file⟩ := same.symm.exists before
    rw [← label] at kind name
    exact ⟨s', after, kind, name, file ▸ concrete⟩
  indexed := by
    intro key s found kind concrete
    obtain ⟨s', before, label, file⟩ := same.exists found
    rw [same.globals, ← label]
    exact valid.indexed before (label ▸ kind) (file ▸ concrete)
  single := by
    intro key other s u found found' kind kind' text
    obtain ⟨s', before, label, -⟩ := same.exists found
    obtain ⟨u', before', label', -⟩ := same.exists found'
    exact valid.single before before' (label ▸ kind) (label' ▸ kind') (label ▸ label' ▸ text)

theorem assign_sameLabels (t : SymbolTable) (key : Bytes) (v : Value) :
    SameLabels t (t.assign key v) where
  entries := by
    intro other
    rw [get?_assign]
    split
    next same => subst same; cases t.get? key <;> rfl
    next => rfl
  globals _ := rfl

theorem addReference_sameLabels (t : SymbolTable) (key : Bytes) (l : Location) :
    SameLabels t (t.addReference key l) where
  entries := by
    intro other
    rw [get?_addReference]
    split
    next same => subst same; cases t.get? key <;> rfl
    next => rfl
  globals _ := rfl

theorem clearReferences_sameLabels (t : SymbolTable) : SameLabels t t.clearReferences where
  entries := by
    intro key
    rw [get?_clearReferences]
    cases t.get? key <;> rfl
  globals _ := rfl

/-! ### References -/

theorem contains_eq (t : SymbolTable) (key : Bytes) :
    t.entries.contains key = (t.get? key).isSome := Std.TreeMap.contains_eq_isSome_getElem?

theorem keyFile_of_not_concrete {file : Bytes} (h : ¬ isConcrete file = true) :
    keyFile file = pendingFile := by
  simp only [isConcrete, Bool.not_eq_true', Bool.not_eq_false, Bool.or_eq_true,
    List.isEmpty_iff, beq_iff_eq] at h
  rcases h with empty | waiting
  · rw [empty]; rfl
  · rw [waiting]; rfl

theorem keyFile_of_concrete {file : Bytes} (h : isConcrete file = true) :
    keyFile file = file ∧ file ≠ pendingFile := by
  simp only [isConcrete, Bool.not_eq_true', Bool.or_eq_false_iff, beq_eq_false_iff_ne] at h
  exact ⟨by simp [keyFile, h.1], h.2⟩

/-- A key tells the file that it is for, if that one is concrete. -/
theorem file_of_keyFile {file other : Bytes} (files : keyFile file = keyFile other)
    (concrete : isConcrete other = true) : file = other := by
  obtain ⟨plain, known⟩ := keyFile_of_concrete concrete
  by_cases declared : isConcrete file = true
  · rw [← (keyFile_of_concrete declared).1, files, plain]
  · rw [keyFile_of_not_concrete declared, plain] at files
    exact absurd files.symm known

/-- Global labels of one name have the same key in the same file. -/
theorem globalKey_congr {l m : Label} (left : l.kind = .global) (right : m.kind = .global)
    (text : l.text = m.text) {file other : Bytes} (files : keyFile file = keyFile other) :
    l.key file = m.key other := by
  simp [Label.key, Label.name, left, right, text, files]

theorem pendingKey_of_global {l : Label} (global : l.kind = .global) :
    pendingKey l = l.key pendingFile := by
  obtain ⟨kind, text, parent⟩ := l
  obtain rfl : kind = .global := global
  rfl

/-- Where a reference has no entry, it is looked up under its own key. -/
theorem Consistent.referenceKey_of_missing {t : SymbolTable} (valid : t.Consistent) {r : Reference}
    (missing : t.get? (t.referenceKey r) = none) : t.referenceKey r = r.key := by
  unfold referenceKey at missing ⊢
  split
  next global =>
    rw [if_pos global] at missing
    cases declared : t.globals[r.text]? with
    | none => rfl
    | some key =>
      obtain ⟨s, found, -⟩ := valid.listed declared
      simp [declared, found] at missing
  next => rfl

theorem Consistent.find?_eq {t : SymbolTable} (valid : t.Consistent) (r : Reference) :
    t.find? r = if (t.get? (t.referenceKey r)).isSome then some (t.referenceKey r) else none := by
  unfold find?
  simp only [contains_eq]
  split
  next => rfl
  next missing =>
    have entryless : t.get? (t.referenceKey r) = none := by simpa using missing
    rw [if_neg]
    rintro ⟨global, waiting⟩
    have own := valid.referenceKey_of_missing entryless
    rw [pendingKey_of_global global] at waiting
    simp only [Reference.key, if_pos global] at own
    rw [← own, entryless] at waiting
    contradiction

theorem Consistent.refer_key {t : SymbolTable} (valid : t.Consistent) {r : Reference}
    (proper : r.toLabel.Proper) : (t.refer r).2 = some (t.referenceKey r) := by
  rw [refer, if_neg proper.kind, valid.find?_eq]
  by_cases found : (t.get? (t.referenceKey r)).isSome = true
  · rw [if_pos found]
  · rw [if_neg found]

theorem Consistent.get?_refer {t : SymbolTable} (valid : t.Consistent) {r : Reference}
    (proper : r.toLabel.Proper) (key : Bytes) :
    (t.refer r).1.get? key =
      if t.get? key = none ∧ t.referenceKey r = key then some (Symbol.ofReference r)
      else t.get? key := by
  rw [refer, if_neg proper.kind, valid.find?_eq]
  by_cases found : (t.get? (t.referenceKey r)).isSome = true
  · rw [if_pos found, if_neg]
    rintro ⟨missing, rfl⟩
    simp [missing] at found
  · rw [if_neg found, get?_insert]
    by_cases same : t.referenceKey r = key
    · subst same
      have missing : t.get? (t.referenceKey r) = none := by simpa using found
      simp [missing]
    · simp [same]

@[simp] theorem globals_refer (t : SymbolTable) (r : Reference) :
    (t.refer r).1.globals = t.globals := by
  unfold refer
  split
  · rfl
  · split <;> rfl

/-- The symbol that a reference denotes has the value under the key of the reference. -/
theorem Consistent.denoted_value {t : SymbolTable} (valid : t.Consistent) (r : Reference) :
    (t.denoted r).value = t.valueOf (t.referenceKey r) := by
  unfold denoted valueOf
  rw [valid.find?_eq]
  cases found : t.get? (t.referenceKey r) with
  | none => rfl
  | some s => simp [found]

theorem ofReference_key {r : Reference} : (Symbol.ofReference r).key = r.key := rfl

theorem ofReference_not_concrete {r : Reference} (global : r.kind = .global) :
    isConcrete (Symbol.ofReference r).file = false := by
  simp [Symbol.ofReference, global, isConcrete]

/-- One more entry, of a label whose global name no other entry has. It is listed if a concrete file
declares it. -/
theorem Consistent.add {t u : SymbolTable} (valid : t.Consistent) {s : Symbol}
    (proper : s.toLabel.Proper) (fresh : t.get? s.key = none)
    (alone : s.kind = .global → ∀ {key x}, t.get? key = some x → x.kind = .global →
      x.text ≠ s.text)
    (entries : ∀ key, u.get? key = if s.key = key then some s else t.get? key)
    (globals : ∀ text : Bytes, u.globals[text]? =
      if (s.kind = .global ∧ isConcrete s.file) ∧ s.text = text then some s.key
      else t.globals[text]?) : u.Consistent := by
  constructor
  · intro key x found
    rw [entries] at found
    split at found
    next same =>
      obtain rfl := Option.some.inj found
      exact ⟨proper, same⟩
    next => exact valid.keyed found
  · intro text key declared
    rw [globals] at declared
    split at declared
    next declares =>
      obtain rfl := Option.some.inj declared
      exact ⟨s, by rw [entries, if_pos rfl], declares.1.1, declares.2, declares.1.2⟩
    next =>
      obtain ⟨x, found, rest⟩ := valid.listed declared
      refine ⟨x, ?_, rest⟩
      rw [entries, if_neg, found]
      rintro rfl
      rw [fresh] at found
      contradiction
  · intro key x found kind concrete
    rw [entries] at found
    rw [globals]
    split at found
    next same =>
      obtain rfl := Option.some.inj found
      rw [if_pos ⟨⟨kind, concrete⟩, rfl⟩, same]
    next =>
      rw [if_neg, valid.indexed found kind concrete]
      rintro ⟨⟨global, -⟩, text⟩
      exact alone global found kind text.symm
  · intro key other x y found found' kind kind' text
    rw [entries] at found found'
    split at found <;> split at found'
    next same same' => exact same.symm.trans same'
    next =>
      obtain rfl := Option.some.inj found
      exact absurd text.symm (alone kind found' kind')
    next =>
      obtain rfl := Option.some.inj found'
      exact absurd text (alone kind' found kind)
    next => exact valid.single found found' kind kind' text

/-- No entry has the name of a global label that is neither declared nor awaited. -/
theorem Consistent.alone {t : SymbolTable} (valid : t.Consistent) {l : Label}
    (global : l.kind = .global) (undeclared : t.globals[l.text]? = none)
    (unawaited : t.get? (pendingKey l) = none) {key : Bytes} {s : Symbol}
    (found : t.get? key = some s) (kind : s.kind = .global) : s.text ≠ l.text := by
  intro text
  by_cases concrete : isConcrete s.file = true
  · have listed := valid.indexed found kind concrete
    rw [text, undeclared] at listed
    contradiction
  · have pending : pendingKey l = key := by
      rw [← (valid.keyed found).2, pendingKey_of_global global]
      exact globalKey_congr global kind text.symm (keyFile_of_not_concrete concrete).symm
    rw [pending, found] at unawaited
    contradiction

/-- A label that is looked up for the first time gets an entry of its own; it is not listed, since
no file declares it yet. -/
theorem Consistent.refer {t : SymbolTable} (valid : t.Consistent) {r : Reference}
    (proper : r.toLabel.Proper) : (t.refer r).1.Consistent := by
  by_cases present : (t.get? (t.referenceKey r)).isSome = true
  · rw [SymbolTable.refer, if_neg proper.kind, valid.find?_eq, if_pos present]
    exact valid
  have missing : t.get? (t.referenceKey r) = none := by simpa using present
  have own := valid.referenceKey_of_missing missing
  rw [own] at missing
  refine valid.add (s := Symbol.ofReference r) proper missing ?_ ?_ ?_
  · intro (global : r.kind = .global) key x found kind
    have undeclared : t.globals[r.text]? = none := by
      cases declared : t.globals[r.text]? with
      | none => rfl
      | some other =>
        obtain ⟨y, listed, -⟩ := valid.listed declared
        rw [referenceKey, if_pos global, declared] at own
        rw [← own, Option.getD_some, listed] at missing
        contradiction
    have unawaited : t.get? (pendingKey r.toLabel) = none := by
      rwa [Reference.key, if_pos global, ← pendingKey_of_global global] at missing
    exact valid.alone global undeclared unawaited found kind
  · intro key
    rw [valid.get?_refer proper, own, ofReference_key]
    by_cases same : r.key = key
    · rw [if_pos ⟨same ▸ missing, same⟩, if_pos same]
    · rw [if_neg (fun both => same both.2), if_neg same]
  · intro text
    rw [globals_refer, if_neg]
    rintro ⟨⟨global, concrete⟩, -⟩
    rw [ofReference_not_concrete global] at concrete
    contradiction

/-! ### Declarations -/

theorem get?_enter (t : SymbolTable) (d : Declaration) (key : Bytes) :
    (t.enter d).get? key = if d.key = key then some (Symbol.ofDeclaration d) else t.get? key := by
  unfold enter
  dsimp only
  split <;> exact get?_insert ..

theorem globals_enter (t : SymbolTable) (d : Declaration) (text : Bytes) :
    (t.enter d).globals[text]? =
      if (d.kind = .global ∧ isConcrete d.file) ∧ d.text = text then some d.key
      else t.globals[text]? := by
  unfold enter
  dsimp only
  split
  next declares => simp [declares, insert, Std.TreeMap.getElem?_insert]
  next other => simp [other, insert]

theorem get?_promote (t : SymbolTable) (d : Declaration) (s : Symbol) (key : Bytes) :
    (t.promote d s).get? key =
      if d.key = key then some { s with file := d.file, line := d.line }
      else if pendingKey d.toLabel = key then none else t.get? key := by
  simp [promote, get?, Std.TreeMap.getElem?_insert, Std.TreeMap.getElem?_erase]

theorem globals_promote (t : SymbolTable) (d : Declaration) (s : Symbol) (text : Bytes) :
    (t.promote d s).globals[text]? = if d.text = text then some d.key else t.globals[text]? := by
  simp [promote, Std.TreeMap.getElem?_insert]

/-- What looking a declaration up can do. A refused label has an entry of its own or is a global
label of another file; an accepted one has its entry under its own key afterwards. -/
inductive Declared (t : SymbolTable) (d : Declaration) : Lookup → Prop where
  | refused {key : Option Bytes} {fault : DeclarationFault}
      (known : (t.get? d.key).isSome = true ∨
        d.kind = .global ∧ (t.globals[d.text]?).isSome = true) :
      Declared t d ⟨t, key, some fault⟩
  | found {table : SymbolTable} {s : Symbol} (hit : t.get? d.key = some s)
      (line : s.line = 0 ∨ s.line = d.line)
      (entries : ∀ key, table.get? key =
        if d.key = key then some { s with line := d.line } else t.get? key)
      (globals : table.globals = t.globals) :
      Declared t d ⟨table, some d.key, none⟩
  | promoted {s : Symbol} (miss : t.get? d.key = none) (global : d.kind = .global)
      (concrete : isConcrete d.file = true) (undeclared : t.globals[d.text]? = none)
      (waiting : t.get? (pendingKey d.toLabel) = some s) :
      Declared t d ⟨t.promote d s, some d.key, none⟩
  | entered (miss : t.get? d.key = none) (undeclared : d.kind = .global → t.globals[d.text]? = none)
      (alone : d.kind = .global → isConcrete d.file = true →
        t.get? (pendingKey d.toLabel) = none) :
      Declared t d ⟨t.enter d, some d.key, none⟩

theorem declaredElsewhere?_some {t : SymbolTable} {d : Declaration} {key : Bytes} {s : Symbol}
    (elsewhere : t.declaredElsewhere? d = some (key, s)) :
    d.kind = .global ∧ t.globals[d.text]? = some key ∧ t.get? key = some s := by
  unfold declaredElsewhere? at elsewhere
  split at elsewhere
  next global =>
    simp only [Option.bind_eq_bind, Option.bind_eq_some_iff] at elsewhere
    obtain ⟨other, listed, x, found, same⟩ := elsewhere
    obtain ⟨rfl, rfl⟩ := Prod.mk.inj (Option.some.inj same)
    exact ⟨global, listed, found⟩
  next => contradiction

theorem Consistent.undeclared {t : SymbolTable} (valid : t.Consistent) {d : Declaration}
    (elsewhere : t.declaredElsewhere? d = none) (global : d.kind = .global) :
    t.globals[d.text]? = none := by
  cases declared : t.globals[d.text]? with
  | none => rfl
  | some key =>
    obtain ⟨s, found, -⟩ := valid.listed declared
    simp [declaredElsewhere?, global, declared, found] at elsewhere

theorem Consistent.declared {t : SymbolTable} (valid : t.Consistent) {d : Declaration}
    (kind : d.kind ≠ .kindless) : Declared t d (t.declare d) := by
  unfold declare
  rw [if_neg kind]
  cases hit : t.get? d.key with
  | some s =>
    dsimp only
    split
    next unknown =>
      exact .found hit (.inl unknown) (fun key => get?_insert ..) rfl
    next =>
      split
      next again =>
        refine .found hit (.inr again) (fun key => ?_) rfl
        split
        next same => rw [← same, hit, ← again]
        next => rfl
      next => exact .refused (.inl (by simp [hit]))
  | none =>
    dsimp only
    cases elsewhere : t.declaredElsewhere? d with
    | some entry =>
      obtain ⟨global, listed, -⟩ := declaredElsewhere?_some elsewhere
      exact .refused (.inr ⟨global, by simp [listed]⟩)
    | none =>
      dsimp only
      have undeclared := valid.undeclared elsewhere
      cases waiting : t.pending? d with
      | some s =>
        unfold pending? at waiting
        split at waiting
        next declares =>
          exact .promoted hit declares.1 declares.2 (undeclared declares.1) waiting
        next => contradiction
      | none =>
        refine .entered hit undeclared fun global concrete => ?_
        simpa [pending?, global, concrete] using waiting

theorem Consistent.waiting {t : SymbolTable} (valid : t.Consistent) {d : Declaration} {s : Symbol}
    (proper : d.toLabel.Proper) (global : d.kind = .global)
    (waiting : t.get? (pendingKey d.toLabel) = some s) : s.kind = .global ∧ s.text = d.text := by
  obtain ⟨properSymbol, own⟩ := valid.keyed waiting
  rw [pendingKey_of_global global] at own
  obtain ⟨⟨kind, text, -⟩, -⟩ := Label.key_inj properSymbol proper own
  exact ⟨kind.trans global, text⟩

theorem key_ne_pendingKey {d : Declaration} {l : Label} (proper : d.toLabel.Proper)
    (other : l.Proper) (global : l.kind = .global) (concrete : isConcrete d.file = true) :
    d.key ≠ pendingKey l := by
  rw [pendingKey_of_global global]
  intro same
  obtain ⟨own, notPending⟩ := keyFile_of_concrete concrete
  obtain ⟨-, files⟩ := Label.key_inj proper other same
  rw [own] at files
  exact notPending files

/-- An entry that is not listed can be taken away. -/
theorem Consistent.erase {t u : SymbolTable} (valid : t.Consistent) {key : Bytes}
    (unlisted : ∀ text : Bytes, t.globals[text]? ≠ some key)
    (entries : ∀ other, u.get? other = if key = other then none else t.get? other)
    (globals : u.globals = t.globals) : u.Consistent := by
  have old {other : Bytes} {s : Symbol} (found : u.get? other = some s) : t.get? other = some s := by
    rw [entries] at found
    split at found
    next => contradiction
    next => exact found
  constructor
  · exact fun found => valid.keyed (old found)
  · intro text other declared
    rw [globals] at declared
    obtain ⟨s, found, rest⟩ := valid.listed declared
    refine ⟨s, ?_, rest⟩
    rw [entries, if_neg, found]
    rintro rfl
    exact unlisted text declared
  · intro other s found kind concrete
    rw [globals]
    exact valid.indexed (old found) kind concrete
  · exact fun found found' => valid.single (old found) (old found')

/-- A label that is promoted leaves its place and comes back under the key of its file. -/
theorem Consistent.promote {t : SymbolTable} (valid : t.Consistent) {d : Declaration} {s : Symbol}
    (proper : d.toLabel.Proper) (miss : t.get? d.key = none) (global : d.kind = .global)
    (concrete : isConcrete d.file = true) (undeclared : t.globals[d.text]? = none)
    (waiting : t.get? (pendingKey d.toLabel) = some s) : (t.promote d s).Consistent := by
  obtain ⟨kind, text⟩ := valid.waiting proper global waiting
  have key : Symbol.key { s with file := d.file, line := d.line } = d.key :=
    globalKey_congr kind global text rfl
  have entries (other : Bytes) :
      SymbolTable.get? ⟨t.entries.erase (pendingKey d.toLabel), t.globals⟩ other =
        if pendingKey d.toLabel = other then none else t.get? other := by
    simp [get?, Std.TreeMap.getElem?_erase]
  have erased : Consistent ⟨t.entries.erase (pendingKey d.toLabel), t.globals⟩ := by
    refine valid.erase (fun name listed => ?_) entries rfl
    obtain ⟨x, found, -, name', -⟩ := valid.listed listed
    obtain rfl := Option.some.inj (waiting.symm.trans found)
    rw [← name', text, undeclared] at listed
    contradiction
  refine erased.add (s := { s with file := d.file, line := d.line }) (valid.keyed waiting).1 ?_ ?_ ?_ ?_
  · rw [key, entries, miss, ite_self]
  · intro _ other x found kind' name
    rw [entries] at found
    split at found
    next => contradiction
    next apart => exact apart (valid.single waiting found kind kind' name.symm)
  · intro other
    rw [get?_promote, key, entries]
  · intro name
    rw [globals_promote, key]
    simp only [kind, concrete, text, true_and]

theorem Consistent.enter {t : SymbolTable} (valid : t.Consistent) {d : Declaration}
    (proper : d.toLabel.Proper) (miss : t.get? d.key = none)
    (undeclared : d.kind = .global → t.globals[d.text]? = none)
    (unawaited : d.kind = .global → isConcrete d.file = true →
      t.get? (pendingKey d.toLabel) = none) : (t.enter d).Consistent := by
  refine valid.add (s := Symbol.ofDeclaration d) proper miss ?_ (get?_enter t d) (globals_enter t d)
  intro global key x found kind
  refine valid.alone global (undeclared global) ?_ found kind
  by_cases concrete : isConcrete d.file = true
  · exact unawaited global concrete
  · -- The key of an unknown file is the one under which the label would wait.
    rw [pendingKey_of_global global, ← miss]
    exact congrArg _ (globalKey_congr global global rfl (keyFile_of_not_concrete concrete).symm)

/-- Any declaration of a proper label keeps the table consistent. -/
theorem Declared.consistent {t : SymbolTable} {d : Declaration} {outcome : Lookup}
    (declared : Declared t d outcome) (valid : t.Consistent) (proper : d.toLabel.Proper) :
    outcome.table.Consistent := by
  cases declared with
  | refused => exact valid
  | found hit line entries globals =>
    refine SameLabels.consistent ⟨fun key => ?_, fun text => by rw [globals]⟩ valid
    rw [entries]
    split
    next same => rw [← same, hit]; rfl
    next => rfl
  | promoted miss global concrete undeclared waiting =>
    exact valid.promote proper miss global concrete undeclared waiting
  | entered miss undeclared alone => exact valid.enter proper miss undeclared alone

/-! ### The uses of a line -/

/-- Entries without a line and a value may be new; those of before have the lines and values of
before. -/
structure Extends (t u : SymbolTable) : Prop where
  kept : ∀ {key s}, t.get? key = some s →
    ∃ s', u.get? key = some s' ∧ s'.line = s.line ∧ s'.value = s.value
  fresh : ∀ {key s}, t.get? key = none → u.get? key = some s → s.line = 0 ∧ s.value = none
  globals : ∀ text : Bytes, u.globals[text]? = t.globals[text]?

namespace Extends

theorem refl (t : SymbolTable) : Extends t t where
  kept found := ⟨_, found, rfl, rfl⟩
  fresh missing found := by
    rw [missing] at found
    contradiction
  globals _ := rfl

theorem old {t u : SymbolTable} (ext : Extends t u) {key : Bytes} {s : Symbol}
    (found : u.get? key = some s) :
    (∃ s', t.get? key = some s' ∧ s'.line = s.line ∧ s'.value = s.value) ∨
      s.line = 0 ∧ s.value = none := by
  cases before : t.get? key with
  | none => exact .inr (ext.fresh before found)
  | some s' =>
    obtain ⟨s'', after, line, value⟩ := ext.kept before
    obtain rfl := Option.some.inj (found.symm.trans after)
    exact .inl ⟨s', rfl, line.symm, value.symm⟩

theorem trans {t u v : SymbolTable} (first : Extends t u) (second : Extends u v) : Extends t v where
  kept found := by
    obtain ⟨s', found', line, value⟩ := first.kept found
    obtain ⟨s'', found'', line', value'⟩ := second.kept found'
    exact ⟨s'', found'', line'.trans line, value'.trans value⟩
  fresh missing found := by
    rcases second.old found with ⟨s', found', line, value⟩ | blank
    · rw [← line, ← value]
      exact first.fresh missing found'
    · exact blank
  globals text := (second.globals text).trans (first.globals text)

theorem valueOf {t u : SymbolTable} (ext : Extends t u) (key : Bytes) :
    u.valueOf key = t.valueOf key := by
  unfold SymbolTable.valueOf
  cases before : t.get? key with
  | some s =>
    obtain ⟨s', after, -, value⟩ := ext.kept before
    simp [after, value]
  | none =>
    cases after : u.get? key with
    | none => rfl
    | some s => simp [(ext.fresh before after).2]

theorem referenceKey {t u : SymbolTable} (ext : Extends t u) (r : Reference) :
    u.referenceKey r = t.referenceKey r := by
  unfold SymbolTable.referenceKey
  rw [ext.globals]

end Extends

theorem Consistent.refer_extends {t : SymbolTable} (valid : t.Consistent) {r : Reference}
    (proper : r.toLabel.Proper) : Extends t (t.refer r).1 where
  kept {key s} found := ⟨s, by rw [valid.get?_refer proper, if_neg (by simp [found]), found],
    rfl, rfl⟩
  fresh missing found := by
    rw [valid.get?_refer proper] at found
    split at found
    · obtain rfl := Option.some.inj found
      exact ⟨rfl, rfl⟩
    · rw [missing] at found
      contradiction
  globals text := by rw [globals_refer]

theorem addReference_extends (t : SymbolTable) (key : Bytes) (l : Location) :
    Extends t (t.addReference key l) where
  kept {other s} found := by
    rw [get?_addReference]
    split
    next same =>
      subst same
      exact ⟨s.addUse l, by rw [found]; rfl, rfl, rfl⟩
    next => exact ⟨s, found, rfl, rfl⟩
  fresh missing found := by
    rw [get?_addReference] at found
    split at found
    next same =>
      subst same
      simp [missing] at found
    next =>
      rw [missing] at found
      contradiction
  globals _ := rfl

theorem clearReferences_extends (t : SymbolTable) : Extends t t.clearReferences where
  kept {key s} found := ⟨{ s with uses := [] }, by rw [get?_clearReferences, found]; rfl, rfl, rfl⟩
  fresh missing found := by simp [get?_clearReferences, missing] at found
  globals _ := rfl

theorem Consistent.use_eq {t : SymbolTable} (valid : t.Consistent) {r : Reference}
    (proper : r.toLabel.Proper) (final : Bool) (l : Location) :
    t.use final l r =
      if final then (t.refer r).1.addReference (t.referenceKey r) l else (t.refer r).1 := by
  unfold SymbolTable.use
  have key := valid.refer_key proper
  generalize t.refer r = outcome at key
  obtain ⟨u, found⟩ := outcome
  obtain rfl : found = some (t.referenceKey r) := key
  rfl

theorem Consistent.use {t : SymbolTable} (valid : t.Consistent) {r : Reference}
    (proper : r.toLabel.Proper) (final : Bool) (l : Location) :
    (t.use final l r).Consistent ∧ Extends t (t.use final l r) := by
  rw [valid.use_eq proper]
  split
  · exact ⟨(addReference_sameLabels ..).consistent (valid.refer proper),
      (valid.refer_extends proper).trans (addReference_extends ..)⟩
  · exact ⟨valid.refer proper, valid.refer_extends proper⟩

theorem Consistent.uses {t : SymbolTable} (valid : t.Consistent) (final : Bool) (l : Location)
    {references : List Reference} (proper : ∀ r ∈ references, r.toLabel.Proper) :
    (references.foldl (SymbolTable.use final l) t).Consistent ∧
      Extends t (references.foldl (SymbolTable.use final l) t) := by
  induction references generalizing t with
  | nil => exact ⟨valid, .refl t⟩
  | cons r rest ih =>
    obtain ⟨next, ext⟩ := valid.use (proper r List.mem_cons_self) final l
    obtain ⟨last, more⟩ := ih next fun r' member => proper r' (List.mem_cons_of_mem _ member)
    exact ⟨last, ext.trans more⟩

/-- The symbol that a reference denotes has the name that is written. -/
theorem Consistent.denoted_name {t : SymbolTable} (valid : t.Consistent) {r : Reference}
    (proper : r.toLabel.Proper) : (t.denoted r).name = r.name := by
  unfold denoted
  rw [valid.find?_eq]
  cases found : t.get? (t.referenceKey r) with
  | none => rfl
  | some s =>
    simp only [Option.isSome_some, if_true, Option.bind_some, found, Option.getD_some]
    obtain ⟨own, key⟩ := valid.keyed found
    unfold referenceKey at key found
    by_cases declared : r.kind = .global ∧ ∃ key, t.globals[r.text]? = some key
    · obtain ⟨global, other, listed⟩ := declared
      obtain ⟨s', found', kind, text, -⟩ := valid.listed listed
      rw [if_pos global, listed, Option.getD_some, found'] at found
      obtain rfl := Option.some.inj found
      simp only [Label.name, kind, global, text]
    · have plain : s.key = r.key := by
        rw [key]
        split
        next global =>
          cases listed : t.globals[r.text]? with
          | none => rfl
          | some other => exact absurd ⟨global, other, listed⟩ declared
        next => rfl
      exact (Label.key_parts own proper plain).1

/-- Earlier uses in a line do not change what a reference is seen to be. -/
theorem Consistent.denoted_uses {t : SymbolTable} (valid : t.Consistent) (final : Bool)
    (l : Location) {references : List Reference} (proper : ∀ r ∈ references, r.toLabel.Proper)
    {r : Reference} (own : r.toLabel.Proper) :
    ((references.foldl (SymbolTable.use final l) t).denoted r).value = (t.denoted r).value ∧
      ((references.foldl (SymbolTable.use final l) t).denoted r).name = (t.denoted r).name := by
  obtain ⟨valid', ext⟩ := valid.uses final l proper
  have key := ext.referenceKey r
  exact ⟨by rw [valid'.denoted_value, valid.denoted_value, key, ext.valueOf],
    by rw [valid'.denoted_name own, valid.denoted_name own]⟩

/-! ### The definition of a line -/

/-- An accepted declaration leaves the entry of the label under its key, with its line. -/
theorem Declared.present {t : SymbolTable} {d : Declaration} {found : Lookup}
    (declared : Declared t d found) (accepted : found.fault = none) :
    found.key = some d.key ∧ ∃ s, found.table.get? d.key = some s ∧ s.line = d.line := by
  cases declared with
  | refused => contradiction
  | found hit line entries globals => exact ⟨rfl, _, by rw [entries, if_pos rfl], rfl⟩
  | promoted => exact ⟨rfl, _, by rw [get?_promote, if_pos rfl], rfl⟩
  | entered => exact ⟨rfl, _, by rw [get?_enter, if_pos rfl], rfl⟩

/-- What defining a label can do: it is refused, or it keeps a value that it would lose, or it
takes the new one. -/
inductive Defined (t : SymbolTable) (d : Declaration) (v : Value) :
    SymbolTable × List LineFault → Prop where
  | refused {fault : DeclarationFault}
      (known : (t.get? d.key).isSome = true ∨
        d.kind = .global ∧ (t.globals[d.text]?).isSome = true) :
      Defined t d v (t, [⟨1, .duplicateLabel fault⟩])
  | kept {u : SymbolTable} {s : Symbol} {w : UInt16}
      (accepted : Declared t d ⟨u, some d.key, none⟩) (present : u.get? d.key = some s)
      (value : s.value = some w) (unresolved : v = none) :
      Defined t d v (u, [⟨1, .lostValue s.name s.value⟩])
  | assigned {u : SymbolTable} {s : Symbol} (accepted : Declared t d ⟨u, some d.key, none⟩)
      (present : u.get? d.key = some s) (line : s.line = d.line)
      (free : ∀ w, s.value = some w → v ≠ none) :
      Defined t d v (u.assign d.key v, [])

theorem Consistent.defined {t : SymbolTable} (valid : t.Consistent) {d : Declaration}
    (proper : d.toLabel.Proper) (v : Value) : Defined t d v (t.define d v) := by
  have declared := valid.declared proper.kind
  unfold define
  dsimp only
  generalize t.declare d = found at declared
  obtain ⟨u, key, fault⟩ := found
  cases fault with
  | some fault =>
    cases declared with
    | refused known => exact .refused known
  | none =>
    obtain ⟨rfl, s, present, line⟩ := declared.present rfl
    dsimp only at present ⊢
    rw [present]
    dsimp only
    split
    next lost =>
      simp only [Bool.and_eq_true, Option.isNone_iff_eq_none] at lost
      obtain ⟨w, value⟩ := Option.isSome_iff_exists.mp lost.1
      exact .kept declared present value lost.2
    next free =>
      refine .assigned declared present line fun w value unresolved => ?_
      simp [value, unresolved] at free

theorem Consistent.define {t : SymbolTable} (valid : t.Consistent) {d : Declaration}
    (proper : d.toLabel.Proper) (v : Value) : (t.define d v).1.Consistent := by
  have defined := valid.defined proper v
  generalize t.define d v = outcome at defined
  cases defined with
  | refused => exact valid
  | kept accepted => exact accepted.consistent valid proper
  | assigned accepted =>
    exact (assign_sameLabels ..).consistent (accepted.consistent valid proper)

end SymbolTable

end Assembler8080
