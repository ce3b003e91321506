import Mathlib.Data.Finset.Card
import Assembler8080.Proofs.Lookups
import Assembler8080.Proofs.Phase

/-! Progress over passes. A symbol is never lost and never loses its value (`SymbolTable.Later`).
After the first pass every look-up of a line finds its entry (`SymbolTable.Settled`), so later passes
change nothing but values and uses (`passAt_alike`), and the number of symbols without a value cannot
grow (`SymbolTable.Advances`). -/
namespace Assembler8080

namespace SymbolTable

/-! ### Keys and counts -/

def keys (t : SymbolTable) : Finset Bytes := t.entries.keys.toFinset

def unresolvedKeys (t : SymbolTable) : Finset Bytes := t.keys.filter fun key => t.valueOf key = none

theorem mem_keys {t : SymbolTable} {key : Bytes} : key ∈ t.keys ↔ (t.get? key).isSome = true := by
  rw [keys, List.mem_toFinset, Std.TreeMap.mem_keys, ← contains_eq, Std.TreeMap.contains_iff_mem]

theorem mem_unresolvedKeys {t : SymbolTable} {key : Bytes} :
    key ∈ t.unresolvedKeys ↔ ∃ s, t.get? key = some s ∧ s.value = none := by
  rw [unresolvedKeys, Finset.mem_filter, mem_keys, valueOf]
  cases t.get? key <;> simp

theorem symbols_eq (t : SymbolTable) : t.symbols = t.entries.toList.map Prod.snd := by
  have pairs : t.entries.toList = _ := Std.DTreeMap.Internal.Impl.Const.toList_eq_toListModel_map
  rw [pairs, List.map_map]
  exact Std.DTreeMap.Internal.Impl.values_eq_map_snd

/-- The count that decides on another pass is the number of keys without a value. -/
theorem card_unresolvedKeys (t : SymbolTable) : t.unresolvedKeys.card = t.unresolved := by
  have nodup : (t.entries.keys.filter fun key => t.valueOf key = none).Nodup :=
    Std.TreeMap.nodup_keys.filter _
  have listed : t.unresolvedKeys =
      (t.entries.keys.filter fun key => t.valueOf key = none).toFinset := by
    rw [unresolvedKeys, keys, List.toFinset_filter]
    simp only [decide_eq_true_eq]
  rw [listed, List.toFinset_card_of_nodup nodup, unresolved, symbols_eq,
    ← List.countP_eq_length_filter, ← Std.TreeMap.map_fst_toList_eq_keys, List.countP_map,
    List.countP_map]
  refine List.countP_congr fun entry member => ?_
  have found : t.get? entry.1 = some entry.2 :=
    Std.TreeMap.mem_toList_iff_getElem?_eq_some.mp member
  simp [valueOf, found]

/-! ### Tables that look alike -/

/-- Tables with the same keys and global names, whose symbols look the same in a view of them. -/
structure Alike {α : Type} (view : Symbol → α) (t u : SymbolTable) : Prop where
  entries : ∀ key, (u.get? key).map view = (t.get? key).map view
  globals : ∀ text : Bytes, u.globals[text]? = t.globals[text]?

namespace Alike

variable {α : Type} {view : Symbol → α} {t u v : SymbolTable}

theorem refl (t : SymbolTable) : Alike view t t := ⟨fun _ => rfl, fun _ => rfl⟩

theorem symm (alike : Alike view t u) : Alike view u t :=
  ⟨fun key => (alike.entries key).symm, fun text => (alike.globals text).symm⟩

theorem trans (first : Alike view t u) (second : Alike view u v) : Alike view t v :=
  ⟨fun key => (second.entries key).trans (first.entries key),
    fun text => (second.globals text).trans (first.globals text)⟩

theorem cases (alike : Alike view t u) (key : Bytes) :
    (t.get? key = none ∧ u.get? key = none) ∨
      ∃ s s', t.get? key = some s ∧ u.get? key = some s' ∧ view s' = view s := by
  have same := alike.entries key
  cases left : t.get? key with
  | none => exact .inl ⟨rfl, by simpa [left] using same⟩
  | some s =>
    rw [left, Option.map_some, Option.map_eq_some_iff] at same
    obtain ⟨s', right, look⟩ := same
    exact .inr ⟨s, s', rfl, right, look⟩

theorem isSome_get? (alike : Alike view t u) (key : Bytes) :
    (u.get? key).isSome = (t.get? key).isSome := by
  obtain ⟨left, right⟩ | ⟨s, s', left, right, -⟩ := alike.cases key <;> rw [left, right]
  rfl

theorem keys_eq (alike : Alike view t u) : u.keys = t.keys := by
  ext key
  rw [mem_keys, mem_keys, alike.isSome_get?]

/-- A coarser view sees no more differences. -/
theorem map {β : Type} (alike : Alike view t u) (coarser : α → β) :
    Alike (fun s => coarser (view s)) t u where
  entries key := by
    have same := congrArg (Option.map coarser) (alike.entries key)
    rwa [Option.map_map, Option.map_map] at same
  globals := alike.globals

end Alike

end SymbolTable

/-- All of a symbol but its value and its uses. -/
def Symbol.shape (s : Symbol) : Label × Bytes × Int := (s.toLabel, s.file, s.line)

/-- All of a symbol but its uses. -/
def Symbol.meaning (s : Symbol) : (Label × Bytes × Int) × Value := (s.shape, s.value)

namespace SymbolTable

theorem Alike.shape {t u : SymbolTable} (alike : Alike Symbol.meaning t u) :
    Alike Symbol.shape t u := alike.map Prod.fst

theorem Alike.sameLabels {t u : SymbolTable} (alike : Alike Symbol.shape t u) : SameLabels t u :=
  ⟨(alike.map fun x => (x.1, x.2.1)).entries, alike.globals⟩

theorem Alike.line {t u : SymbolTable} (alike : Alike Symbol.shape t u) {key : Bytes} {s : Symbol}
    (found : t.get? key = some s) : ∃ s', u.get? key = some s' ∧ s'.line = s.line := by
  obtain ⟨missing, -⟩ | ⟨x, s', before, after, shape⟩ := alike.cases key
  · rw [missing] at found
    contradiction
  · obtain rfl := Option.some.inj (before.symm.trans found)
    exact ⟨s', after, congrArg (·.2.2) shape⟩

theorem assign_alike (t : SymbolTable) (key : Bytes) (v : Value) :
    Alike Symbol.shape t (t.assign key v) where
  entries other := by
    rw [get?_assign]
    split
    next same => subst same; cases t.get? key <;> rfl
    next => rfl
  globals _ := rfl

theorem addReference_alike (t : SymbolTable) (key : Bytes) (l : Location) :
    Alike Symbol.meaning t (t.addReference key l) where
  entries other := by
    rw [get?_addReference]
    split
    next same => subst same; cases t.get? key <;> rfl
    next => rfl
  globals _ := rfl

theorem clearReferences_alike (t : SymbolTable) : Alike Symbol.meaning t t.clearReferences where
  entries key := by
    rw [get?_clearReferences]
    cases t.get? key <;> rfl
  globals _ := rfl

end SymbolTable

/-! ### Look-ups that find their entry -/

/-- The declaration under whose key the label of a reference is entered. -/
def Reference.asDeclaration (r : Reference) : Declaration :=
  ⟨r.toLabel, if r.kind = .global then pendingFile else r.file, r.line, r.source⟩

namespace SymbolTable

variable {t u : SymbolTable} {d d' : Declaration}

theorem Consistent.known_reference (valid : t.Consistent) (r : Reference) :
    t.Known r.asDeclaration ↔ (t.get? (t.referenceKey r)).isSome = true := by
  by_cases listed : r.kind = .global ∧ (t.globals[r.text]?).isSome = true
  · obtain ⟨key, declared⟩ := Option.isSome_iff_exists.mp listed.2
    obtain ⟨s, found, -⟩ := valid.listed declared
    have own : t.referenceKey r = key := by rw [referenceKey, if_pos listed.1, declared]; rfl
    simp only [own, found, Option.isSome_some, iff_true]
    exact .inr listed
  · have own : t.referenceKey r = r.key := by
      unfold referenceKey
      split
      next global =>
        have unlisted : t.globals[r.text]? = none := by simpa [global] using listed
        rw [unlisted]
        rfl
      next => rfl
    rw [own]
    exact or_iff_left listed

theorem Consistent.refer_of_known (valid : t.Consistent) {r : Reference} (proper : r.toLabel.Proper)
    (known : t.Known r.asDeclaration) : (t.refer r).1 = t := by
  rw [SymbolTable.refer, if_neg proper.kind, valid.find?_eq,
    if_pos ((valid.known_reference r).mp known)]

theorem Consistent.known_refer (valid : t.Consistent) {r : Reference} (proper : r.toLabel.Proper) :
    (t.refer r).1.Known r.asDeclaration := by
  have same : (t.refer r).1.referenceKey r = t.referenceKey r := by simp [referenceKey]
  rw [(valid.refer proper).known_reference, same, valid.get?_refer proper]
  cases t.get? (t.referenceKey r) <;> simp

/-- A label is not known where its key has no entry and no file declares it globally. -/
theorem not_known (proper : d.toLabel.Proper) (proper' : d'.toLabel.Proper) (same : d.key = d'.key)
    (miss : t.get? d.key = none) (undeclared : d.kind = .global → t.globals[d.text]? = none) :
    ¬ t.Known d' := by
  rintro (entry | ⟨global, listed⟩)
  · rw [← same, miss] at entry
    contradiction
  · obtain ⟨⟨kind, text, -⟩, -⟩ := Label.key_inj proper proper' same
    rw [← text, undeclared (kind.trans global)] at listed
    contradiction

/-- A known global label without an entry of its own has none after uses either, because its name
has one entry only. -/
theorem Extends.missing_of_known (ext : Extends t u) (before : t.Consistent) (after : u.Consistent)
    (proper : d.toLabel.Proper) (known : t.Known d) (missing : t.get? d.key = none) :
    u.get? d.key = none := by
  obtain entry | ⟨global, listed⟩ := known
  · rw [missing] at entry
    contradiction
  obtain ⟨key, declared⟩ := Option.isSome_iff_exists.mp listed
  obtain ⟨x, old, kind, text, -⟩ := before.listed declared
  obtain ⟨x', kept, kind', text', -⟩ := after.listed ((ext.globals _).trans declared)
  by_contra present
  obtain ⟨s, found⟩ := Option.ne_none_iff_exists'.mp present
  obtain ⟨own, self⟩ := after.keyed found
  obtain ⟨⟨kindSelf, textSelf, -⟩, -⟩ := Label.key_inj own proper self
  obtain rfl := after.single found kept (kindSelf.trans global) kind' (textSelf.trans text'.symm)
  rw [missing] at old
  contradiction

/-- Looking the declaration up can change a value only: its label is known, and has its line
already. -/
structure Fixed (t : SymbolTable) (d : Declaration) : Prop where
  known : t.Known d
  line : ∀ {s}, t.get? d.key = some s → s.line = 0 → d.line = 0

theorem Alike.fixed (alike : Alike Symbol.shape t u) (fixed : t.Fixed d) : u.Fixed d where
  known := alike.sameLabels.known fixed.known
  line {s} found waits := by
    obtain ⟨s', before, line⟩ := alike.symm.line found
    exact fixed.line before (line.trans waits)

theorem Extends.fixed (ext : Extends t u) (before : t.Consistent) (after : u.Consistent)
    (proper : d.toLabel.Proper) (fixed : t.Fixed d) : u.Fixed d where
  known := ext.known fixed.known
  line {s} found waits := by
    cases old : t.get? d.key with
    | some s' =>
      obtain ⟨s'', kept, line, -⟩ := ext.kept old
      obtain rfl := Option.some.inj (found.symm.trans kept)
      exact fixed.line old (line.symm.trans waits)
    | none =>
      rw [ext.missing_of_known before after proper fixed.known old] at found
      contradiction

theorem Declared.fixed {outcome : Lookup} (declared : Declared t d outcome)
    (proper : d.toLabel.Proper) (proper' : d'.toLabel.Proper) (fixed : t.Fixed d') :
    outcome.table.Fixed d' where
  known := declared.known proper proper' fixed.known
  line {s} found waits := by
    cases declared with
    | refused => exact fixed.line found waits
    | found hit line entries globals =>
      rw [entries] at found
      split at found
      next same =>
        obtain rfl := Option.some.inj found
        rw [same] at hit
        exact fixed.line hit (line.elim id (·.trans waits))
      next => exact fixed.line found waits
    | promoted miss global concrete undeclared waiting =>
      rw [get?_promote] at found
      split at found
      next same => exact absurd fixed.known (not_known proper proper' same miss fun _ => undeclared)
      next =>
        split at found
        next => contradiction
        next => exact fixed.line found waits
    | entered miss undeclared alone =>
      rw [get?_enter] at found
      split at found
      next same => exact absurd fixed.known (not_known proper proper' same miss undeclared)
      next => exact fixed.line found waits

/-- An entry that waits for its line takes that of the declaration. -/
theorem declare_of_waiting (proper : d.toLabel.Proper) {s : Symbol} (hit : t.get? d.key = some s)
    (waits : s.line = 0) :
    t.declare d = ⟨t.insert d.key { s with line := d.line }, some d.key, none⟩ := by
  rw [declare, if_neg proper.kind, hit]
  exact if_pos waits

theorem Consistent.fixed_define (valid : t.Consistent) (proper : d.toLabel.Proper)
    (proper' : d'.toLabel.Proper) (v : Value) (fixed : t.Fixed d' ∨ d = d') :
    (t.define d v).1.Fixed d' := by
  have after {u : SymbolTable} (accepted : Declared t d ⟨u, some d.key, none⟩) : u.Fixed d' := by
    rcases fixed with fixed | rfl
    · exact accepted.fixed proper proper' fixed
    · refine ⟨accepted.known_self, fun {s} found waits => ?_⟩
      obtain ⟨-, s', present, line⟩ := accepted.present rfl
      obtain rfl := Option.some.inj (present.symm.trans found)
      exact line.symm.trans waits
  have defined := valid.defined proper v
  generalize outcome : t.define d v = result at defined
  cases defined with
  | kept accepted => exact after accepted
  | assigned accepted => exact (assign_alike ..).fixed (after accepted)
  | refused known =>
    rcases fixed with fixed | rfl
    · exact fixed
    · refine ⟨known, fun {s} found waits => ?_⟩
      -- An entry that waits for its line does not refuse the declaration.
      rw [SymbolTable.define, declare_of_waiting proper found waits] at outcome
      dsimp only at outcome
      rw [get?_insert, if_pos rfl] at outcome
      dsimp only at outcome
      split at outcome <;> simp at outcome

/-- A fixed declaration finds its entry as it stands. It is accepted if it is the one that gave the
entry its line. -/
theorem Consistent.declare_of_fixed (valid : t.Consistent) (proper : d.toLabel.Proper)
    (fixed : t.Fixed d) :
    (∃ s u, t.get? d.key = some s ∧ s.line = d.line ∧ (∀ key, u.get? key = t.get? key) ∧
      u.globals = t.globals ∧ t.declare d = ⟨u, some d.key, none⟩) ∨
    (∀ s, t.get? d.key = some s → s.line ≠ d.line) ∧
      ∃ key fault, t.declare d = ⟨t, key, some fault⟩ := by
  cases hit : t.get? d.key with
  | some s =>
    by_cases waits : s.line = 0
    · have line : s.line = d.line := waits.trans (fixed.line hit waits).symm
      refine .inl ⟨s, t.insert d.key { s with line := d.line }, rfl, line, fun key => ?_, rfl,
        declare_of_waiting proper hit waits⟩
      rw [get?_insert]
      split
      next same => rw [← same, hit, ← line]
      next => rfl
    · rw [declare, if_neg proper.kind, hit]
      by_cases line : s.line = d.line
      · exact .inl ⟨s, t, rfl, line, fun _ => rfl, rfl, (if_neg waits).trans (if_pos line)⟩
      · exact .inr ⟨fun s' same => Option.some.inj same ▸ line, some d.key, .repeated s,
          (if_neg waits).trans (if_neg line)⟩
  | none =>
    obtain entry | ⟨global, listed⟩ := fixed.known
    · rw [hit] at entry
      contradiction
    obtain ⟨key, declared⟩ := Option.isSome_iff_exists.mp listed
    obtain ⟨s, found, -⟩ := valid.listed declared
    refine .inr ⟨fun s' same => by contradiction, some key, .repeatedGlobal s, ?_⟩
    rw [declare, if_neg proper.kind, hit]
    simp [declaredElsewhere?, global, declared, found]

/-- Whether a fixed declaration gives the label a new value. -/
def accepts (t : SymbolTable) (d : Declaration) (v : Value) : Bool :=
  (t.get? d.key).any fun s => s.line == d.line && (v.isSome || s.value.isNone)

/-- A fixed declaration does no more than to give the label its value. -/
theorem Consistent.tables_define_of_fixed (valid : t.Consistent) (proper : d.toLabel.Proper)
    (v : Value) (fixed : t.Fixed d) :
    (∀ key, (t.define d v).1.get? key =
      (if t.accepts d v then t.assign d.key v else t).get? key) ∧
    (t.define d v).1.globals = t.globals := by
  rw [SymbolTable.define]
  obtain ⟨s, u, hit, line, entries, globals, accepted⟩ | ⟨other, key, fault, refused⟩ :=
    valid.declare_of_fixed proper fixed
  · simp only [accepted, entries, hit]
    by_cases lost : (s.value.isSome && v.isNone) = true
    · have keeps : t.accepts d v = false := by
        simp only [Bool.and_eq_true, Option.isNone_iff_eq_none] at lost
        simp [accepts, hit, lost.1, lost.2]
      rw [keeps, if_pos lost]
      exact ⟨entries, globals⟩
    · have takes : t.accepts d v = true := by
        cases v <;> simp_all [accepts]
      rw [takes, if_neg lost]
      refine ⟨fun key => ?_, globals⟩
      rw [get?_assign, entries, entries, if_pos rfl, get?_assign]
  · have refuses : t.accepts d v = false := by
      simp only [accepts, Option.any_eq_false]
      intro s hit
      simp [other s hit]
    rw [refused, refuses]
    exact ⟨fun key => rfl, rfl⟩

theorem Consistent.define_of_fixed (valid : t.Consistent) (proper : d.toLabel.Proper) (v : Value)
    (fixed : t.Fixed d) :
    Alike Symbol.meaning (if t.accepts d v then t.assign d.key v else t) (t.define d v).1 := by
  obtain ⟨entries, globals⟩ := valid.tables_define_of_fixed proper v fixed
  refine ⟨fun key => by rw [entries], fun text => ?_⟩
  rw [globals]
  split <;> rfl

theorem Consistent.alike_define (valid : t.Consistent) (proper : d.toLabel.Proper) (v : Value)
    (fixed : t.Fixed d) : Alike Symbol.shape t (t.define d v).1 := by
  refine .trans ?_ (valid.define_of_fixed proper v fixed).shape
  split
  · exact assign_alike ..
  · exact .refl t

theorem Consistent.known_uses (valid : t.Consistent) (final : Bool) (l : Location)
    {references : List Reference} (proper : ∀ r ∈ references, r.toLabel.Proper) :
    ∀ r ∈ references, (references.foldl (SymbolTable.use final l) t).Known r.asDeclaration := by
  induction references generalizing t with
  | nil => exact fun r member => absurd member List.not_mem_nil
  | cons r rest ih =>
    have properRest : ∀ r' ∈ rest, r'.toLabel.Proper :=
      fun r' member => proper r' (List.mem_cons_of_mem _ member)
    obtain ⟨next, -⟩ := valid.use (proper r List.mem_cons_self) final l
    intro r' member
    rcases List.mem_cons.mp member with rfl | inside
    · refine (next.uses final l properRest).2.known ?_
      rw [valid.use_eq (proper r' List.mem_cons_self)]
      have known := valid.known_refer (proper r' List.mem_cons_self)
      split
      · exact (addReference_extends ..).known known
      · exact known
    · exact ih next properRest r' inside

theorem Consistent.alike_use (valid : t.Consistent) {r : Reference} (proper : r.toLabel.Proper)
    (final : Bool) (l : Location) (known : t.Known r.asDeclaration) :
    Alike Symbol.meaning t (t.use final l r) := by
  rw [valid.use_eq proper, valid.refer_of_known proper known]
  split
  · exact addReference_alike ..
  · exact .refl t

theorem Consistent.alike_uses (valid : t.Consistent) (final : Bool) (l : Location)
    {references : List Reference} (proper : ∀ r ∈ references, r.toLabel.Proper)
    (known : ∀ r ∈ references, t.Known r.asDeclaration) :
    Alike Symbol.meaning t (references.foldl (SymbolTable.use final l) t) := by
  induction references generalizing t with
  | nil => exact .refl t
  | cons r rest ih =>
    have first := valid.alike_use (proper r List.mem_cons_self) final l (known r List.mem_cons_self)
    have labels := first.shape.sameLabels
    refine first.trans (ih (labels.consistent valid) ?_ ?_)
    · exact fun r' member => proper r' (List.mem_cons_of_mem _ member)
    · exact fun r' member => labels.known (known r' (List.mem_cons_of_mem _ member))

/-- A line all of whose look-ups find their entries. -/
structure Settled (t : SymbolTable) (s : Statement) : Prop where
  references : ∀ r ∈ s.references, t.Known r.asDeclaration
  label : ∀ {d}, s.label = some d → t.Fixed d

theorem Alike.settled (alike : Alike Symbol.shape t u) {s : Statement} (settled : t.Settled s) :
    u.Settled s where
  references r member := alike.sameLabels.known (settled.references r member)
  label declares := alike.fixed (settled.label declares)

end SymbolTable

namespace Statement

/-- A line settles itself, and unsettles no other one. -/
theorem Proper.settled_assemble {s s' : Statement} (proper : s.Proper) (proper' : s'.Proper)
    (final : Bool) {state : State} (valid : state.symbols.Consistent)
    (settled : state.symbols.Settled s' ∨ s = s') :
    (s.assemble final state).2.symbols.Settled s' where
  references r member := by
    obtain ⟨used, ext⟩ := valid.uses final s.location proper.references
    have known : (s.used final state.symbols).Known r.asDeclaration := by
      rcases settled with settled | rfl
      · exact ext.known (settled.references r member)
      · exact valid.known_uses final s.location proper.references r member
    rw [symbols_assemble]
    unfold defineLabel
    split
    next d label =>
      exact used.known_define (proper.label label).1 (proper'.references r member) _ (.inl known)
    next => exact known
  label {d'} declares := by
    obtain ⟨used, ext⟩ := valid.uses final s.location proper.references
    rw [symbols_assemble]
    unfold defineLabel
    have fixed (settled : state.symbols.Settled s') : (s.used final state.symbols).Fixed d' :=
      ext.fixed valid used (proper'.label declares).1 (settled.label declares)
    split
    next d label =>
      refine used.fixed_define (proper.label label).1 (proper'.label declares).1 _ ?_
      rcases settled with settled | rfl
      · exact .inl (fixed settled)
      · exact .inr (Option.some.inj (label.symm.trans declares))
    next unlabelled =>
      rcases settled with settled | rfl
      · exact fixed settled
      · rw [unlabelled] at declares
        contradiction

theorem Proper.alike_assemble {s : Statement} (proper : s.Proper) (final : Bool) {state : State}
    (valid : state.symbols.Consistent) (settled : state.symbols.Settled s) :
    SymbolTable.Alike Symbol.shape state.symbols (s.assemble final state).2.symbols := by
  have uses := (valid.alike_uses final s.location proper.references settled.references).shape
  rw [symbols_assemble]
  unfold defineLabel
  split
  next d label =>
    exact uses.trans ((uses.sameLabels.consistent valid).alike_define (proper.label label).1 _
      (uses.fixed (settled.label label)))
  next => exact uses

end Statement

section Passes

variable {statements : List Statement} (proper : ∀ s ∈ statements, s.Proper) {state : State}
  (valid : state.symbols.Consistent)

include proper valid

/-- A pass settles its lines. -/
theorem passAt_settled (final : Bool) {j : Nat} {s : Statement} (at_j : statements[j]? = some s)
    {i : Nat} (bound : i ≤ statements.length) (earlier : j < i) :
    (passAt final statements state i).symbols.Settled s := by
  refine (passAt_invariant (fun i before => before.symbols.Consistent ∧
    (j < i → before.symbols.Settled s)) ⟨valid, by omega⟩ ?_ bound).2 earlier
  intro i line before at_i ⟨kept, settled⟩
  have properLine := proper line (List.mem_of_getElem? at_i)
  refine ⟨properLine.consistent_assemble final kept, fun less => ?_⟩
  refine properLine.settled_assemble (proper s (List.mem_of_getElem? at_j)) final kept ?_
  rcases Nat.lt_succ_iff_lt_or_eq.mp less with earlier | rfl
  · exact .inl (settled earlier)
  · exact .inr (Option.some.inj (at_i.symm.trans at_j))

/-- A pass over settled lines changes values and uses only. -/
theorem passAt_alike (settled : ∀ s ∈ statements, state.symbols.Settled s) (final : Bool) {i : Nat}
    (bound : i ≤ statements.length) :
    SymbolTable.Alike Symbol.shape state.symbols (passAt final statements state i).symbols := by
  refine passAt_invariant
    (fun _ before => SymbolTable.Alike Symbol.shape state.symbols before.symbols) (.refl _) ?_ bound
  intro i s before line alike
  have member := List.mem_of_getElem? line
  exact alike.trans ((proper s member).alike_assemble final (alike.sameLabels.consistent valid)
    (alike.settled (settled s member)))

theorem afterPasses_settled (n : Nat) :
    ∀ s ∈ statements, (afterPasses statements state (n + 1)).symbols.Settled s := by
  intro s member
  obtain ⟨j, at_j⟩ := List.mem_iff_getElem?.mp member
  rw [afterPasses_succ]
  exact passAt_settled proper (afterPasses_consistent proper valid n) false at_j le_rfl
    (List.getElem?_eq_some_iff.mp at_j).1

end Passes

/-! ### Symbols over time -/

/-- What a symbol may become: it keeps its label and its place, except that a global label that
waits for its file may be given one, and it does not lose its value. -/
structure Symbol.Becomes (key : Bytes) (s : Symbol) (key' : Bytes) (s' : Symbol) : Prop where
  label : s'.toLabel = s.toLabel
  place : key' = key ∧ s'.file = s.file ∨
    s.kind = .global ∧ isConcrete s.file = false ∧ isConcrete s'.file = true
  value : s.value.isSome = true → s'.value.isSome = true

namespace Symbol.Becomes

theorem refl (key : Bytes) (s : Symbol) : Becomes key s key s := ⟨rfl, .inl ⟨rfl, rfl⟩, id⟩

theorem trans {key key' key'' : Bytes} {s s' s'' : Symbol} (first : Becomes key s key' s')
    (second : Becomes key' s' key'' s'') : Becomes key s key'' s'' where
  label := second.label.trans first.label
  place := by
    rcases first.place with ⟨rfl, file⟩ | ⟨kind, waits, declared⟩
    · rcases second.place with ⟨rfl, file'⟩ | ⟨kind, waits, declared⟩
      · exact .inl ⟨rfl, file'.trans file⟩
      · rw [first.label] at kind
        exact .inr ⟨kind, file ▸ waits, declared⟩
    · rcases second.place with ⟨rfl, file'⟩ | ⟨-, waits', -⟩
      · exact .inr ⟨kind, waits, file' ▸ declared⟩
      · rw [declared] at waits'
        contradiction
  value resolved := second.value (first.value resolved)

end Symbol.Becomes

namespace SymbolTable

/-- Every symbol of the first table has become one of the second. -/
structure Later (t u : SymbolTable) : Prop where
  becomes : ∀ {key s}, t.get? key = some s →
    ∃ key' s', u.get? key' = some s' ∧ Symbol.Becomes key s key' s'

variable {t u v : SymbolTable}

theorem Later.refl (t : SymbolTable) : Later t t := ⟨fun found => ⟨_, _, found, .refl _ _⟩⟩

theorem Later.trans (first : Later t u) (second : Later u v) : Later t v where
  becomes found := by
    obtain ⟨key', s', found', becomes⟩ := first.becomes found
    obtain ⟨key'', s'', found'', becomes'⟩ := second.becomes found'
    exact ⟨key'', s'', found'', becomes.trans becomes'⟩

theorem Alike.later (alike : Alike Symbol.meaning t u) : Later t u where
  becomes {key s} found := by
    obtain ⟨missing, -⟩ | ⟨s', s'', before, after, same⟩ := alike.cases key
    · rw [missing] at found
      contradiction
    · obtain rfl := Option.some.inj (found.symm.trans before)
      have value : s''.value = s.value := congrArg (·.2) same
      exact ⟨key, s'', after, congrArg (·.1.1) same, .inl ⟨rfl, congrArg (·.1.2.1) same⟩,
        value ▸ id⟩

theorem Carries.later {moved : Bytes → Bytes} (carries : Carries t u moved) : Later t u where
  becomes found := by
    obtain ⟨s', found', carried⟩ := carries.carried found
    refine ⟨_, s', found', carried.label, ?_, fun resolved => carried.value ▸ resolved⟩
    rcases carried.place with stays | ⟨kind, waits, concrete, -⟩
    · exact .inl stays
    · exact .inr ⟨kind, waits, concrete⟩

theorem Consistent.later_use (valid : t.Consistent) {r : Reference} (proper : r.toLabel.Proper)
    (final : Bool) (l : Location) : Later t (t.use final l r) := by
  have refers := (valid.carries_refer proper.named).later
  rw [valid.use_eq proper]
  split
  · exact refers.trans (addReference_alike ..).later
  · exact refers

theorem Declared.later {d : Declaration} {outcome : Lookup} (declared : Declared t d outcome)
    (valid : t.Consistent) (proper : d.toLabel.Proper) : Later t outcome.table := by
  obtain ⟨moved, carries⟩ := declared.carries valid proper
  exact carries.later

theorem later_assign {key : Bytes} {s : Symbol} {w : Value} (present : t.get? key = some s)
    (free : s.value.isSome = true → w.isSome = true) : Later t (t.assign key w) := by
  refine ⟨fun {other s'} found => ?_⟩
  by_cases same : key = other
  · subst same
    obtain rfl := Option.some.inj (present.symm.trans found)
    refine ⟨key, { s with value := w }, ?_, rfl, .inl ⟨rfl, rfl⟩, free⟩
    rw [get?_assign, if_pos rfl, present]
    rfl
  · exact ⟨other, s', by rw [get?_assign, if_neg same, found], .refl other s'⟩

/-- A definition takes no value away from a symbol that has one. -/
theorem later_define (t : SymbolTable) (d : Declaration) (w : Value) :
    Later (t.declare d).table (t.define d w).1 := by
  fun_cases define t d w with
  | case1 | case2 | case3 | case4 => exact .refl _
  | case5 found key _ _ s present free =>
    refine later_assign present fun resolved => ?_
    simpa [resolved, Option.isSome_iff_ne_none] using free

/-- Where no entry moves, the keys without a value become fewer with time. -/
theorem Later.unresolvedKeys_subset (later : Later t u) (alike : Alike Symbol.shape t u)
    (valid : u.Consistent) : u.unresolvedKeys ⊆ t.unresolvedKeys := by
  intro key member
  obtain ⟨s', found', unresolved⟩ := mem_unresolvedKeys.mp member
  obtain ⟨-, missing⟩ | ⟨s, x, before, after, shape⟩ := alike.cases key
  · rw [missing] at found'
    contradiction
  obtain rfl := Option.some.inj (found'.symm.trans after)
  refine mem_unresolvedKeys.mpr ⟨s, before, ?_⟩
  by_contra resolved
  obtain ⟨key'', s'', found'', becomes⟩ := later.becomes before
  have resolved'' := becomes.value (Option.isSome_iff_ne_none.mpr resolved)
  have label : s'.toLabel = s.toLabel := congrArg (·.1) shape
  have file : s'.file = s.file := congrArg (·.2.1) shape
  -- The symbol cannot have moved: its entry here is still the one of its name.
  have same : key = key'' := by
    rcases becomes.place with ⟨same, -⟩ | ⟨kind, -⟩
    · exact same.symm
    · refine valid.single after found'' ?_ ?_ ?_
      · rw [label, kind]
      · rw [becomes.label, kind]
      · rw [label, becomes.label]
  subst same
  obtain rfl := Option.some.inj (after.symm.trans found'')
  rw [unresolved] at resolved''
  contradiction

/-- The tables between two others, in order of time. -/
structure Course (t : SymbolTable) (instants : List SymbolTable) (u : SymbolTable) : Prop where
  later : Later t u
  ordered : instants.Pairwise Later
  inside : ∀ v ∈ instants, Later t v ∧ Later v u

namespace Course

theorem nil (later : Later t u) : Course t [] u :=
  ⟨later, .nil, fun _ member => absurd member List.not_mem_nil⟩

theorem single (later : Later t u) : Course t [u] u := by
  refine ⟨later, List.pairwise_singleton .., fun v member => ?_⟩
  obtain rfl := List.mem_singleton.mp member
  exact ⟨later, .refl v⟩

theorem append {w : SymbolTable} {first second : List SymbolTable} (left : Course t first u)
    (right : Course u second w) : Course t (first ++ second) w where
  later := left.later.trans right.later
  ordered := List.pairwise_append.mpr ⟨left.ordered, right.ordered, fun _ before _ after =>
    (left.inside _ before).2.trans (right.inside _ after).1⟩
  inside v member := by
    rcases List.mem_append.mp member with before | after
    · exact ⟨(left.inside v before).1, (left.inside v before).2.trans right.later⟩
    · exact ⟨left.later.trans (right.inside v after).1, (right.inside v after).2⟩

end Course

theorem Consistent.course_uses (valid : t.Consistent) (final : Bool) (l : Location)
    {references : List Reference} (proper : ∀ r ∈ references, r.toLabel.Proper) :
    Course t (references.scanl (SymbolTable.use final l) t)
      (references.foldl (SymbolTable.use final l) t) := by
  induction references generalizing t with
  | nil => exact .single (.refl t)
  | cons r rest ih =>
    have own := proper r List.mem_cons_self
    rw [List.scanl_cons]
    refine (Course.single (.refl t)).append ((Course.nil (valid.later_use own final l)).append ?_)
    exact ih (valid.use own final l).1 fun r' member => proper r' (List.mem_cons_of_mem _ member)

end SymbolTable

/-! ### The moments of a run -/

/-- The tables of a line: before and after each of its uses, and after its label is looked up and
defined. -/
def Statement.instants (final : Bool) (state : State) (s : Statement) : List SymbolTable :=
  s.references.scanl (SymbolTable.use final s.location) state.symbols
    ++ (s.label.map fun d => ((s.used final state.symbols).declare d).table).toList
    ++ [(s.assemble final state).2.symbols]

theorem Statement.Proper.course {s : Statement} (proper : s.Proper) (final : Bool) {state : State}
    (valid : state.symbols.Consistent) :
    SymbolTable.Course state.symbols (s.instants final state) (s.assemble final state).2.symbols := by
  have used := (valid.uses final s.location proper.references).1
  have uses := valid.course_uses final s.location proper.references
  rw [instants, symbols_assemble, List.append_assoc]
  refine uses.append ?_
  unfold defineLabel
  cases label : s.label with
  | none => exact .single (.refl _)
  | some d =>
    have own := (proper.label label).1
    exact (SymbolTable.Course.single ((used.declared own.kind).later used own)).append
      (.single (SymbolTable.later_define ..))

def passInstants (final : Bool) (statements : List Statement) (state : State) : List SymbolTable :=
  (statements.mapIdx fun i s => s.instants final (passAt final statements state i)).flatten

theorem passAt_course {statements : List Statement} (proper : ∀ s ∈ statements, s.Proper)
    {state : State} (valid : state.symbols.Consistent) (final : Bool) :
    SymbolTable.Course state.symbols (passInstants final statements state)
      (passAt final statements state statements.length).symbols := by
  have lines {i : Nat} (bound : i ≤ statements.length) : SymbolTable.Course state.symbols
      ((statements.take i).mapIdx fun i s =>
        s.instants final (passAt final statements state i)).flatten
      (passAt final statements state i).symbols := by
    induction i with
    | zero => exact .nil (.refl _)
    | succ i ih =>
      have line : statements[i]? = some statements[i] := List.getElem?_eq_getElem (by omega)
      have kept : (passAt final statements state i).symbols.Consistent :=
        passAt_consistent proper valid (by omega)
      rw [List.take_add_one, line, Option.toList_some, List.mapIdx_append, List.flatten_append,
        passAt_succ line]
      refine (ih (by omega)).append ?_
      have length : (statements.take i).length = i := List.length_take_of_le (by omega)
      simpa [length] using (proper _ (List.getElem_mem _)).course final kept
  simpa [passInstants] using lines le_rfl

def instants (files : List SourceFile) : List SymbolTable :=
  (passStarts files).flatMap fun (final, start) =>
    start.symbols :: passInstants final (program files) start

theorem instants_ordered (files : List SourceFile) :
    (instants files).Pairwise SymbolTable.Later := by
  have proper := program_proper files
  have consistent (n : Nat) : (afterPasses (program files) .empty n).symbols.Consistent :=
    afterPasses_consistent proper SymbolTable.empty_consistent n
  have passes (n : Nat) : SymbolTable.Course .empty
      (((List.range n).map fun n => (false, afterPasses (program files) .empty n)).flatMap
        fun (final, start) => start.symbols :: passInstants final (program files) start)
      (afterPasses (program files) .empty n).symbols := by
    induction n with
    | zero => exact .nil (.refl _)
    | succ n ih =>
      rw [List.range_succ, List.map_append, List.flatMap_append, afterPasses_succ]
      refine ih.append ?_
      have pass := passAt_course proper (consistent n) false
      simpa using (SymbolTable.Course.single (.refl _)).append pass
  have cleared : SymbolTable.Later
      (afterPasses (program files) .empty (Assembly.ofFiles files).history.length).symbols
      (finalStart files).symbols := by
    rw [finalStart_eq]
    exact (SymbolTable.clearReferences_alike _).later
  have final := (SymbolTable.Course.single cleared).append
    (passAt_course proper (finalStart_consistent files) true)
  rw [instants, passStarts, List.flatMap_append, List.flatMap_singleton]
  exact ((passes _).append final).ordered

/-! ### Fewer symbols without a value -/

/-- What a pass over settled lines does: no entry is made or moved, and none loses its value. -/
structure SymbolTable.Advances (t u : SymbolTable) : Prop where
  valid : u.Consistent
  alike : Alike Symbol.shape t u
  fewer : u.unresolvedKeys ⊆ t.unresolvedKeys

theorem SymbolTable.Advances.trans {t u v : SymbolTable} (first : Advances t u)
    (second : Advances u v) : Advances t v :=
  ⟨second.valid, first.alike.trans second.alike, second.fewer.trans first.fewer⟩

theorem SymbolTable.Advances.unresolved_le {t u : SymbolTable} (advances : Advances t u) :
    u.unresolved ≤ t.unresolved := by
  rw [← card_unresolvedKeys, ← card_unresolvedKeys]
  exact Finset.card_le_card advances.fewer

theorem State.forPass_alike (final : Bool) (state : State) :
    SymbolTable.Alike Symbol.meaning state.symbols (state.forPass final).symbols := by
  cases final with
  | false => exact .refl _
  | true => exact SymbolTable.clearReferences_alike _

section Passes

variable {statements : List Statement} (proper : ∀ s ∈ statements, s.Proper) {state : State}
  (valid : state.symbols.Consistent)

include proper valid

theorem nextPass_advances (settled : ∀ s ∈ statements, state.symbols.Settled s) (final : Bool) :
    SymbolTable.Advances state.symbols (nextPass statements state final).symbols := by
  have ready := state.forPass_alike final
  have start : (state.forPass final).symbols.Consistent := ready.shape.sameLabels.consistent valid
  have alike := ready.shape.trans (passAt_alike proper start
    (fun s member => ready.shape.settled (settled s member)) final le_rfl)
  have later := ready.later.trans (passAt_course proper start final).later
  rw [nextPass_eq]
  have kept : (passAt final statements (state.forPass final) statements.length).symbols.Consistent :=
    passAt_consistent proper start le_rfl
  exact ⟨kept, alike, later.unresolvedKeys_subset alike kept⟩

theorem afterPasses_advances {m n : Nat} (order : m ≤ n) :
    SymbolTable.Advances (afterPasses statements state (m + 1)).symbols
      (afterPasses statements state (n + 1)).symbols := by
  induction n, order using Nat.le_induction with
  | base => exact ⟨afterPasses_consistent proper valid _, .refl _, Finset.Subset.refl _⟩
  | succ n order ih =>
    exact ih.trans (nextPass_advances proper (afterPasses_consistent proper valid _)
      (afterPasses_settled proper valid n) false)

theorem passCounts_pairwise (n : Nat) : (passCounts statements state n).Pairwise (· ≥ ·) := by
  refine List.pairwise_map.mpr (List.pairwise_lt_range.imp fun {i j} less => ?_)
  exact (afterPasses_advances proper valid less.le).unresolved_le

end Passes

/-- The final pass advances like the passes before it. -/
theorem Assembly.advances_run (files : List SourceFile) {state : State}
    (valid : state.symbols.Consistent) :
    SymbolTable.Advances
      (afterPasses (program files) state (Assembly.run files state).history.length).symbols
      (Assembly.run files state).state.symbols := by
  have proper := program_proper files
  obtain ⟨n, length, -⟩ := history_run files state
  rw [state_run, length]
  exact nextPass_advances proper (afterPasses_consistent proper valid (n + 2))
    (afterPasses_settled proper valid (n + 1)) true

/-- Progress is monotone: the passes after the first make no entries, no symbol loses its value at
any moment of the run, and so the counts in the history do not grow. -/
theorem progress_monotone (files : List SourceFile) :
    let a := Assembly.ofFiles files
    let after := fun n => (afterPasses (program files) .empty n).symbols
    a.history = passCounts (program files) .empty a.history.length ∧
      (∀ n, (after (n + 1)).keys = (after 1).keys) ∧ a.state.symbols.keys = (after 1).keys ∧
      (instants files).Pairwise SymbolTable.Later ∧
      a.history.Pairwise (· ≥ ·) ∧ ∃ last, a.history.getLast? = some last ∧ a.unresolved ≤ last := by
  intro a after
  have proper := program_proper files
  have valid : State.empty.symbols.Consistent := SymbolTable.empty_consistent
  obtain ⟨n, (length : a.history.length = n + 2),
    (history : a.history = passCounts (program files) .empty (n + 2)), -⟩ :=
    Assembly.history_run files .empty
  have final : SymbolTable.Advances (after a.history.length) a.state.symbols :=
    Assembly.advances_run files valid
  have keys (n : Nat) : (after (n + 1)).keys = (after 1).keys :=
    (afterPasses_advances proper valid (Nat.zero_le n)).alike.keys_eq
  refine ⟨length ▸ history, keys, ?_, instants_ordered files, ?_, _,
    Assembly.getLast?_history files .empty, final.unresolved_le⟩
  · rw [final.alike.keys_eq, length, keys]
  · rw [history]
    exact passCounts_pairwise proper valid _

end Assembler8080
