import Assembler8080.Proofs.Layout

/-! Whether the final pass uses the values that it leaves. After the first pass every declared
label is in the table (`Known`), so in a final pass without faults no entry is made or moved and
every label is given a value by one line only (`Clean`). A use of a label is then current exactly if
that line comes first or gives the label the value that it had before the pass. -/
namespace Assembler8080

/-! ### Symbols without a value -/

namespace Statement

theorem note_ne_nil (places : List (Nat × Bytes)) {met : Std.TreeSet Bytes × List (Nat × Bytes)}
    (noted : met.2 ≠ []) : (places.foldl note met).2 ≠ [] := by
  induction places generalizing met with
  | nil => exact noted
  | cons place rest ih =>
    refine ih ?_
    unfold note
    split
    · exact noted
    · exact List.cons_ne_nil _ _

/-- A line without undefined symbols has no operand that needs one. -/
theorem undefined_of_undefinedFaults {operands : List Operand}
    (faultless : undefinedFaults operands = []) : ∀ o ∈ operands, o.undefined = [] := by
  simp only [undefinedFaults, List.map_eq_nil_iff, List.reverse_eq_nil_iff] at faultless
  generalize places : operands.flatMap (fun o => o.undefined.map fun name => (o.column, name)) = all
    at faultless
  cases all with
  | cons place rest =>
    refine absurd faultless (note_ne_nil rest ?_)
    simp [note]
  | nil =>
    intro o member
    simpa using List.flatMap_eq_nil_iff.mp places o member

end Statement

def Environment.undefined (env : Environment) (references : List Reference) : List Bytes :=
  references.filterMap fun r => if (env.symbol r).value.isNone then some (env.symbol r).name else none

theorem DataForm.undefined_operand (env : Environment) (column : Nat) (form : DataForm) :
    (form.operand env column).undefined = env.undefined form.references := by
  cases form <;> rfl

theorem OperandSource.undefined_operand (env : Environment) (s : OperandSource) :
    (s.operand env).undefined = env.undefined s.form.references := by
  obtain ⟨column, form⟩ := s
  cases form with
  | register bank word =>
    unfold operand registerOperand
    dsimp only
    split <;> rfl
  | restart e =>
    unfold operand restartOperand
    dsimp only
    split
    · split <;> rfl
    · rfl
  | data form => exact form.undefined_operand env column
  | list kind items text =>
    unfold operand listOperand OperandForm.references Environment.undefined
    dsimp only
    rw [List.filterMap_flatMap, List.flatMap_map]
    exact congrArg (List.flatMap · items) (funext fun form => form.undefined_operand env 0)
  | size e => rfl

/-- A line of the final pass that reports nothing has a value for each label that it uses. -/
theorem Statement.resolved_of_faults {s : Statement} {state : State}
    (clean : (s.assemble true state).1.faults = []) :
    ∀ r ∈ s.references, ∃ w, (state.symbols.denoted r).value = some w := by
  intro r member
  have undefined : undefinedFaults (s.operands state.environment) = [] :=
    (List.append_eq_nil_iff.mp clean).2
  unfold references at member
  split at member
  next c command =>
    obtain ⟨o, inside, used⟩ := List.mem_flatMap.mp member
    have defines := undefined_of_undefinedFaults undefined (o.operand state.environment) (by
      unfold operands
      rw [command]
      exact List.mem_map_of_mem inside)
    rw [OperandSource.undefined_operand, Environment.undefined, List.filterMap_eq_nil_iff] at defines
    have defined := defines r used
    cases value : (state.symbols.denoted r).value with
    | some w => exact ⟨w, rfl⟩
    | none => simp [State.environment, value] at defined
  next => exact absurd member List.not_mem_nil

/-! ### Known labels -/

namespace SymbolTable

/-- A label has an entry of its own, or is global and declared in another file. -/
def Known (t : SymbolTable) (d : Declaration) : Prop :=
  (t.get? d.key).isSome = true ∨ d.kind = .global ∧ (t.globals[d.text]?).isSome = true

theorem Extends.known {t u : SymbolTable} (ext : Extends t u) {d : Declaration}
    (known : t.Known d) : u.Known d := by
  rcases known with entry | ⟨global, listed⟩
  · obtain ⟨s, found⟩ := Option.isSome_iff_exists.mp entry
    obtain ⟨s', found', -⟩ := ext.kept found
    exact .inl (by simp [found'])
  · exact .inr ⟨global, by rw [ext.globals]; exact listed⟩

theorem SameLabels.known {t u : SymbolTable} (same : SameLabels t u) {d : Declaration}
    (known : t.Known d) : u.Known d := by
  rcases known with entry | ⟨global, listed⟩
  · obtain ⟨s, found⟩ := Option.isSome_iff_exists.mp entry
    obtain ⟨s', found', -⟩ := same.symm.exists found
    exact .inl (by simp [found'])
  · exact .inr ⟨global, by rw [same.globals]; exact listed⟩

theorem Declared.known_self {t : SymbolTable} {d : Declaration} {outcome : Lookup}
    (declared : Declared t d outcome) : outcome.table.Known d := by
  cases declared with
  | refused known => exact known
  | found hit line entries globals => exact .inl (by rw [entries, if_pos rfl]; rfl)
  | promoted => exact .inl (by rw [get?_promote, if_pos rfl]; rfl)
  | entered => exact .inl (by rw [get?_enter, if_pos rfl]; rfl)

/-- A declaration makes no other label unknown: the entry of a label that waits for its file is
moved, and listed by its name. -/
theorem Declared.known {t : SymbolTable} {d : Declaration} {outcome : Lookup}
    (declared : Declared t d outcome) (proper : d.toLabel.Proper) {d' : Declaration}
    (proper' : d'.toLabel.Proper) (known : t.Known d') : outcome.table.Known d' := by
  cases declared with
  | refused => exact known
  | found hit line entries globals =>
    rcases known with entry | ⟨global, listed⟩
    · refine .inl ?_
      rw [entries]
      split
      · rfl
      · exact entry
    · exact .inr ⟨global, by rw [globals]; exact listed⟩
  | promoted miss global concrete undeclared waiting =>
    rcases known with entry | ⟨global', listed⟩
    · by_cases moved : pendingKey d.toLabel = d'.key
      · rw [pendingKey_of_global global] at moved
        obtain ⟨⟨kind, text, -⟩, -⟩ := Label.key_inj proper proper' moved
        exact .inr ⟨kind.symm.trans global, by rw [globals_promote, if_pos text]; rfl⟩
      · refine .inl ?_
        rw [get?_promote, if_neg moved]
        split
        · rfl
        · exact entry
    · refine .inr ⟨global', ?_⟩
      rw [globals_promote]
      split
      · rfl
      · exact listed
  | entered miss undeclared alone =>
    rcases known with entry | ⟨global, listed⟩
    · refine .inl ?_
      rw [get?_enter]
      split
      · rfl
      · exact entry
    · refine .inr ⟨global, ?_⟩
      rw [globals_enter]
      split
      · rfl
      · exact listed

theorem Consistent.known_define {t : SymbolTable} (valid : t.Consistent) {d d' : Declaration}
    (proper : d.toLabel.Proper) (proper' : d'.toLabel.Proper) (v : Value)
    (known : t.Known d' ∨ d = d') : (t.define d v).1.Known d' := by
  have after {u : SymbolTable} (accepted : Declared t d ⟨u, some d.key, none⟩) : u.Known d' := by
    rcases known with known | rfl
    · exact accepted.known proper proper' known
    · exact accepted.known_self
  have defined := valid.defined proper v
  generalize t.define d v = outcome at defined
  cases defined with
  | refused entry =>
    rcases known with known | rfl
    · exact known
    · exact entry
  | kept accepted => exact after accepted
  | assigned accepted => exact (assign_sameLabels ..).known (after accepted)

end SymbolTable

namespace Statement

theorem Proper.consistent_assemble {s : Statement} (proper : s.Proper) (final : Bool)
    {state : State} (valid : state.symbols.Consistent) :
    (s.assemble final state).2.symbols.Consistent := by
  have used := (valid.uses final s.location proper.references).1
  rw [symbols_assemble]
  unfold defineLabel
  cases label : s.label with
  | none => exact used
  | some d => exact used.define (proper.label label).1 _

theorem Proper.known_assemble {s : Statement} (proper : s.Proper) (final : Bool) {state : State}
    (valid : state.symbols.Consistent) {d : Declaration} (proper' : d.toLabel.Proper)
    (known : state.symbols.Known d ∨ s.label = some d) :
    (s.assemble final state).2.symbols.Known d := by
  obtain ⟨used, ext⟩ := valid.uses final s.location proper.references
  rw [symbols_assemble]
  unfold defineLabel
  cases label : s.label with
  | none =>
    rcases known with known | self
    · exact ext.known known
    · rw [label] at self
      contradiction
  | some d' =>
    refine used.known_define (proper.label label).1 proper' _ ?_
    rcases known with known | self
    · exact .inl (ext.known known)
    · exact .inr (Option.some.inj (label.symm.trans self))

end Statement

section Known

variable {statements : List Statement} (proper : ∀ s ∈ statements, s.Proper)

include proper

theorem passAt_consistent {final : Bool} {state : State} (valid : state.symbols.Consistent) {i : Nat}
    (bound : i ≤ statements.length) : (passAt final statements state i).symbols.Consistent := by
  refine passAt_invariant (fun _ before => before.symbols.Consistent) valid ?_ bound
  intro i s before line kept
  exact (proper s (List.mem_of_getElem? line)).consistent_assemble final kept

theorem afterPasses_consistent {state : State} (valid : state.symbols.Consistent) (n : Nat) :
    (afterPasses statements state n).symbols.Consistent :=
  afterPasses_invariant (fun state => state.symbols.Consistent) valid
    (fun kept => passAt_consistent proper kept le_rfl) n

/-- A pass makes the labels of its lines known and no other one unknown. -/
theorem passAt_known {final : Bool} {state : State} (valid : state.symbols.Consistent) {j : Nat}
    {s : Statement} (at_j : statements[j]? = some s) {d : Declaration} (label : s.label = some d)
    {i : Nat} (bound : i ≤ statements.length) (known : state.symbols.Known d ∨ j < i) :
    (passAt final statements state i).symbols.Known d := by
  have properLabel := ((proper s (List.mem_of_getElem? at_j)).label label).1
  refine (passAt_invariant (fun i before => before.symbols.Consistent ∧
    (state.symbols.Known d ∨ j < i → before.symbols.Known d)) ?_ ?_ bound).2 known
  · exact ⟨valid, fun known => known.resolve_right (Nat.not_lt_zero j)⟩
  · intro i line before at_i ⟨kept, rest⟩
    have properLine := proper line (List.mem_of_getElem? at_i)
    refine ⟨properLine.consistent_assemble final kept, fun known => ?_⟩
    refine properLine.known_assemble final kept properLabel ?_
    rcases known with old | less
    · exact .inl (rest (.inl old))
    · rcases Nat.lt_succ_iff_lt_or_eq.mp less with earlier | rfl
      · exact .inl (rest (.inr earlier))
      · obtain rfl := Option.some.inj (at_j.symm.trans at_i)
        exact .inr label

end Known

/-! ### Lines without faults -/

namespace SymbolTable

/-- What a line that reports nothing does where its label is known: no entry moves, and no value
changes but that of the label. -/
structure Clean (t u : SymbolTable) (label : Option Declaration) : Prop where
  values : ∀ {key}, (∀ d ∈ label, d.key ≠ key) → u.valueOf key = t.valueOf key
  lines : ∀ {key s}, t.get? key = some s → s.line ≠ 0 →
    ∃ s', u.get? key = some s' ∧ s'.line = s.line
  declared : ∀ d ∈ label, ∃ s, u.get? d.key = some s ∧ s.line = d.line

theorem Extends.clean {t u : SymbolTable} (ext : Extends t u) : Clean t u none where
  values _ := ext.valueOf _
  lines found _ := by
    obtain ⟨s', found', line, -⟩ := ext.kept found
    exact ⟨s', found', line⟩
  declared d member := by contradiction

theorem Extends.trans_clean {t u v : SymbolTable} (ext : Extends t u) {label : Option Declaration}
    (clean : Clean u v label) : Clean t v label where
  values other := (clean.values other).trans (ext.valueOf _)
  lines found declared := by
    obtain ⟨s', found', line, -⟩ := ext.kept found
    obtain ⟨s'', found'', line'⟩ := clean.lines found' (line ▸ declared)
    exact ⟨s'', found'', line'.trans line⟩
  declared := clean.declared

theorem Consistent.clean_define {t : SymbolTable} (valid : t.Consistent) {d : Declaration}
    (proper : d.toLabel.Proper) {v : Value} (known : t.Known d) (accepted : (t.define d v).2 = []) :
    Clean t (t.define d v).1 (some d) := by
  have defined := valid.defined proper v
  generalize t.define d v = outcome at defined accepted
  cases defined with
  | refused | kept => contradiction
  | assigned declared present number free =>
    cases declared with
    | @found _ s hit line entries globals =>
      constructor
      · intro key other
        have apart := other d rfl
        unfold valueOf
        dsimp only
        rw [get?_assign, if_neg apart, entries, if_neg apart]
      · intro key s' found stands
        dsimp only
        rw [get?_assign, entries, entries, if_pos rfl]
        split
        next same =>
          obtain rfl := Option.some.inj (hit.symm.trans (same ▸ found))
          exact ⟨_, rfl, (line.resolve_left stands).symm⟩
        next => exact ⟨s', found, rfl⟩
      · intro d' same
        obtain rfl := Option.some.inj same
        dsimp only
        rw [get?_assign, if_pos rfl, entries, if_pos rfl]
        exact ⟨_, rfl, rfl⟩
    | promoted miss global concrete undeclared =>
      rcases known with entry | ⟨-, listed⟩
      · simp [miss] at entry
      · simp [undeclared] at listed
    | entered miss undeclared =>
      rcases known with entry | ⟨global, listed⟩
      · simp [miss] at entry
      · simp [undeclared global] at listed

end SymbolTable

theorem Statement.Proper.clean_assemble {s : Statement} (proper : s.Proper) {state : State}
    (valid : state.symbols.Consistent) (known : ∀ d, s.label = some d → state.symbols.Known d)
    (clean : (s.assemble true state).1.faults = []) :
    state.symbols.Clean (s.assemble true state).2.symbols s.label := by
  obtain ⟨used, ext⟩ := valid.uses true s.location proper.references
  have faults : (s.defineLabel (s.used true state.symbols) (s.labelWord state.environment)).2 = [] :=
    (List.append_eq_nil_iff.mp (List.append_eq_nil_iff.mp (List.append_eq_nil_iff.mp clean).1).1).2
  rw [symbols_assemble]
  unfold defineLabel at faults ⊢
  cases label : s.label with
  | none => exact ext.clean
  | some d =>
    rw [label] at faults
    exact ext.trans_clean
      (used.clean_define (proper.label label).1 (ext.known (known d label)) faults)

/-- A final pass that reports nothing, over a program whose labels are all known. -/
structure CleanPass (statements : List Statement) (state : State) : Prop
    extends Orderly statements where
  valid : state.symbols.Consistent
  known : ∀ s ∈ statements, ∀ d, s.label = some d → state.symbols.Known d
  clean : ∀ (i : Nat) (s : Statement), statements[i]? = some s →
    (s.assemble true (passAt true statements state i)).1.faults = []

namespace CleanPass

variable {statements : List Statement} {state : State} (run : CleanPass statements state)

include run

theorem step {i : Nat} {s : Statement} (line : statements[i]? = some s) :
    (passAt true statements state i).symbols.Clean
      (passAt true statements state (i + 1)).symbols s.label := by
  have bound := (List.getElem?_eq_some_iff.mp line).1.le
  have member := List.mem_of_getElem? line
  rw [passAt_succ line]
  refine (run.proper s member).clean_assemble (passAt_consistent run.proper run.valid bound) ?_
    (run.clean i s line)
  intro d label
  exact passAt_known run.proper run.valid line label bound (.inl (run.known s member d label))

/-- A label that a line has declared keeps the number of the line. -/
theorem line_kept {j : Nat} {s : Statement} {d : Declaration} (at_j : statements[j]? = some s)
    (label : s.label = some d) {i : Nat} (order : j + 1 ≤ i) (bound : i ≤ statements.length) :
    ∃ entry, (passAt true statements state i).symbols.get? d.key = some entry ∧
      entry.line = d.line := by
  induction i, order using Nat.le_induction with
  | base => exact (run.step at_j).declared d label
  | succ i order ih =>
    obtain ⟨entry, found, number⟩ := ih (by omega)
    have line : statements[i]? = some statements[i] := List.getElem?_eq_getElem (by omega)
    have member := List.mem_of_getElem? at_j
    have nonzero := run.nonzero s member
    have place := ((run.proper s member).label label).2.2
    obtain ⟨entry', found', number'⟩ := (run.step line).lines found (by omega)
    exact ⟨entry', found', number'.trans number⟩

/-- No two lines declare one label. -/
theorem declares_once {i j : Nat} {s s' : Statement} {d d' : Declaration}
    (at_i : statements[i]? = some s) (at_j : statements[j]? = some s') (label : s.label = some d)
    (label' : s'.label = some d') (key : d.key = d'.key) : ¬ i < j := by
  intro less
  have bound := (List.getElem?_eq_some_iff.mp at_j).1
  obtain ⟨entry, found, number⟩ := run.line_kept at_i label (Nat.succ_le_succ less.le) bound
  obtain ⟨entry', found', number'⟩ := (run.step at_j).declared d' label'
  rw [key] at found
  obtain rfl := Option.some.inj (found.symm.trans found')
  exact less.ne (run.index_eq at_i at_j label label' key (number.symm.trans number'))

/-- A value stays over lines that do not declare the label. -/
theorem valueOf_eq {key : Bytes} {i j : Nat} (order : i ≤ j) (bound : j ≤ statements.length)
    (other : ∀ k s d, i ≤ k → k < j → statements[k]? = some s → s.label = some d → d.key ≠ key) :
    (passAt true statements state j).symbols.valueOf key =
      (passAt true statements state i).symbols.valueOf key := by
  induction j, order using Nat.le_induction with
  | base => rfl
  | succ j order ih =>
    have line : statements[j]? = some statements[j] := List.getElem?_eq_getElem (by omega)
    have step := (run.step line).values
      fun d label => other j _ d order (Nat.lt_succ_self j) line label
    exact step.trans (ih (by omega)
      fun k s d after before => other k s d after (Nat.lt_succ_of_lt before))

end CleanPass

/-! ### The uses of the final pass -/

def finalAt (files : List SourceFile) (i : Nat) : State :=
  passAt true (program files) (finalStart files) i

/-- A use of a label in a program: its line, and how many uses come before it in the line. -/
structure LabelUse (files : List SourceFile) where
  index : Nat
  line : Statement
  rank : Nat
  label : Reference
  placed : (program files)[index]? = some line
  written : line.references[rank]? = some label

namespace LabelUse

variable {files : List SourceFile} (u : LabelUse files)

/-- The symbols at the use in the final pass, after the look-ups that come before it. -/
def symbols : SymbolTable :=
  (u.line.references.take u.rank).foldl (SymbolTable.use true u.line.location)
    (finalAt files u.index).symbols

def given : Value := (u.symbols.denoted u.label).value

def key : Option Bytes := (u.symbols.refer u.label).2

def valueIn (t : SymbolTable) : Value := u.key.bind t.valueOf

/-- The value given is the one that the symbol is left with. -/
def Current : Prop := u.given = u.valueIn (Assembly.ofFiles files).state.symbols

/-- The line that declares the symbol stands before the use. -/
def DeclaredBefore : Prop :=
  ∃ s ∈ (program files).take u.index, ∃ d ∈ s.label, u.key = some d.key

/-- The final pass leaves the symbol with the value that it starts with. -/
def Unmoved : Prop :=
  u.valueIn (finalStart files).symbols = u.valueIn (Assembly.ofFiles files).state.symbols

instance : Decidable u.Current := inferInstanceAs (Decidable (_ = _))

theorem label_mem : u.label ∈ u.line.references := List.mem_of_getElem? u.written

theorem index_le : u.index ≤ (program files).length :=
  (List.getElem?_eq_some_iff.mp u.placed).1.le

end LabelUse

section Uses

variable {files : List SourceFile}

theorem finalStart_consistent (files : List SourceFile) : (finalStart files).symbols.Consistent := by
  rw [finalStart_eq]
  exact (SymbolTable.clearReferences_sameLabels _).consistent
    (afterPasses_consistent (program_proper files) SymbolTable.empty_consistent _)

theorem finalStart_known (orderly : Orderly (program files)) : ∀ s ∈ program files, ∀ d,
    s.label = some d → (finalStart files).symbols.Known d := by
  intro s member d label
  obtain ⟨j, at_j⟩ := List.getElem?_of_mem member
  rw [finalStart_eq]
  refine (SymbolTable.clearReferences_sameLabels _).known ?_
  have passes : 2 ≤ (Assembly.ofFiles files).history.length := (settle_eq (program files) .empty).1
  obtain ⟨n, length⟩ : ∃ n, (Assembly.ofFiles files).history.length = n + 1 :=
    ⟨_, (Nat.succ_pred (by omega)).symm⟩
  rw [length, afterPasses_succ]
  have valid : (afterPasses (program files) .empty n).symbols.Consistent :=
    afterPasses_consistent orderly.proper SymbolTable.empty_consistent n
  exact passAt_known orderly.proper valid at_j label le_rfl
    (.inr (List.getElem?_eq_some_iff.mp at_j).1)

theorem finalPass_clean (orderly : Orderly (program files))
    (clean : (Assembly.ofFiles files).diagnostics = []) :
    CleanPass (program files) (finalStart files) where
  toOrderly := orderly
  valid := finalStart_consistent files
  known := finalStart_known orderly
  clean := by
    intro i s line
    have member : (s.assemble true (finalAt files i)).1 ∈ (Assembly.ofFiles files).lines := by
      rw [Assembly.lines_ofFiles, pass_lines]
      refine List.mem_of_getElem? (i := i) ?_
      rw [List.getElem?_mapIdx, line]
      rfl
    have silent := List.flatMap_eq_nil_iff.mp clean _ member
    exact List.map_eq_nil_iff.mp silent

namespace LabelUse

variable (run : CleanPass (program files) (finalStart files)) (u : LabelUse files)

include run

theorem consistent : (finalAt files u.index).symbols.Consistent :=
  passAt_consistent run.proper run.valid u.index_le

theorem references_proper : ∀ r ∈ u.line.references, r.toLabel.Proper :=
  (run.proper u.line (List.mem_of_getElem? u.placed)).references

theorem earlier_proper : ∀ r ∈ u.line.references.take u.rank, r.toLabel.Proper :=
  fun r member => u.references_proper run r (List.mem_of_mem_take member)

/-- The look-ups that come before the use in its line make entries, but change no value. -/
theorem given_eq : u.given = ((finalAt files u.index).symbols.denoted u.label).value := by
  have own := u.references_proper run u.label u.label_mem
  exact ((u.consistent run).denoted_uses true u.line.location (u.earlier_proper run) own).1

/-- A use finds a key and is given the value that is under it before the line. -/
theorem found : ∃ key, u.key = some key ∧ u.given = (finalAt files u.index).symbols.valueOf key := by
  have own := u.references_proper run u.label u.label_mem
  obtain ⟨valid, ext⟩ := (u.consistent run).uses true u.line.location (u.earlier_proper run)
  refine ⟨_, valid.refer_key own, ?_⟩
  rw [u.given_eq run, (u.consistent run).denoted_value, ext.referenceKey]

theorem resolved : u.given.isSome = true := by
  obtain ⟨w, value⟩ := Statement.resolved_of_faults (run.clean u.index u.line u.placed) u.label
    u.label_mem
  exact Option.isSome_iff_exists.mpr ⟨w, (u.given_eq run).trans value⟩

/-- Between the declaration of a label and the end of the pass its value stays, and likewise
between the start of the pass and the declaration. -/
theorem current_iff : u.Current ↔ u.DeclaredBefore ∨ u.Unmoved := by
  obtain ⟨key, found, value⟩ := u.found run
  have last : (Assembly.ofFiles files).state.symbols =
      (finalAt files (program files).length).symbols := by
    rw [Assembly.state_ofFiles]
    rfl
  unfold Current Unmoved valueIn
  rw [found, Option.bind_some, Option.bind_some, value, last]
  by_cases earlier : u.DeclaredBefore
  · obtain ⟨s', inside, d, label, same⟩ := earlier
    obtain rfl := Option.some.inj (found.symm.trans same)
    obtain ⟨j, at_j⟩ := List.getElem?_of_mem inside
    rw [List.getElem?_take] at at_j
    split at at_j
    next less =>
      have stays : (finalAt files (program files).length).symbols.valueOf d.key =
          (finalAt files u.index).symbols.valueOf d.key :=
        run.valueOf_eq u.index_le le_rfl fun k s'' d' after _ at_k label' key =>
          run.declares_once at_j at_k label label' key.symm (less.trans_le after)
      exact ⟨fun _ => .inl ⟨s', inside, d, label, same⟩, fun _ => stays.symm⟩
    next => contradiction
  · have stays : (finalAt files u.index).symbols.valueOf key =
        (finalStart files).symbols.valueOf key := by
      refine run.valueOf_eq (Nat.zero_le _) u.index_le fun k s' d _ before at_k label own => ?_
      have inside : s' ∈ (program files).take u.index :=
        List.mem_of_getElem? (by rw [List.getElem?_take, if_pos before, at_k])
      exact earlier ⟨s', inside, d, label, found.trans (congrArg some own.symm)⟩
    rw [stays]
    exact ⟨.inr, fun either => either.resolve_left earlier⟩

/-- Where the layout is free of labels, values stay from any use on. -/
theorem current_of_layoutFree (concrete : Concrete (program files))
    (free : ∀ s ∈ program files, s.LayoutFree) : u.Current := by
  obtain ⟨key, found, value⟩ := u.found run
  obtain ⟨w, resolved⟩ := Option.isSome_iff_exists.mp (u.resolved run)
  have explained : Explained (program files) (finalStart files).symbols :=
    passStarts_explained concrete free (true, finalStart files)
      (List.mem_append_right _ (List.mem_singleton.mpr rfl))
  have keeps : (finalAt files u.index).symbols.Keeps (Assembly.ofFiles files).state.symbols := by
    rw [Assembly.state_ofFiles]
    exact passAt_keeps concrete free explained u.index_le le_rfl
  unfold Current valueIn
  rw [found, Option.bind_some, resolved]
  exact (keeps.values (value.symm.trans resolved)).symm

end LabelUse

end Uses

/-- In an assembly without diagnostics every use of a label has a value, and it is current exactly
if the label is declared before it or not moved by the final pass. Where neither ORG nor DS uses a
label, no use is stale. -/
theorem use_current (sources : List (Bytes × Bytes))
    (distinct : (sources.map fun s => keyFile s.1).Nodup)
    (clean : (Assembly.ofFiles (sourceFiles sources)).diagnostics = []) :
    (∀ u : LabelUse (sourceFiles sources), u.given.isSome = true ∧
      (u.Current ↔ u.DeclaredBefore ∨ u.Unmoved)) ∧
    ((∀ s ∈ sources, isConcrete s.1 = true) →
      (∀ s ∈ program (sourceFiles sources), s.LayoutFree) →
      ∀ u : LabelUse (sourceFiles sources), u.Current) := by
  have orderly := sourceFiles_orderly distinct
  have run := finalPass_clean orderly clean
  constructor
  · exact fun u => ⟨u.resolved run, u.current_iff run⟩
  · exact fun named free u => u.current_of_layoutFree run (orderly.concrete (sourceFiles_named named)) free

/-- The use of the global label in the first of `forwardSources`. -/
def globalUse : LabelUse (sourceFiles forwardSources) where
  index := 1
  line := (program (sourceFiles forwardSources))[1]?.get (by decide +kernel)
  rank := 0
  label := ⟨⟨.global, ascii "X", []⟩, [], 2, ascii "$X"⟩
  placed := (Option.some_get _).symm
  written := by decide +kernel

theorem use_current_globalUse :
    ((forwardSources.map fun s => keyFile s.1).Nodup ∧
      (Assembly.ofFiles (sourceFiles forwardSources)).diagnostics = []) ∧
    globalUse.given.isSome = true ∧
      (globalUse.Current ↔ globalUse.DeclaredBefore ∨ globalUse.Unmoved) ∧ globalUse.Current := by
  have distinct : (forwardSources.map fun s => keyFile s.1).Nodup := by decide +kernel
  have clean : (Assembly.ofFiles (sourceFiles forwardSources)).diagnostics = [] := by
    decide +kernel
  obtain ⟨uses, free⟩ := use_current forwardSources distinct clean
  obtain ⟨resolved, current_iff⟩ := uses globalUse
  exact ⟨⟨distinct, clean⟩, resolved, current_iff,
    free (by decide +kernel) (by decide +kernel) globalUse⟩

/-! Two programs without diagnostics that have a stale use. In the first the DS moves the label in
the final pass, after the count of symbols without a value has come to zero; in the second two files
of one name declare the label on lines of one number. -/

def movedSources : List (Bytes × Bytes) :=
  [(ascii "t.asm", ascii "ORG 0\nJMP L\nDS N\nL: NOP\nN EQU M\nM EQU 3\n")]

def twinSources : List (Bytes × Bytes) :=
  [(ascii "t.asm", ascii "ORG 0\nL: NOP\nJMP L\n"), (ascii "t.asm", ascii "NOP\nL: NOP\n")]

def movedUse : LabelUse (sourceFiles movedSources) where
  index := 1
  line := (program (sourceFiles movedSources))[1]?.get (by decide +kernel)
  rank := 0
  label := ⟨⟨.static, ascii "L", []⟩, ascii "t.asm", 2, ascii "L"⟩
  placed := (Option.some_get _).symm
  written := by decide +kernel

def twinUse : LabelUse (sourceFiles twinSources) where
  index := 2
  line := (program (sourceFiles twinSources))[2]?.get (by decide +kernel)
  rank := 0
  label := ⟨⟨.static, ascii "L", []⟩, ascii "t.asm", 3, ascii "L"⟩
  placed := (Option.some_get _).symm
  written := by decide +kernel

theorem use_stale :
    ((Assembly.ofFiles (sourceFiles movedSources)).fault none = none ∧
      (Assembly.ofFiles (sourceFiles movedSources)).diagnostics = [] ∧ ¬ movedUse.Current) ∧
    ((Assembly.ofFiles (sourceFiles twinSources)).fault none = none ∧
      (Assembly.ofFiles (sourceFiles twinSources)).diagnostics = [] ∧ ¬ twinUse.Current) := by
  decide +kernel

end Assembler8080
