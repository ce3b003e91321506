import Assembler8080.Proofs.Convergence
import Assembler8080.Proofs.Placeholders

/-! Why an assembly gives up. A symbol that is left without a value had none at any moment of the final
pass (`passAt_unresolvedKeys`), and some line of the program names it (`afterRuns_named`). A line that
uses it reports it. A line that declares it reports why it gives it no value, with one exception: a line
without an instruction, or with END, gives its label the address and needs none
(`Statement.labelWord_clean`). -/
namespace Assembler8080

/-! ### Where entries come from -/

/-- A line that declares the label of a key, or uses a label that is entered under it. -/
def Statement.Names (s : Statement) (key : Bytes) : Prop :=
  (∃ d, s.label = some d ∧ d.key = key) ∨ ∃ r ∈ s.references, r.key = key

namespace SymbolTable

variable {t u : SymbolTable} {key : Bytes}

theorem Consistent.isSome_use (valid : t.Consistent) {r : Reference} (proper : r.toLabel.Proper)
    (final : Bool) (l : Location) (present : ((t.use final l r).get? key).isSome = true) :
    (t.get? key).isSome = true ∨ r.key = key := by
  have refers : ((t.refer r).1.get? key).isSome = true := by
    rw [valid.use_eq proper] at present
    split at present
    · rwa [(addReference_alike ..).isSome_get?] at present
    · exact present
  rw [valid.get?_refer proper] at refers
  split at refers
  next fresh =>
    obtain ⟨missing, rfl⟩ := fresh
    exact .inr (valid.referenceKey_of_missing missing).symm
  next => exact .inl refers

theorem Consistent.isSome_uses (valid : t.Consistent) (final : Bool) (l : Location)
    {references : List Reference} (proper : ∀ r ∈ references, r.toLabel.Proper)
    (present : ((references.foldl (SymbolTable.use final l) t).get? key).isSome = true) :
    (t.get? key).isSome = true ∨ ∃ r ∈ references, r.key = key := by
  induction references generalizing t with
  | nil => exact .inl present
  | cons r rest ih =>
    have own := proper r List.mem_cons_self
    rcases ih (valid.use own final l).1 (fun r' member => proper r' (List.mem_cons_of_mem _ member))
      present with before | ⟨r', member, same⟩
    · rcases valid.isSome_use own final l before with older | same
      · exact .inl older
      · exact .inr ⟨r, List.mem_cons_self, same⟩
    · exact .inr ⟨r', List.mem_cons_of_mem _ member, same⟩

theorem Declared.isSome {d : Declaration} {outcome : Lookup} (declared : Declared t d outcome)
    (present : (outcome.table.get? key).isSome = true) : (t.get? key).isSome = true ∨ d.key = key := by
  by_cases same : d.key = key
  · exact .inr same
  left
  cases declared with
  | refused => exact present
  | found hit line entries globals => rwa [entries, if_neg same] at present
  | promoted =>
    rw [get?_promote, if_neg same] at present
    split at present
    · contradiction
    · exact present
  | entered => rwa [get?_enter, if_neg same] at present

theorem Consistent.isSome_define (valid : t.Consistent) {d : Declaration} (proper : d.toLabel.Proper)
    (v : Value) (present : ((t.define d v).1.get? key).isSome = true) :
    (t.get? key).isSome = true ∨ d.key = key := by
  have defined := valid.defined proper v
  generalize t.define d v = outcome at defined present
  cases defined with
  | refused => exact .inl present
  | kept accepted => exact accepted.isSome present
  | assigned accepted =>
    rw [(assign_alike ..).isSome_get?] at present
    exact accepted.isSome present

def NamedBy (statements : List Statement) (t : SymbolTable) : Prop :=
  ∀ key, (t.get? key).isSome = true → ∃ s ∈ statements, s.Names key

theorem Alike.namedBy {α : Type} {view : Symbol → α} (alike : Alike view t u)
    {statements : List Statement} (named : t.NamedBy statements) : u.NamedBy statements :=
  fun key present => named key (alike.isSome_get? key ▸ present)

theorem Consistent.find?_of_key (valid : t.Consistent) {r : Reference} (proper : r.toLabel.Proper)
    (present : (t.get? r.key).isSome = true) : t.find? r = some r.key := by
  have own : t.referenceKey r = r.key := by
    unfold referenceKey
    split
    next global =>
      cases listed : t.globals[r.text]? with
      | none => rfl
      | some other =>
        -- A global name has one entry only.
        obtain ⟨x, found⟩ := Option.isSome_iff_exists.mp present
        obtain ⟨properSymbol, same⟩ := valid.keyed found
        obtain ⟨⟨kind, text, -⟩, -⟩ := Label.key_inj properSymbol proper same
        obtain ⟨y, found', kind', text', -⟩ := valid.listed listed
        exact valid.single found' found kind' (kind.trans global) (text'.trans text.symm)
    next => rfl
  rw [valid.find?_eq, own, if_pos present]

theorem Alike.find?_eq {α : Type} {view : Symbol → α} (alike : Alike view t u) (before : t.Consistent)
    (after : u.Consistent) (r : Reference) : u.find? r = t.find? r := by
  have same : u.referenceKey r = t.referenceKey r := by
    unfold referenceKey
    rw [alike.globals]
  rw [after.find?_eq, before.find?_eq, same, alike.isSome_get?]

end SymbolTable

theorem Statement.Proper.namedBy_assemble {s : Statement} (proper : s.Proper)
    {statements : List Statement} (member : s ∈ statements) (final : Bool) {state : State}
    (valid : state.symbols.Consistent) (named : state.symbols.NamedBy statements) :
    (s.assemble final state).2.symbols.NamedBy statements := by
  intro key present
  have used (present : ((s.used final state.symbols).get? key).isSome = true) :
      ∃ s ∈ statements, s.Names key := by
    rcases valid.isSome_uses final s.location proper.references present with before | uses
    · exact named key before
    · exact ⟨s, member, .inr uses⟩
  rw [symbols_assemble] at present
  unfold defineLabel at present
  split at present
  next d label =>
    have kept := (valid.uses final s.location proper.references).1
    rcases kept.isSome_define (proper.label label).1 _ present with before | same
    · exact used before
    · exact ⟨s, member, .inl ⟨d, label, same⟩⟩
  next => exact used present

section Named

variable {statements : List Statement} (proper : ∀ s ∈ statements, s.Proper) {state : State}
  (valid : state.symbols.Consistent) (named : state.symbols.NamedBy statements)

include proper valid named

theorem passAt_named (final : Bool) :
    (passAt final statements state statements.length).symbols.NamedBy statements := by
  refine (passAt_invariant (fun _ before => before.symbols.Consistent ∧
    before.symbols.NamedBy statements) ⟨valid, named⟩ ?_ le_rfl).2
  intro i s before line ⟨kept, named⟩
  have member := List.mem_of_getElem? line
  exact ⟨(proper s member).consistent_assemble final kept,
    (proper s member).namedBy_assemble member final kept named⟩

theorem afterPasses_named (n : Nat) :
    (afterPasses statements state n).symbols.NamedBy statements := by
  induction n with
  | zero => exact named
  | succ n ih =>
    rw [afterPasses_succ]
    exact passAt_named proper (afterPasses_consistent proper valid n) ih false

end Named

theorem Assembly.named_run (files : List SourceFile) {state : State}
    (valid : state.symbols.Consistent) (named : state.symbols.NamedBy (program files)) :
    (Assembly.run files state).state.symbols.NamedBy (program files) := by
  have proper := program_proper files
  have before := afterPasses_named proper valid named (Assembly.run files state).history.length
  have ready := State.forPass_alike true
    (afterPasses (program files) state (Assembly.run files state).history.length)
  rw [state_run, nextPass_eq]
  exact passAt_named proper (ready.shape.sameLabels.consistent (afterPasses_consistent proper valid _))
    (ready.namedBy before) true

theorem afterRuns_named (files : List SourceFile) (calls : Nat) :
    (afterRuns files calls).symbols.NamedBy (program files) := by
  induction calls with
  | zero => exact fun key present => absurd present (by
      simp [afterRuns, State.empty, SymbolTable.empty, SymbolTable.get?])
  | succ n ih => exact Assembly.named_run files (afterRuns_consistent files n) ih

/-! ### Lines that report nothing -/

namespace Statement

variable {s : Statement} {state : State}

/-- A line of the final pass without a fault has a value for its label, unless it stands at no address
and has no instruction, or END. -/
theorem labelWord_clean (proper : s.Proper) (clean : (s.assemble true state).1.faults = []) :
    (s.labelWord state.environment).isSome = true ∨
      state.code.address = none ∧ (s.command = none ∨ s.endsProgram = true) := by
  unfold labelWord
  cases command : s.command with
  | none =>
    cases address : state.code.address with
    | none => exact .inr ⟨rfl, .inl rfl⟩
    | some w => exact .inl (by simp [Command.labelValue, State.environment, address])
  | some c =>
    obtain ⟨-, obeyed⟩ := obeyed_clean command (proper.word command) (proper.size command) clean
    have operands : s.operands state.environment = c.operands state.environment := by
      rw [Statement.operands, command]
    rw [Option.map_some, operands]
    generalize (s.assemble true state).1.bytes = bytes at obeyed
    cases obeyed with
    | emits code placed =>
      left
      unfold Instruction.emitsCode at code
      unfold Command.labelValue
      split <;> simp_all [State.environment]
    | assigns directive word =>
      rcases directive with org | equ
      · exact .inl (by rw [org]; exact word)
      · exact .inl (by rw [equ]; exact word)
    | reserves directive word placed => exact .inl (by rw [directive]; exact placed)
    | ends directive =>
      rw [directive]
      cases address : state.code.address with
      | none =>
        exact .inr ⟨rfl, .inr (by simp [endsProgram, command, Instruction.endsProgram, directive])⟩
      | some w => exact .inl (by simp [Command.labelValue, State.environment, address])

/-- A line without a fault gives its label the value that it has for it. -/
theorem valueOf_clean {d : Declaration} (proper : s.Proper) (valid : state.symbols.Consistent)
    (label : s.label = some d) (clean : (s.assemble true state).1.faults = []) :
    (s.assemble true state).2.symbols.valueOf d.key = s.labelWord state.environment := by
  obtain ⟨-, faults, -⟩ := parts_of_clean clean
  have kept := (valid.uses true s.location proper.references).1
  have defined := kept.defined (proper.label label).1 (s.labelWord state.environment)
  rw [symbols_assemble]
  simp only [defineLabel, label] at faults ⊢
  rw [← used] at defined
  generalize (s.used true state.symbols).define d (s.labelWord state.environment) = outcome
    at defined faults ⊢
  cases defined with
  | refused => contradiction
  | kept => contradiction
  | assigned accepted present =>
    simp [SymbolTable.valueOf, SymbolTable.get?_assign, present]

/-- A line without a fault does not use a symbol that is without a value before and after it. Where it
declares it, it stands at no address and has no instruction, or END. -/
theorem unresolved_clean {key : Bytes} (proper : s.Proper) (valid : state.symbols.Consistent)
    (before : key ∈ state.symbols.unresolvedKeys)
    (after : key ∈ (s.assemble true state).2.symbols.unresolvedKeys)
    (clean : (s.assemble true state).1.faults = []) :
    (∀ r ∈ s.references, state.symbols.find? r ≠ some key) ∧
      ((∃ d, s.label = some d ∧ d.key = key) →
        state.code.address = none ∧ (s.command = none ∨ s.endsProgram = true)) := by
  constructor
  · -- A use would report the symbol, which has no value when the line is read.
    intro r member found
    obtain ⟨x, entry, valueless⟩ := SymbolTable.mem_unresolvedKeys.mp before
    obtain ⟨w, value⟩ := resolved_of_faults clean r member
    rw [SymbolTable.denoted, found, Option.bind_some, entry, Option.getD_some, valueless] at value
    contradiction
  · rintro ⟨d, label, rfl⟩
    obtain ⟨x, entry, valueless⟩ := SymbolTable.mem_unresolvedKeys.mp after
    have given := valueOf_clean proper valid label clean
    rw [SymbolTable.valueOf, entry, Option.bind_some, valueless] at given
    exact (labelWord_clean proper clean).resolve_left (by simp [← given])

end Statement

/-! ### The final pass -/

namespace Line

def Declares (key : Bytes) (l : Line) : Prop := ∃ d, l.statement.label = some d ∧ d.key = key

def Uses (t : SymbolTable) (key : Bytes) (l : Line) : Prop :=
  ∃ r ∈ l.statement.references, t.find? r = some key

end Line

section Final

variable {statements : List Statement} (proper : ∀ s ∈ statements, s.Proper) {start : State}
  (valid : start.symbols.Consistent) (settled : ∀ s ∈ statements, start.symbols.Settled s)

include proper valid settled

/-- In a pass over settled lines a symbol without a value had none before. -/
theorem passAt_unresolvedKeys (final : Bool) {i j : Nat} (order : i ≤ j)
    (bound : j ≤ statements.length) :
    (passAt final statements start j).symbols.unresolvedKeys ⊆
      (passAt final statements start i).symbols.unresolvedKeys := by
  induction j, order using Nat.le_induction with
  | base => exact Finset.Subset.refl _
  | succ j order ih =>
    have line : statements[j]? = some statements[j] := List.getElem?_eq_getElem (by omega)
    have member := List.mem_of_getElem? line
    have own := proper _ member
    have kept : (passAt final statements start j).symbols.Consistent :=
      passAt_consistent proper valid (by omega)
    have alike := passAt_alike proper valid settled final (i := j) (by omega)
    refine Finset.Subset.trans ?_ (ih (by omega))
    rw [passAt_succ line]
    exact (own.course final kept).later.unresolvedKeys_subset
      (own.alike_assemble final kept (alike.settled (settled _ member)))
      (own.consistent_assemble final kept)

/-- A line of the final pass that names a symbol without a value reports a fault, or it declares it,
stands at no address and has no instruction, or END. -/
theorem line_unresolved {key : Bytes} {t : SymbolTable}
    (last : t = (passAt true statements start statements.length).symbols)
    (unresolved : key ∈ t.unresolvedKeys) {l : Line} (member : l ∈ (pass true statements start).1)
    (clean : l.faults = []) :
    ¬ l.Uses t key ∧
      (l.Declares key → l.start = none ∧ (l.statement.command = none ∨ l.endsProgram = true)) := by
  obtain ⟨i, at_i⟩ := List.mem_iff_getElem?.mp member
  rw [getElem?_pass, Option.map_eq_some_iff] at at_i
  obtain ⟨s, line, rfl⟩ := at_i
  obtain ⟨inside, -⟩ := List.getElem?_eq_some_iff.mp line
  have own := proper s (List.mem_of_getElem? line)
  have kept : (passAt true statements start i).symbols.Consistent :=
    passAt_consistent proper valid inside.le
  -- The symbol has no value right before the line and right after it.
  have before := passAt_unresolvedKeys proper valid settled true inside.le le_rfl (last ▸ unresolved)
  have after := passAt_unresolvedKeys proper valid settled true inside le_rfl (last ▸ unresolved)
  rw [passAt_succ line] at after
  obtain ⟨unused, declared⟩ := Statement.unresolved_clean own kept before after clean
  refine ⟨?_, declared⟩
  rintro ⟨r, used, found⟩
  have alike := (passAt_alike proper valid settled true inside.le).symm.trans
    (passAt_alike proper valid settled true le_rfl)
  have ended : (passAt true statements start statements.length).symbols.Consistent :=
    passAt_consistent proper valid le_rfl
  rw [last, alike.find?_eq kept ended] at found
  exact unused r used found

end Final

namespace Assembly

def Reports (a : Assembly) (key : Bytes) : Prop :=
  ∃ l ∈ a.lines, (l.Declares key ∨ l.Uses a.state.symbols key) ∧
    ∃ x ∈ l.diagnostics, x ∈ a.diagnostics ∧ x.location = l.location

/-- No line uses the symbol of a key, and the lines that declare it, of which there is one, report
nothing: they stand at no address, and have no instruction, or END. -/
def Unplaced (a : Assembly) (key : Bytes) : Prop :=
  (∃ l ∈ a.lines, l.Declares key) ∧
    ∀ l ∈ a.lines, ¬ l.Uses a.state.symbols key ∧
      (l.Declares key → l.diagnostics = [] ∧ l.start = none ∧
        (l.statement.command = none ∨ l.endsProgram = true))

variable (files : List SourceFile) (calls : Nat) {key : Bytes}

theorem line_named (present : ((Assembly.run files (afterRuns files calls)).state.symbols.get?
      key).isSome = true) :
    ∃ l ∈ (Assembly.run files (afterRuns files calls)).lines,
      l.Declares key ∨ l.Uses (Assembly.run files (afterRuns files calls)).state.symbols key := by
  obtain ⟨s, member, names⟩ := afterRuns_named files (calls + 1) key present
  obtain ⟨i, line⟩ := List.mem_iff_getElem?.mp member
  refine ⟨_, List.mem_of_getElem? (by rw [lines_run, getElem?_pass, line]; rfl), ?_⟩
  rcases names with declares | ⟨r, used, rfl⟩
  · exact .inl declares
  · have own := (program_proper files s member).references r used
    exact .inr ⟨r, used, (afterRuns_consistent files (calls + 1)).find?_of_key own present⟩

theorem line_clean (unresolved : key ∈
      (Assembly.run files (afterRuns files calls)).state.symbols.unresolvedKeys) {l : Line}
    (member : l ∈ (Assembly.run files (afterRuns files calls)).lines) (clean : l.faults = []) :
    ¬ l.Uses (Assembly.run files (afterRuns files calls)).state.symbols key ∧
      (l.Declares key → l.start = none ∧ (l.statement.command = none ∨ l.endsProgram = true)) := by
  have proper := program_proper files
  have valid := afterRuns_consistent files calls
  obtain ⟨n, length, -⟩ := history_run files (afterRuns files calls)
  rw [lines_run, length] at member
  rw [state_run, length, nextPass_eq] at unresolved ⊢
  have ready := State.forPass_alike true (afterPasses (program files) (afterRuns files calls) (n + 2))
  exact line_unresolved proper
    (ready.shape.sameLabels.consistent (afterPasses_consistent proper valid _))
    (fun s inside => ready.shape.settled (afterPasses_settled proper valid (n + 1) s inside)) rfl
    unresolved member clean

end Assembly

/-- An abort is explained: there is a symbol without a value, and each such symbol is reported on a
line that declares or uses it, or is a label that stands at no address on a line that needs none. -/
theorem abort_explained (files : List SourceFile) (calls : Nat) (report : Option Bytes)
    (passes count : Nat) (aborted : (Assembly.run files (afterRuns files calls)).fault report =
      some (.unresolved passes count)) :
    let a := Assembly.run files (afterRuns files calls)
    (∃ key s, a.state.symbols.get? key = some s ∧ s.value = none) ∧
    ∀ key s, a.state.symbols.get? key = some s → s.value = none → a.Reports key ∨ a.Unplaced key := by
  intro a
  constructor
  · have positive := Assembly.unresolved_of_fault aborted
    rw [Assembly.unresolved, ← SymbolTable.card_unresolvedKeys, Finset.card_pos] at positive
    obtain ⟨key, member⟩ := positive
    obtain ⟨s, found, valueless⟩ := SymbolTable.mem_unresolvedKeys.mp member
    exact ⟨key, s, found, valueless⟩
  intro key s found valueless
  have unresolved : key ∈ a.state.symbols.unresolvedKeys :=
    SymbolTable.mem_unresolvedKeys.mpr ⟨s, found, valueless⟩
  have clean {l : Line} := Assembly.line_clean files calls unresolved (l := l)
  obtain ⟨l, member, names⟩ := Assembly.line_named files calls (Option.isSome_iff_exists.mpr ⟨s, found⟩)
  by_cases reported : ∃ l ∈ a.lines, (l.Declares key ∨ l.Uses a.state.symbols key) ∧ l.faults ≠ []
  · obtain ⟨l, member, names, faults⟩ := reported
    obtain ⟨f, fault⟩ := List.exists_mem_of_ne_nil _ faults
    have diagnostic : f.diagnostic l.location ∈ l.diagnostics := List.mem_map_of_mem fault
    exact .inl ⟨l, member, names, _, diagnostic, List.mem_flatMap_of_mem member diagnostic, rfl⟩
  · -- No line that names the symbol has a fault, so none of them uses it.
    have silent {l : Line} (member : l ∈ a.lines)
        (names : l.Declares key ∨ l.Uses a.state.symbols key) : l.faults = [] := by
      by_contra faults
      exact reported ⟨l, member, names, faults⟩
    refine .inr ⟨⟨l, member, names.resolve_right (clean member (silent member names)).1⟩, ?_⟩
    intro l member
    refine ⟨fun uses => (clean member (silent member (.inr uses))).1 uses, fun declares => ?_⟩
    have faults := silent member (.inl declares)
    exact ⟨by rw [Line.diagnostics, faults]; rfl, (clean member faults).2 declares⟩

/-- A label before the first address, and a jump to a label that is nowhere declared. -/
def nowhereSources : List (Bytes × Bytes) := [(ascii "t.asm", ascii "L:\nORG 0\nJMP NOWHERE\n")]

theorem abort_explained_nowhereSources :
    let a := Assembly.run (sourceFiles nowhereSources) (afterRuns (sourceFiles nowhereSources) 0)
    a.fault none = some (.unresolved 3 2) ∧
      (∃ key s, a.state.symbols.get? key = some s ∧ s.value = none) ∧
      (a.Reports (ascii "NOWHERE@t.asm") ∨ a.Unplaced (ascii "NOWHERE@t.asm")) ∧
      (a.Reports (ascii "L@t.asm") ∨ a.Unplaced (ascii "L@t.asm")) := by
  intro a
  have aborted : a.fault none = some (.unresolved 3 2) := by decide +kernel
  have jump : a.state.symbols.get? (ascii "NOWHERE@t.asm") =
      some ⟨⟨.static, ascii "NOWHERE", []⟩, ascii "t.asm", 0, none, [⟨ascii "t.asm", 3⟩]⟩ := by
    decide +kernel
  have label : a.state.symbols.get? (ascii "L@t.asm") =
      some ⟨⟨.static, ascii "L", []⟩, ascii "t.asm", 1, none, []⟩ := by
    decide +kernel
  obtain ⟨unresolved, each⟩ := abort_explained (sourceFiles nowhereSources) 0 none 3 2 aborted
  exact ⟨aborted, unresolved, each _ _ jump rfl, each _ _ label rfl⟩

def bareLabelSources : List (Bytes × Bytes) := [(ascii "t.asm", ascii "L:\n")]

/-- An assembly that gives up on a symbol and reports nothing. -/
theorem abort_unreported :
    let a := Assembly.ofFiles (sourceFiles bareLabelSources)
    a.fault none = some (.unresolved 3 1) ∧ a.diagnostics = [] ∧
      ∃ key s, a.state.symbols.get? key = some s ∧ s.value = none ∧ ¬ a.Reports key := by
  intro a
  have run : a.fault none = some (.unresolved 3 1) ∧ a.diagnostics = [] ∧
      a.state.symbols.get? (ascii "L@t.asm") =
        some ⟨⟨.static, ascii "L", []⟩, ascii "t.asm", 1, none, []⟩ := by decide +kernel
  obtain ⟨aborted, silent, found⟩ := run
  refine ⟨aborted, silent, _, _, found, rfl, ?_⟩
  rintro ⟨l, -, -, x, -, reported, -⟩
  rw [silent] at reported
  exact absurd reported List.not_mem_nil

end Assembler8080
