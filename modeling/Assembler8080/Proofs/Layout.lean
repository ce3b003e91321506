import Assembler8080.Proofs.Passes
import Assembler8080.Proofs.Reading
import Assembler8080.Proofs.Step

/-! Programs in which neither ORG nor DS uses a label. The address of a line is then the same in
every pass, so a label that has a value is explained by the one line that declares it: that line
would give it the same value again (`Explained`). Since the value of an expression stays when more
labels have values, no later line changes it. -/
namespace Assembler8080

/-! ### Addresses -/

theorem Expr.word_congr {env env' : Environment} {e : Expr} (address : env.address = env'.address)
    (free : e.references = []) : e.word env = e.word env' := by
  have same := eval_congr e address fun r member => by simp [free] at member
  unfold word
  rw [same]

namespace Statement

/-- Neither an ORG nor a DS in the line uses a label. -/
def LayoutFree (s : Statement) : Prop :=
  ∀ c ∈ s.command, c.instruction.operation = .directive .org ∨
    c.instruction.operation = .directive .ds → c.references = []

instance : DecidablePred LayoutFree := fun s =>
  inferInstanceAs (Decidable (∀ c ∈ s.command, c.instruction.operation = .directive .org ∨
    c.instruction.operation = .directive .ds → c.references = []))

/-- The label of a line gets the word of the expression in it or the address of the line. -/
theorem Proper.labelWord_eq {s : Statement} (proper : s.Proper) :
    (∃ e : Expr, s.references = e.references ∧ ∀ env, s.labelWord env = e.word env) ∨
      ∀ env, s.labelWord env = env.address := by
  cases command : s.command with
  | none => exact .inr fun env => by simp [labelWord, command, Command.labelValue]
  | some c =>
    by_cases directive : c.instruction.operation = .directive .org ∨
        c.instruction.operation = .directive .equ
    · obtain ⟨column, e, operands⟩ := proper.word command directive
      refine .inl ⟨e, ?_, fun env => ?_⟩
      · simp [Statement.references, command, Command.references, operands, OperandForm.references,
          DataForm.references]
      · unfold labelWord Statement.operands Command.operands
        simp only [command, operands, Option.map_some]
        rcases directive with org | equ
        · rw [org]
          rfl
        · rw [equ]
          rfl
    · refine .inr fun env => ?_
      unfold labelWord Command.labelValue
      simp only [command, Option.map_some]
      split
      next org => exact absurd (.inl (Option.some.inj org)) directive
      next equ => exact absurd (.inr (Option.some.inj equ)) directive
      next => rfl

/-- Where the layout is free of labels, the address after a line follows from the one before it. -/
theorem Proper.address_congr {s : Statement} (proper : s.Proper) (free : s.LayoutFree)
    (final final' : Bool) {state state' : State} (same : state.code.address = state'.code.address) :
    (s.assemble final state).2.code.address = (s.assemble final' state').2.code.address := by
  rw [address_assemble, address_assemble]
  cases command : s.command with
  | none => exact same
  | some c =>
    have address : state.environment.address = state'.environment.address := same
    have alike := forall₂_alike
      (OperandSource.operand_alike state.environment state'.environment) c.sources.operands
    have size := Command.encoding_length c.instruction.operation alike
    have free := free c command
    dsimp only
    cases operation : c.instruction.operation with
    | machine opcode =>
      rw [operation] at size
      simp only [Command.addressAfter, Command.operands, same, size]
    | directive d =>
      rw [operation] at size
      cases d with
      | org =>
        obtain ⟨column, e, operands⟩ := proper.word command (.inl operation)
        have word : e.word state.environment = e.word state'.environment :=
          Expr.word_congr address (by
            simpa [Command.references, operands, OperandForm.references, DataForm.references]
              using free (.inl operation))
        simp only [Command.addressAfter, Command.operands, operands, same]
        exact congrArg (Option.or · _) word
      | ds =>
        obtain ⟨column, e, operands⟩ := proper.size command operation
        have word : e.word state.environment = e.word state'.environment :=
          Expr.word_congr address (by
            simpa [Command.references, operands, OperandForm.references]
              using free (.inr operation))
        simp only [Command.addressAfter, Command.operands, operands, same]
        exact congrArg (fun w : Value => state'.code.address.map (· + w.getD 0)) word
      | equ => exact same
      | finish => exact same
      | db | dw => simp only [Command.addressAfter, Command.operands, same, size]

end Statement

def addressAt (statements : List Statement) (i : Nat) : Value :=
  (passAt false statements .empty i).code.address

section Addresses

variable {statements : List Statement}

/-- A line of a program whose layout is free of labels has one address in all passes. -/
theorem address_passAt (proper : ∀ s ∈ statements, s.Proper) (free : ∀ s ∈ statements, s.LayoutFree)
    (final : Bool) (state : State) {i : Nat} (bound : i ≤ statements.length) :
    (passAt final statements state i).code.address = addressAt statements i := by
  refine passAt_invariant (fun i before => before.code.address = addressAt statements i)
    ?_ ?_ bound
  · rfl
  · intro i s before line same
    have member := List.mem_of_getElem? line
    unfold addressAt
    rw [passAt_succ line]
    exact (proper s member).address_congr (free s member) final false same

end Addresses

def Line.extent (l : Line) : Value × Nat := (l.start, l.bytes.length)

theorem Statement.extent_assemble (s : Statement) (final final' : Bool) {state state' : State}
    (same : state.code.address = state'.code.address) :
    (s.assemble final state).1.extent = (s.assemble final' state').1.extent := by
  unfold Line.extent
  rw [start_assemble, start_assemble, same,
    s.bytes_length_assemble final final' (congrArg Option.isNone same)]

theorem extents_pass {statements : List Statement} (proper : ∀ s ∈ statements, s.Proper)
    (free : ∀ s ∈ statements, s.LayoutFree) (final final' : Bool) (state state' : State) :
    (pass final statements state).1.map Line.extent =
      (pass final' statements state').1.map Line.extent := by
  rw [pass_lines, pass_lines]
  refine List.ext_getElem? fun i => ?_
  rw [List.getElem?_map, List.getElem?_map, List.getElem?_mapIdx, List.getElem?_mapIdx]
  cases line : statements[i]? with
  | none => simp only [Option.map_none]
  | some s =>
    have bound := (List.getElem?_eq_some_iff.mp line).1.le
    have same : (passAt final statements state i).code.address =
        (passAt final' statements state' i).code.address :=
      (address_passAt proper free final state bound).trans
        (address_passAt proper free final' state' bound).symm
    rw [Option.map_some, Option.map_some, Option.map_some, Option.map_some,
      s.extent_assemble final final' same]

/-! ### Values that stay -/

/-- Later tables have all values and all global names of earlier ones. -/
structure SymbolTable.Keeps (t u : SymbolTable) : Prop where
  values : ∀ {key w}, t.valueOf key = some w → u.valueOf key = some w
  globals : ∀ {text key : Bytes}, t.globals[text]? = some key → u.globals[text]? = some key

namespace SymbolTable

theorem Keeps.refl (t : SymbolTable) : Keeps t t := ⟨id, id⟩

theorem Keeps.trans {t u v : SymbolTable} (first : Keeps t u) (second : Keeps u v) : Keeps t v :=
  ⟨fun value => second.values (first.values value),
    fun declared => second.globals (first.globals declared)⟩

theorem Extends.keeps {t u : SymbolTable} (ext : Extends t u) : Keeps t u :=
  ⟨fun value => (ext.valueOf _).trans value, fun declared => (ext.globals _).trans declared⟩

section Accepted

variable {t u : SymbolTable} {d : Declaration} (accepted : Declared t d ⟨u, some d.key, none⟩)
  (unresolved : d.kind = .global → t.valueOf (pendingKey d.toLabel) = none)

include accepted unresolved

/-- An accepted declaration keeps all values, if the label has none while it waits for its file. -/
theorem Declared.keeps : Keeps t u := by
  cases accepted with
  | found hit line entries globals =>
    refine ⟨fun {key w} value => ?_, fun declared => by rw [globals, declared]⟩
    unfold valueOf at value ⊢
    rw [entries]
    split
    next same => simpa [← same, hit] using value
    next => exact value
  | promoted miss global file undeclared waiting =>
    have pending := unresolved global
    refine ⟨fun {key w} value => ?_, fun {text key} declared => ?_⟩
    · unfold valueOf at value pending ⊢
      rw [get?_promote, if_neg, if_neg]
      · exact value
      · rintro rfl
        rw [pending] at value
        contradiction
      · rintro rfl
        simp [miss] at value
    · rw [globals_promote, if_neg]
      · exact declared
      · rintro rfl
        rw [undeclared] at declared
        contradiction
  | entered miss undeclared alone =>
    refine ⟨fun {key w} value => ?_, fun {text key} declared => ?_⟩
    · unfold valueOf at value ⊢
      rw [get?_enter, if_neg]
      · exact value
      · rintro rfl
        simp [miss] at value
    · rw [globals_enter, if_neg]
      · exact declared
      · rintro ⟨⟨global, -⟩, rfl⟩
        rw [undeclared global] at declared
        contradiction

/-- A resolved symbol was resolved before, and on its line unless it had none. -/
theorem Declared.resolved {key : Bytes} {s : Symbol} {w : UInt16} (present : u.get? key = some s)
    (value : s.value = some w) :
    ∃ s', t.get? key = some s' ∧ (s'.line = 0 ∨ s'.line = s.line) ∧ s'.value = some w := by
  cases accepted with
  | @found _ s' hit line entries globals =>
    rw [entries] at present
    split at present
    next same =>
      obtain rfl := Option.some.inj present
      exact ⟨s', same ▸ hit, line, value⟩
    next => exact ⟨s, present, .inr rfl, value⟩
  | @promoted s' miss global file undeclared waiting =>
    rw [get?_promote] at present
    split at present
    next =>
      obtain rfl := Option.some.inj present
      have pending := unresolved global
      rw [valueOf, waiting, Option.bind_some, show s'.value = some w from value] at pending
      contradiction
    next =>
      split at present
      next => contradiction
      next => exact ⟨s, present, .inr rfl, value⟩
  | entered miss undeclared alone =>
    rw [get?_enter] at present
    split at present
    next =>
      obtain rfl := Option.some.inj present
      contradiction
    next => exact ⟨s, present, .inr rfl, value⟩

end Accepted

end SymbolTable

/-- Statements as a program has them whose files can declare global labels. -/
structure Concrete (statements : List Statement) : Prop extends Orderly statements where
  files : ∀ s ∈ statements, isConcrete s.location.file = true

theorem Orderly.concrete {files : List SourceFile} (orderly : Orderly (program files))
    (named : ∀ f ∈ files, isConcrete f.name = true) : Concrete (program files) where
  toOrderly := orderly
  files s member := by
    obtain ⟨f, file, l, -, location⟩ := program_location member
    rw [location]
    exact named f file

theorem program_concrete {files : List SourceFile} (distinct : (files.map (·.name)).Nodup)
    (named : ∀ f ∈ files, isConcrete f.name = true) (numbered : ∀ f ∈ files, f.Numbered) :
    Concrete (program files) := by
  have own : files.map (fun f => keyFile f.name) = files.map (·.name) :=
    List.map_congr_left fun f file => (SymbolTable.keyFile_of_concrete (named f file)).1
  exact (program_orderly (own ▸ distinct) numbered).concrete named

theorem sourceFiles_concrete {sources : List (Bytes × Bytes)}
    (distinct : (sources.map Prod.fst).Nodup) (named : ∀ s ∈ sources, isConcrete s.1 = true) :
    Concrete (program (sourceFiles sources)) :=
  program_concrete (names_sourceFiles sources ▸ distinct) (sourceFiles_named named)
    (sourceFiles_numbered sources)

/-- The value of each symbol is the one that its declaring line gives, at the address of the line
and with the symbols as they are now. -/
structure Explained (statements : List Statement) (t : SymbolTable) : Prop where
  consistent : t.Consistent
  owner : ∀ {key s w}, t.get? key = some s → s.value = some w →
    ∃ (i : Nat) (line : Statement) (d : Declaration), statements[i]? = some line ∧
      line.label = some d ∧ d.key = key ∧ d.line = s.line ∧
      line.labelWord ⟨addressAt statements i, t.denoted⟩ = some w

section Values

variable {statements : List Statement} {t u : SymbolTable}

theorem Orderly.index_of_place (orderly : Orderly statements) {i j : Nat} {s s' : Statement}
    (at_i : statements[i]? = some s) (at_j : statements[j]? = some s')
    (place : s.place = s'.place) : i = j := by
  have bound : i < (statements.map Statement.place).length := by
    rw [List.length_map]
    exact (List.getElem?_eq_some_iff.mp at_i).1
  refine (List.getElem?_inj bound orderly.places).mp ?_
  rw [List.getElem?_map, List.getElem?_map, at_i, at_j, Option.map_some, Option.map_some, place]

theorem Orderly.index_eq (orderly : Orderly statements) {i j : Nat} {s s' : Statement}
    {d d' : Declaration} (at_i : statements[i]? = some s) (at_j : statements[j]? = some s')
    (label : s.label = some d) (label' : s'.label = some d') (key : d.key = d'.key)
    (line : d.line = d'.line) : i = j := by
  obtain ⟨proper, file, number⟩ := (orderly.proper s (List.mem_of_getElem? at_i)).label label
  obtain ⟨proper', file', number'⟩ := (orderly.proper s' (List.mem_of_getElem? at_j)).label label'
  obtain ⟨-, files⟩ := Label.key_inj proper proper' key
  apply orderly.index_of_place at_i at_j
  unfold Statement.place
  rw [← file, ← file', ← number, ← number', files, line]

/-- No label is resolved while it waits for its file. -/
theorem Explained.pending (explained : Explained statements t) (concrete : Concrete statements)
    {l : Label} (proper : l.Proper) (global : l.kind = .global) :
    t.valueOf (SymbolTable.pendingKey l) = none := by
  cases value : t.valueOf (SymbolTable.pendingKey l) with
  | none => rfl
  | some w =>
    obtain ⟨s, found, resolved⟩ := Option.bind_eq_some_iff.mp value
    obtain ⟨i, line, d, at_i, label, key, -⟩ := explained.owner found resolved
    have member := List.mem_of_getElem? at_i
    obtain ⟨properLabel, file, -⟩ := (concrete.proper line member).label label
    have declares := concrete.files line member
    rw [← file] at declares
    exact absurd key (SymbolTable.key_ne_pendingKey properLabel proper global declares)

theorem Explained.denoted_mono (explained : Explained statements t) (concrete : Concrete statements)
    (valid : u.Consistent) (keeps : t.Keeps u) {r : Reference} (proper : r.toLabel.Proper)
    {w : UInt16} (value : (t.denoted r).value = some w) : (u.denoted r).value = some w := by
  rw [explained.consistent.denoted_value] at value
  rw [valid.denoted_value]
  have key : t.referenceKey r = u.referenceKey r := by
    unfold SymbolTable.referenceKey at value ⊢
    split
    next global =>
      rw [if_pos global] at value
      cases declared : t.globals[r.text]? with
      | some key => rw [keeps.globals declared]
      | none =>
        rw [declared, Option.getD_none, Reference.key, if_pos global,
          ← SymbolTable.pendingKey_of_global global, explained.pending concrete proper global] at value
        contradiction
    next => rfl
  rw [← key]
  exact keeps.values value

theorem Explained.labelWord_mono (explained : Explained statements t) (concrete : Concrete statements)
    (valid : u.Consistent) (keeps : t.Keeps u) {s : Statement} (proper : s.Proper) {address : Value}
    {w : UInt16} (word : s.labelWord ⟨address, t.denoted⟩ = some w) :
    s.labelWord ⟨address, u.denoted⟩ = some w := by
  rcases proper.labelWord_eq with ⟨e, references, same⟩ | same
  · rw [same] at word ⊢
    refine Expr.word_mono ?_ (fun r member v value => ?_) word
    · rfl
    · rw [← references] at member
      exact explained.denoted_mono concrete valid keeps (proper.references r member) value
  · rw [same] at word ⊢
    exact word

/-- A consistent table stays explained when each of its resolved symbols has its line and value
from before. -/
theorem Explained.extend (explained : Explained statements t) (concrete : Concrete statements)
    (valid : u.Consistent) (keeps : t.Keeps u)
    (old : ∀ {key s w}, u.get? key = some s → s.value = some w →
      ∃ s', t.get? key = some s' ∧ s'.line = s.line ∧ s'.value = some w) :
    Explained statements u where
  consistent := valid
  owner := by
    intro key s w found value
    obtain ⟨s', found', line, value'⟩ := old found value
    obtain ⟨i, owner, d, at_i, label, own, number, word⟩ := explained.owner found' value'
    have proper := concrete.proper owner (List.mem_of_getElem? at_i)
    exact ⟨i, owner, d, at_i, label, own, number.trans line,
      explained.labelWord_mono concrete valid keeps proper word⟩

/-- An accepted declaration keeps all values, and their explanations. -/
theorem Explained.declared (explained : Explained statements t) (concrete : Concrete statements)
    {d : Declaration} (proper : d.toLabel.Proper)
    (accepted : SymbolTable.Declared t d ⟨u, some d.key, none⟩) :
    t.Keeps u ∧ Explained statements u := by
  have keeps := accepted.keeps (explained.pending concrete proper)
  have valid := accepted.consistent explained.consistent proper
  refine ⟨keeps, explained.extend concrete valid keeps ?_⟩
  intro key s w found value
  obtain ⟨s', before, line, value'⟩ := accepted.resolved (explained.pending concrete proper) found value
  refine ⟨s', before, line.resolve_left ?_, value'⟩
  -- A resolved symbol has the line of its declaration, which is not zero.
  obtain ⟨i, owner, d', at_i, label, -, number, -⟩ := explained.owner before value'
  have nonzero := concrete.nonzero owner (List.mem_of_getElem? at_i)
  have place := ((concrete.proper owner (List.mem_of_getElem? at_i)).label label).2.2
  omega

/-- The value that a line gives its label is the one that the label has, if it has one. -/
theorem Explained.assign (explained : Explained statements t) (concrete : Concrete statements)
    {i : Nat} {line : Statement} {d : Declaration} (at_i : statements[i]? = some line)
    (label : line.label = some d) {s : Symbol} (present : t.get? d.key = some s)
    (number : s.line = d.line) {w : UInt16}
    (word : line.labelWord ⟨addressAt statements i, t.denoted⟩ = some w) :
    t.Keeps (t.assign d.key (some w)) ∧ Explained statements (t.assign d.key (some w)) := by
  have agrees : ∀ w', s.value = some w' → w' = w := by
    intro w' value
    obtain ⟨j, owner, d', at_j, label', key, line', word'⟩ := explained.owner present value
    obtain rfl := concrete.index_eq at_j at_i label' label key (line'.trans number)
    obtain rfl := Option.some.inj (at_j.symm.trans at_i)
    exact Option.some.inj (word'.symm.trans word)
  have keeps : t.Keeps (t.assign d.key (some w)) := by
    refine ⟨fun {key w'} value => ?_, id⟩
    unfold SymbolTable.valueOf at value ⊢
    rw [SymbolTable.get?_assign]
    split
    next same =>
      rw [← same, present, Option.bind_some] at value
      rw [present, agrees w' value]
      rfl
    next => exact value
  have valid := (SymbolTable.assign_sameLabels t d.key (some w)).consistent explained.consistent
  refine ⟨keeps, valid, ?_⟩
  intro key s' w' found value
  rw [SymbolTable.get?_assign] at found
  split at found
  next same =>
    rw [present] at found
    obtain rfl := Option.some.inj found
    obtain rfl := Option.some.inj value
    exact ⟨i, line, d, at_i, label, same, number.symm,
      explained.labelWord_mono concrete valid keeps
        (concrete.proper line (List.mem_of_getElem? at_i)) word⟩
  next =>
    obtain ⟨j, owner, d', at_j, label', key', line', word'⟩ := explained.owner found value
    exact ⟨j, owner, d', at_j, label', key', line',
      explained.labelWord_mono concrete valid keeps
        (concrete.proper owner (List.mem_of_getElem? at_j)) word'⟩

/-- A symbol without a value may be left without one. -/
theorem Explained.assign_none (explained : Explained statements t) (concrete : Concrete statements)
    {key : Bytes} {s : Symbol} (present : t.get? key = some s) (blank : s.value = none) :
    t.Keeps (t.assign key none) ∧ Explained statements (t.assign key none) := by
  have keeps : t.Keeps (t.assign key none) := by
    refine ⟨fun {other w} value => ?_, id⟩
    unfold SymbolTable.valueOf at value ⊢
    rw [SymbolTable.get?_assign, if_neg]
    · exact value
    · rintro rfl
      simp [present, blank] at value
  have valid := (SymbolTable.assign_sameLabels t key none).consistent explained.consistent
  refine ⟨keeps, explained.extend concrete valid keeps ?_⟩
  intro other s' w found value
  rw [SymbolTable.get?_assign] at found
  split at found
  next =>
    rw [present] at found
    obtain rfl := Option.some.inj found
    contradiction
  next => exact ⟨s', found, rfl, value⟩

theorem Explained.define (explained : Explained statements t) (concrete : Concrete statements)
    {i : Nat} {line : Statement} {d : Declaration} (at_i : statements[i]? = some line)
    (label : line.label = some d) {v : Value}
    (word : ∀ w, v = some w → line.labelWord ⟨addressAt statements i, t.denoted⟩ = some w) :
    t.Keeps (t.define d v).1 ∧ Explained statements (t.define d v).1 := by
  have properLine := concrete.proper line (List.mem_of_getElem? at_i)
  have proper := (properLine.label label).1
  have defined := explained.consistent.defined proper v
  generalize t.define d v = outcome at defined
  cases defined with
  | refused => exact ⟨.refl t, explained⟩
  | kept accepted => exact explained.declared concrete proper accepted
  | @assigned u s accepted present number free =>
    obtain ⟨keeps, next⟩ := explained.declared concrete proper accepted
    cases v with
    | none =>
      have blank : s.value = none := by
        cases value : s.value with
        | none => rfl
        | some w => exact absurd rfl (free w value)
      obtain ⟨more, last⟩ := next.assign_none concrete present blank
      exact ⟨keeps.trans more, last⟩
    | some w =>
      have later := explained.labelWord_mono concrete next.consistent keeps properLine (word w rfl)
      obtain ⟨more, last⟩ := next.assign concrete at_i label present number later
      exact ⟨keeps.trans more, last⟩

/-- What a line does: symbols are used, and then its label is defined. -/
theorem Explained.assemble (concrete : Concrete statements) (final : Bool) {i : Nat}
    {line : Statement} (at_i : statements[i]? = some line) {state : State}
    (address : state.code.address = addressAt statements i)
    (explained : Explained statements state.symbols) :
    state.symbols.Keeps (line.assemble final state).2.symbols ∧
      Explained statements (line.assemble final state).2.symbols := by
  have proper := concrete.proper line (List.mem_of_getElem? at_i)
  obtain ⟨valid, ext⟩ := explained.consistent.uses final line.location proper.references
  have used : Explained statements (line.used final state.symbols) := by
    refine explained.extend concrete valid ext.keeps fun found value => ?_
    rcases ext.old found with ⟨s', found', number, value'⟩ | ⟨-, blank⟩
    · exact ⟨s', found', number, value'.trans value⟩
    · rw [blank] at value
      contradiction
  rw [Statement.symbols_assemble]
  unfold Statement.defineLabel
  cases label : line.label with
  | none => exact ⟨ext.keeps, used⟩
  | some d =>
    obtain ⟨keeps, next⟩ := used.define concrete at_i label fun w word => by
      have here : line.labelWord ⟨addressAt statements i, state.symbols.denoted⟩ = some w := by
        rw [← address]
        exact word
      exact explained.labelWord_mono concrete valid ext.keeps proper here
    exact ⟨ext.keeps.trans keeps, next⟩

end Values

/-! ### Runs -/

section Runs

variable {statements : List Statement}

theorem empty_explained : Explained statements .empty where
  consistent := SymbolTable.empty_consistent
  owner := by
    intro key s w found
    simp [SymbolTable.empty, SymbolTable.get?] at found

theorem Explained.clearReferences (concrete : Concrete statements) {t : SymbolTable}
    (explained : Explained statements t) :
    t.Keeps t.clearReferences ∧ Explained statements t.clearReferences := by
  have keeps := (SymbolTable.clearReferences_extends t).keeps
  refine ⟨keeps, explained.extend concrete
    ((SymbolTable.clearReferences_sameLabels t).consistent explained.consistent) keeps ?_⟩
  intro key s w found value
  rcases (SymbolTable.clearReferences_extends t).old found with ⟨s', found', line, value'⟩ | ⟨-, blank⟩
  · exact ⟨s', found', line, value'.trans value⟩
  · rw [blank] at value
    contradiction

variable (concrete : Concrete statements) (free : ∀ s ∈ statements, s.LayoutFree) {final : Bool}
  {state : State} (explained : Explained statements state.symbols)

include concrete free explained

theorem passAt_explained {i : Nat} (bound : i ≤ statements.length) :
    Explained statements (passAt final statements state i).symbols := by
  refine (passAt_invariant (fun i before => before.code.address = addressAt statements i ∧
    Explained statements before.symbols) ?_ ?_ bound).2
  · exact ⟨rfl, explained⟩
  · intro i s before line ⟨address, kept⟩
    have member := List.mem_of_getElem? line
    refine ⟨?_, (kept.assemble concrete final line address).2⟩
    unfold addressAt
    rw [passAt_succ line]
    exact (concrete.proper s member).address_congr (free s member) final false address

theorem passAt_keeps {i j : Nat} (order : i ≤ j) (bound : j ≤ statements.length) :
    (passAt final statements state i).symbols.Keeps (passAt final statements state j).symbols := by
  induction j, order using Nat.le_induction with
  | base => exact .refl _
  | succ j order ih =>
    have line : statements[j]? = some statements[j] := List.getElem?_eq_getElem (by omega)
    refine (ih (by omega)).trans ?_
    rw [passAt_succ line]
    exact ((passAt_explained concrete free explained (by omega)).assemble concrete final line
      (address_passAt concrete.proper free final state (by omega))).1

end Runs

/-! ### Assemblies -/

/-- All states of an assembly in order: before each line of each pass, and after the pass. -/
def moments (files : List SourceFile) : List State :=
  (passStarts files).flatMap fun p =>
    (List.range ((program files).length + 1)).map (passAt p.1 (program files) p.2)

section Assemblies

variable {files : List SourceFile} (concrete : Concrete (program files))
  (free : ∀ s ∈ program files, s.LayoutFree)

include concrete free

theorem afterPasses_explained (n : Nat) :
    Explained (program files) (afterPasses (program files) .empty n).symbols :=
  afterPasses_invariant (fun state => Explained (program files) state.symbols) empty_explained
    (fun explained => passAt_explained concrete free explained le_rfl) n

theorem afterPasses_keeps {m n : Nat} (order : m ≤ n) :
    (afterPasses (program files) .empty m).symbols.Keeps
      (afterPasses (program files) .empty n).symbols := by
  induction n, order using Nat.le_induction with
  | base => exact .refl _
  | succ n order ih =>
    rw [afterPasses_succ]
    exact ih.trans
      (passAt_keeps concrete free (afterPasses_explained concrete free n) (Nat.zero_le _) le_rfl)

theorem passStarts_explained : ∀ p ∈ passStarts files, Explained (program files) p.2.symbols := by
  intro p member
  rcases List.mem_append.mp member with earlier | last
  · obtain ⟨n, -, rfl⟩ := List.mem_map.mp earlier
    exact afterPasses_explained concrete free n
  · obtain rfl := List.mem_singleton.mp last
    rw [finalStart_eq]
    exact ((afterPasses_explained concrete free _).clearReferences concrete).2

/-- A pass starts with what every earlier one ends with. -/
theorem passStarts_keeps : (passStarts files).Pairwise fun p q =>
    (passAt p.1 (program files) p.2 (program files).length).symbols.Keeps q.2.symbols := by
  unfold passStarts
  rw [List.pairwise_append]
  refine ⟨?_, List.pairwise_singleton _ _, ?_⟩
  · refine List.pairwise_map.mpr (List.pairwise_lt_range.imp fun {m n} less => ?_)
    rw [← afterPasses_succ]
    exact afterPasses_keeps concrete free less
  · intro p earlier q last
    obtain ⟨n, inside, rfl⟩ := List.mem_map.mp earlier
    obtain rfl := List.mem_singleton.mp last
    rw [← afterPasses_succ, finalStart_eq]
    exact (afterPasses_keeps concrete free (List.mem_range.mp inside)).trans
      ((afterPasses_explained concrete free _).clearReferences concrete).1

theorem moments_keep : (moments files).Pairwise fun before after =>
    before.symbols.Keeps after.symbols := by
  unfold moments
  rw [List.pairwise_flatMap]
  have explained := passStarts_explained concrete free
  have within : ∀ p ∈ passStarts files, ∀ {i j : Nat}, i ≤ j → j < (program files).length + 1 →
      (passAt p.1 (program files) p.2 i).symbols.Keeps
        (passAt p.1 (program files) p.2 j).symbols := fun p member i j order bound =>
    passAt_keeps concrete free (explained p member) order (Nat.le_of_lt_succ bound)
  constructor
  · intro p member
    refine List.pairwise_map.mpr (List.pairwise_lt_range.imp_of_mem ?_)
    intro i j _ inside less
    exact within p member less.le (List.mem_range.mp inside)
  · refine (passStarts_keeps concrete free).imp_of_mem ?_
    intro p q first second keeps before inFirst after inSecond
    obtain ⟨i, inside, rfl⟩ := List.mem_map.mp inFirst
    obtain ⟨j, inside', rfl⟩ := List.mem_map.mp inSecond
    have end_p := within p first (Nat.le_of_lt_succ (List.mem_range.mp inside)) (Nat.lt_succ_self _)
    have start_q := within q second (Nat.zero_le j) (List.mem_range.mp inside')
    exact (end_p.trans keeps).trans start_q

end Assemblies

/-- Where neither ORG nor DS uses a label, every line has its place and its size from the first
pass on. A symbol that has a value keeps it if each line has a number of its own that is not zero,
as in every file that is read from a text. -/
theorem layout_stable (files : List SourceFile) (distinct : (files.map (·.name)).Nodup)
    (named : ∀ f ∈ files, isConcrete f.name = true) (free : ∀ s ∈ program files, s.LayoutFree) :
    (∀ p ∈ passStarts files, ∀ q ∈ passStarts files,
      (pass p.1 (program files) p.2).1.map Line.extent =
        (pass q.1 (program files) q.2).1.map Line.extent) ∧
    ((∀ f ∈ files, f.Numbered) →
      (moments files).Pairwise fun before after => ∀ key w,
        before.symbols.valueOf key = some w → after.symbols.valueOf key = some w) ∧
    ∀ name text file, SourceFile.read name text = .ok file → file.Numbered := by
  refine ⟨?_, fun numbered => ?_, fun _ _ _ => SourceFile.read_numbered⟩
  · intro p _ q _
    exact extents_pass (program_proper files) free p.1 q.1 p.2 q.2
  · have concrete := program_concrete distinct named numbered
    refine (moments_keep concrete free).imp ?_
    intro before after keeps key w value
    exact keeps.values value

/-- A global label used in one file and declared in the next, and an EQU of a later one. -/
def forwardSources : List (Bytes × Bytes) :=
  [(ascii "a.asm", ascii "ORG 100H\nJMP $X\nDS 2+'0'\nN EQU M+1\nM EQU 5\nDW N, $\n"),
    (ascii "b.asm", ascii "$X: LXI H, $X\nEND\n")]

theorem layout_stable_forwardSources :
    let files := sourceFiles forwardSources
    ((files.map (·.name)).Nodup ∧ (∀ f ∈ files, isConcrete f.name = true) ∧
      (∀ s ∈ program files, s.LayoutFree) ∧ ∀ f ∈ files, f.Numbered) ∧
    (∀ p ∈ passStarts files, ∀ q ∈ passStarts files,
      (pass p.1 (program files) p.2).1.map Line.extent =
        (pass q.1 (program files) q.2).1.map Line.extent) ∧
    (moments files).Pairwise fun before after => ∀ key w,
      before.symbols.valueOf key = some w → after.symbols.valueOf key = some w := by
  intro files
  have distinct : (files.map (·.name)).Nodup := by decide +kernel
  have named : ∀ f ∈ files, isConcrete f.name = true := by decide +kernel
  have free : ∀ s ∈ program files, s.LayoutFree := by decide +kernel
  have numbered : ∀ f ∈ files, f.Numbered := sourceFiles_numbered forwardSources
  obtain ⟨extents, keeps, -⟩ := layout_stable files distinct named free
  exact ⟨⟨distinct, named, free, numbered⟩, extents, keeps numbered⟩

/-- Two lines of one number that declare one label. -/
def twinLines : SourceFile :=
  ⟨ascii "a.asm", [⟨1, ascii "ORG 0"⟩, ⟨2, ascii "L: NOP"⟩, ⟨2, ascii "L: NOP"⟩]⟩

/-- The second line is taken for the first, so the label has another value after each of them. -/
theorem twinLines_move :
    (([twinLines].map (·.name)).Nodup ∧ (∀ f ∈ [twinLines], isConcrete f.name = true) ∧
      (∀ s ∈ program [twinLines], s.LayoutFree) ∧
      (Assembly.ofFiles [twinLines]).diagnostics = []) ∧
    (moments [twinLines]).map (·.symbols.valueOf (ascii "L@a.asm")) =
      [none, none, some 0, some 1, some 1, some 1, some 0, some 1, some 1, some 1, some 0,
        some 1] ∧
    ¬ (moments [twinLines]).Pairwise fun before after => ∀ key w,
      before.symbols.valueOf key = some w → after.symbols.valueOf key = some w := by
  have values : (moments [twinLines]).map (·.symbols.valueOf (ascii "L@a.asm")) =
      [none, none, some 0, some 1, some 1, some 1, some 0, some 1, some 1, some 1, some 0,
        some 1] := by decide +kernel
  refine ⟨by decide +kernel, values, fun keeps => ?_⟩
  have same : ((moments [twinLines]).map (·.symbols.valueOf (ascii "L@a.asm"))).Pairwise
      fun v v' => ∀ w, v = some w → v' = some w :=
    List.pairwise_map.mpr (keeps.imp fun all => all _)
  rw [values] at same
  have second := List.pairwise_iff_getElem.mp same 2 3 (by decide) (by decide) (by decide) 0 rfl
  exact absurd second (by decide +kernel)

end Assembler8080
