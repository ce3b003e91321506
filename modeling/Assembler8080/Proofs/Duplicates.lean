import Assembler8080.Proofs.Progress

/-! Duplicate labels. Declarations of one key or of one global name are rivals, and of rivals the
first owns the symbol. That holds at every moment of every pass (`FirstCome`), also where a pass
finds symbols that its last lines declared in the pass before. A declaration is refused exactly when
it meets a symbol that another line owns, which is when a rival comes before it
(`Served.refused_iff`). -/
namespace Assembler8080

/-- Declarations of the same key, or of the same global name in any files. -/
def Declaration.Rivals (d d' : Declaration) : Prop :=
  d'.key = d.key ∨ d'.kind = .global ∧ d'.name = d.name

/-- Rivals that differ in their keys are both global and have the same text. -/
theorem Declaration.rivals_iff {d d' : Declaration} (proper : d.toLabel.Proper)
    (proper' : d'.toLabel.Proper) :
    d.Rivals d' ↔
      d'.key = d.key ∨ d.kind = .global ∧ d'.kind = .global ∧ d'.text = d.text := by
  refine or_congr_right ⟨?_, ?_⟩
  · rintro ⟨global', names⟩
    obtain ⟨kind, text, -⟩ := proper'.name_inj proper names
    exact ⟨kind.symm.trans global', global', text⟩
  · rintro ⟨global, global', text⟩
    exact ⟨global', by simp [Label.name, global, global', text]⟩

theorem Declaration.Rivals.symm {d d' : Declaration} (proper : d.toLabel.Proper)
    (proper' : d'.toLabel.Proper) (rivals : d.Rivals d') : d'.Rivals d := by
  rw [rivals_iff proper' proper]
  rcases (rivals_iff proper proper').mp rivals with key | ⟨global, global', text⟩
  · exact .inl key.symm
  · exact .inr ⟨global', global, text.symm⟩

def Repeats (statements : List Statement) (i : Nat) (d : Declaration) : Prop :=
  ∃ j < i, ∃ s d', statements[j]? = some s ∧ s.label = some d' ∧ d.Rivals d'

/-- The line of index `i` declares the label, and no line before it declares a rival. -/
structure Owner (statements : List Statement) (i : Nat) (d : Declaration) : Prop where
  declares : ∃ s, statements[i]? = some s ∧ s.label = some d
  first : ¬ Repeats statements i d

/-! ### The symbols that a declaration meets -/

namespace SymbolTable

variable {t u : SymbolTable} {d d' : Declaration} {key : Bytes} {s : Symbol}

/-- The index lists declared symbols only. -/
structure Lined (t : SymbolTable) : Prop where
  line : ∀ {text key : Bytes} {s : Symbol}, t.globals[text]? = some key → t.get? key = some s →
    s.line ≠ 0

/-- A declared symbol that the declaration meets: the one under its key, or the one of its global
name. -/
structure Met (t : SymbolTable) (d : Declaration) (key : Bytes) (s : Symbol) : Prop where
  found : t.get? key = some s
  line : s.line ≠ 0
  place : key = d.key ∨ d.kind = .global ∧ t.globals[d.text]? = some key

/-- A refused declaration meets a symbol that is declared in another place. -/
theorem Lined.met_of_refused (lined : t.Lined) (kind : d.kind ≠ .kindless)
    (refused : (t.declare d).fault ≠ none) :
    ∃ key s, t.Met d key s ∧ ¬ (key = d.key ∧ s.line = d.line) := by
  revert refused
  fun_cases declare t d with
  | case1 kindless => exact absurd kindless kind
  | case2 | case3 | case6 | case7 => exact fun refused => absurd rfl refused
  | case4 _ s hit declared other =>
    exact fun _ => ⟨d.key, s, ⟨hit, declared, .inl rfl⟩, fun own => other own.2⟩
  | case5 _ miss key s elsewhere =>
    intro _
    obtain ⟨global, listed, found⟩ := declaredElsewhere?_some elsewhere
    refine ⟨key, s, ⟨found, lined.line listed found, .inr ⟨global, listed⟩⟩, ?_⟩
    rintro ⟨rfl, -⟩
    exact ne_of_missing miss found rfl

namespace Met

theorem not_new (met : t.Met d key s) (miss : t.get? d.key = none)
    (undeclared : d.kind = .global → t.globals[d.text]? = none) : False := by
  rcases met.place with rfl | ⟨global, listed⟩
  · exact ne_of_missing miss met.found rfl
  · rw [undeclared global] at listed
    contradiction

/-- The symbol that an accepted declaration meets is its own. -/
theorem own (met : t.Met d key s) (valid : t.Consistent) (proper : d.toLabel.Proper)
    (accepted : Declared t d ⟨u, some d.key, none⟩) : key = d.key ∧ s.line = d.line := by
  cases accepted with
  | @found _ x hit line =>
    have same : key = d.key := by
      rcases met.place with same | ⟨global, listed⟩
      · exact same
      · obtain ⟨y, found, kind', text', -⟩ := valid.listed listed
        obtain ⟨properSymbol, self⟩ := valid.keyed hit
        obtain ⟨⟨kind, text, -⟩, -⟩ := Label.key_inj properSymbol proper self
        exact valid.single found hit kind' (kind.trans global) (text'.trans text.symm)
    subst same
    obtain rfl := Option.some.inj (hit.symm.trans met.found)
    exact ⟨rfl, line.resolve_left met.line⟩
  | promoted miss _ _ undeclared => exact (met.not_new miss fun _ => undeclared).elim
  | entered miss undeclared => exact (met.not_new miss undeclared).elim

/-- The declaration that gave the symbol its key is a rival. -/
theorem rivals (met : t.Met d key s) (valid : t.Consistent) (proper' : d'.toLabel.Proper)
    (owned : d'.key = key) : d.Rivals d' := by
  rcases met.place with rfl | ⟨global, listed⟩
  · exact .inl owned
  · obtain ⟨x, found, kind, text, -⟩ := valid.listed listed
    obtain ⟨properSymbol, self⟩ := valid.keyed found
    obtain ⟨⟨kind', text', -⟩, -⟩ := Label.key_inj proper' properSymbol (owned.trans self.symm)
    have global' : d'.kind = .global := kind'.trans kind
    refine .inr ⟨global', ?_⟩
    simp [Label.name, global, global', text'.trans text]

end Met

/-- After a rival in a concrete file a declaration meets a symbol. -/
theorem Consistent.met_of_rivals (valid : t.Consistent) (lined : t.Lined)
    (proper : d.toLabel.Proper) (proper' : d'.toLabel.Proper) (concrete : isConcrete d'.file = true)
    (positive : d'.line ≠ 0) (fixed : t.Fixed d') (rivals : d.Rivals d') :
    ∃ key s, t.Met d key s := by
  rcases fixed.known with entry | ⟨global', listed⟩
  · obtain ⟨s, found⟩ := Option.isSome_iff_exists.mp entry
    have line : s.line ≠ 0 := fun waits => positive (fixed.line found waits)
    refine ⟨d'.key, s, found, line, ?_⟩
    rcases (Declaration.rivals_iff proper proper').mp rivals with same | ⟨global, global', text⟩
    · exact .inl same
    · obtain ⟨properSymbol, self⟩ := valid.keyed found
      obtain ⟨⟨kind, text', -⟩, files⟩ := Label.key_inj properSymbol proper' self
      have file : s.file = d'.file := file_of_keyFile files concrete
      have listed := valid.indexed found (kind.trans global') (file ▸ concrete)
      rw [text', text] at listed
      exact .inr ⟨global, listed⟩
  · obtain ⟨key, declared⟩ := Option.isSome_iff_exists.mp listed
    obtain ⟨s, found, -⟩ := valid.listed declared
    refine ⟨key, s, found, lined.line declared found, .inr ?_⟩
    rcases (Declaration.rivals_iff proper proper').mp rivals with same | ⟨global, -, text⟩
    · obtain ⟨⟨kind, text, -⟩, -⟩ := Label.key_inj proper' proper same
      exact ⟨kind.symm.trans global', text ▸ declared⟩
    · exact ⟨global, text ▸ declared⟩

/-! ### What an accepted declaration leaves -/

theorem Declared.get?_cases (accepted : Declared t d ⟨u, some d.key, none⟩)
    (found : u.get? key = some s) :
    key = d.key ∧ s.line = d.line ∨ key ≠ d.key ∧ t.get? key = some s := by
  cases accepted with
  | found hit line entries globals =>
    by_cases same : d.key = key
    · rw [entries, if_pos same] at found
      obtain rfl := Option.some.inj found
      exact .inl ⟨same.symm, rfl⟩
    · rw [entries, if_neg same] at found
      exact .inr ⟨Ne.symm same, found⟩
  | promoted miss global concrete undeclared waiting =>
    rw [get?_promote] at found
    by_cases same : d.key = key
    · rw [if_pos same] at found
      obtain rfl := Option.some.inj found
      exact .inl ⟨same.symm, rfl⟩
    · rw [if_neg same] at found
      split at found
      next => contradiction
      next => exact .inr ⟨Ne.symm same, found⟩
  | entered miss undeclared alone =>
    by_cases same : d.key = key
    · rw [get?_enter, if_pos same] at found
      obtain rfl := Option.some.inj found
      exact .inl ⟨same.symm, rfl⟩
    · rw [get?_enter, if_neg same] at found
      exact .inr ⟨Ne.symm same, found⟩

theorem Declared.globals_cases (accepted : Declared t d ⟨u, some d.key, none⟩) {text : Bytes}
    (listed : u.globals[text]? = some key) : key = d.key ∨ t.globals[text]? = some key := by
  cases accepted with
  | found hit line entries globals => exact .inr (globals ▸ listed)
  | promoted miss global concrete undeclared waiting =>
    rw [globals_promote] at listed
    split at listed
    next => exact .inl (Option.some.inj listed).symm
    next => exact .inr listed
  | entered miss undeclared alone =>
    rw [globals_enter] at listed
    split at listed
    next => exact .inl (Option.some.inj listed).symm
    next => exact .inr listed

end SymbolTable

/-! ### First come, first served -/

/-- Every declared symbol is owned by a line. -/
structure FirstCome (statements : List Statement) (t : SymbolTable) : Prop where
  owner : ∀ {key s}, t.get? key = some s → s.line ≠ 0 →
    ∃ i d, Owner statements i d ∧ d.key = key ∧ d.line = s.line
  lined : t.Lined

section FirstCome

variable {statements : List Statement} {t u : SymbolTable} {d : Declaration} {i : Nat}
  {s : Statement}

namespace FirstCome

theorem empty (statements : List Statement) : FirstCome statements .empty where
  owner found := by simp [SymbolTable.empty, SymbolTable.get?] at found
  lined := ⟨fun listed => by simp [SymbolTable.empty] at listed⟩

theorem extend (first : FirstCome statements t) (valid : t.Consistent) (ext : t.Extends u) :
    FirstCome statements u where
  owner found declared := by
    rcases ext.old found with ⟨x, before, line, -⟩ | ⟨fresh, -⟩
    · rw [← line] at declared ⊢
      exact first.owner before declared
    · exact absurd fresh declared
  lined := by
    refine ⟨fun {text key x} listed found => ?_⟩
    rw [ext.globals] at listed
    obtain ⟨y, before, -⟩ := valid.listed listed
    obtain ⟨z, kept, line, -⟩ := ext.kept before
    obtain rfl := Option.some.inj (kept.symm.trans found)
    rw [line]
    exact first.lined.line listed before

theorem alike (first : FirstCome statements t) (alike : t.Alike Symbol.shape u) :
    FirstCome statements u where
  owner found declared := by
    obtain ⟨y, before, line⟩ := alike.symm.line found
    rw [← line] at declared ⊢
    exact first.owner before declared
  lined := by
    refine ⟨fun {text key x} listed found => ?_⟩
    obtain ⟨y, before, line⟩ := alike.symm.line found
    rw [← line]
    exact first.lined.line (alike.globals text ▸ listed) before

theorem declared (first : FirstCome statements t) (accepted : t.Declared d ⟨u, some d.key, none⟩)
    (owner : Owner statements i d) (positive : d.line ≠ 0) : FirstCome statements u where
  owner found declared := by
    rcases accepted.get?_cases found with ⟨rfl, line⟩ | ⟨-, before⟩
    · exact ⟨i, d, owner, rfl, line.symm⟩
    · exact first.owner before declared
  lined := by
    refine ⟨fun listed found => ?_⟩
    rcases accepted.get?_cases found with ⟨-, line⟩ | ⟨other, before⟩
    · exact line ▸ positive
    · exact first.lined.line ((accepted.globals_cases listed).resolve_left other) before

/-- A declaration that is refused meets the symbol of another line, which comes before it. -/
theorem repeats_of_refused (first : FirstCome statements t) (orderly : Orderly statements)
    (valid : t.Consistent) (line : statements[i]? = some s) (label : s.label = some d)
    (refused : (t.declare d).fault ≠ none) : Repeats statements i d := by
  have proper := ((orderly.proper s (List.mem_of_getElem? line)).label label).1
  obtain ⟨key, x, met, other⟩ := first.lined.met_of_refused proper.kind refused
  obtain ⟨j, d', owner, owned, number⟩ := first.owner met.found met.line
  obtain ⟨s', at_j, label'⟩ := owner.declares
  have proper' := ((orderly.proper s' (List.mem_of_getElem? at_j)).label label').1
  have rivals := met.rivals valid proper' owned
  rcases Nat.lt_trichotomy j i with before | rfl | after
  · exact ⟨j, before, s', d', at_j, label', rivals⟩
  · obtain rfl := Option.some.inj (at_j.symm.trans line)
    obtain rfl := Option.some.inj (label'.symm.trans label)
    exact absurd ⟨owned.symm, number.symm⟩ other
  · exact absurd ⟨i, after, s, d, line, label, rivals.symm proper proper'⟩ owner.first

/-- A declaration that is accepted meets its own symbol or none, so that it is the first. -/
theorem owner_of_accepted (first : FirstCome statements t) (concrete : Concrete statements)
    (valid : t.Consistent) (line : statements[i]? = some s) (label : s.label = some d)
    (earlier : ∀ {j s' d'}, j < i → statements[j]? = some s' → s'.label = some d' → t.Fixed d')
    (accepted : t.Declared d ⟨u, some d.key, none⟩) : Owner statements i d := by
  have proper := ((concrete.proper s (List.mem_of_getElem? line)).label label).1
  refine ⟨⟨s, line, label⟩, ?_⟩
  rintro ⟨j, before, s', d', at_j, label', rivals⟩
  have member := List.mem_of_getElem? at_j
  obtain ⟨proper', file', number'⟩ := (concrete.proper s' member).label label'
  have nonzero := concrete.nonzero s' member
  obtain ⟨key, x, met⟩ := valid.met_of_rivals first.lined proper proper'
    (file' ▸ concrete.files s' member) (by omega) (earlier before at_j label') rivals
  obtain ⟨rfl, own⟩ := met.own valid proper accepted
  obtain ⟨k, d'', owner, key, number⟩ := first.owner met.found met.line
  obtain ⟨s'', at_k, label''⟩ := owner.declares
  -- The symbol has the place of the declaration, so its owner is this line.
  obtain rfl := concrete.index_eq at_k line label'' label key (number.trans own)
  obtain rfl := Option.some.inj (at_k.symm.trans line)
  obtain rfl := Option.some.inj (label''.symm.trans label)
  exact owner.first ⟨j, before, s', d', at_j, label', rivals⟩

theorem define (first : FirstCome statements t) (concrete : Concrete statements)
    (valid : t.Consistent) (line : statements[i]? = some s) (label : s.label = some d)
    (earlier : ∀ {j s' d'}, j < i → statements[j]? = some s' → s'.label = some d' → t.Fixed d')
    (v : Value) : FirstCome statements (t.define d v).1 := by
  have member := List.mem_of_getElem? line
  obtain ⟨proper, -, number⟩ := (concrete.proper s member).label label
  have nonzero := concrete.nonzero s member
  have served {u : SymbolTable} (accepted : t.Declared d ⟨u, some d.key, none⟩) :
      FirstCome statements u := by
    have owner := first.owner_of_accepted concrete valid line label earlier accepted
    exact first.declared accepted owner (by omega)
  have defined := valid.defined proper v
  generalize t.define d v = outcome at defined
  cases defined with
  | refused => exact first
  | kept accepted => exact served accepted
  | assigned accepted => exact (served accepted).alike (SymbolTable.assign_alike ..)

end FirstCome

/-- The symbols before the line of index `i`: those of the lines before it are looked up, and every
declared one has its owner. -/
structure Served (statements : List Statement) (i : Nat) (t : SymbolTable) : Prop where
  consistent : t.Consistent
  first : FirstCome statements t
  settled : ∀ {j s}, j < i → statements[j]? = some s → t.Settled s

namespace Served

variable {state : State} (concrete : Concrete statements) (line : statements[i]? = some s)
  (served : Served statements i state.symbols)

include concrete line served

theorem used (final : Bool) :
    (s.used final state.symbols).Consistent ∧ FirstCome statements (s.used final state.symbols) ∧
      ∀ {j s' d'}, j < i → statements[j]? = some s' → s'.label = some d' →
        (s.used final state.symbols).Fixed d' := by
  have proper := concrete.proper s (List.mem_of_getElem? line)
  obtain ⟨valid, ext⟩ := served.consistent.uses final s.location proper.references
  refine ⟨valid, served.first.extend served.consistent ext, ?_⟩
  intro j s' d' before at_j label'
  have proper' := ((concrete.proper s' (List.mem_of_getElem? at_j)).label label').1
  exact ext.fixed served.consistent valid proper' ((served.settled before at_j).label label')

/-- The label of a line is refused exactly if a line before it declares a rival. -/
theorem refused_iff (final : Bool) (label : s.label = some d) :
    ((s.used final state.symbols).declare d).fault ≠ none ↔ Repeats statements i d := by
  obtain ⟨valid, first, earlier⟩ := served.used concrete line final
  have proper := ((concrete.proper s (List.mem_of_getElem? line)).label label).1
  constructor
  · exact first.repeats_of_refused concrete.toOrderly valid line label
  · intro repeats accepted
    have declared := valid.declared proper.kind
    obtain ⟨key, -⟩ := declared.present accepted
    generalize (s.used final state.symbols).declare d = outcome at declared accepted key
    obtain ⟨u, found, fault⟩ := outcome
    obtain rfl : found = some d.key := key
    obtain rfl : fault = none := accepted
    exact (first.owner_of_accepted concrete valid line label earlier declared).first repeats

/-- A line whose label is accepted is its owner, and one whose label is refused changes no owner. -/
theorem firstCome_assemble (final : Bool) :
    FirstCome statements (s.assemble final state).2.symbols := by
  obtain ⟨valid, first, earlier⟩ := served.used concrete line final
  rw [Statement.symbols_assemble]
  unfold Statement.defineLabel
  split
  next d label => exact first.define concrete valid line label earlier _
  next => exact first

end Served

end FirstCome

/-! ### All passes -/

section Passes

variable {statements : List Statement} (concrete : Concrete statements)

include concrete

theorem passAt_served (final : Bool) {state : State} (valid : state.symbols.Consistent)
    (first : FirstCome statements state.symbols) {i : Nat} (bound : i ≤ statements.length) :
    Served statements i (passAt final statements state i).symbols := by
  have serve {i : Nat} (bound : i ≤ statements.length)
      (first : FirstCome statements (passAt final statements state i).symbols) :
      Served statements i (passAt final statements state i).symbols :=
    ⟨passAt_consistent concrete.proper valid bound, first,
      fun before at_j => passAt_settled concrete.proper valid final at_j bound before⟩
  apply serve bound
  induction i with
  | zero => exact first
  | succ i ih =>
    have line : statements[i]? = some statements[i] := List.getElem?_eq_getElem (by omega)
    rw [passAt_succ line]
    exact (serve (by omega) (ih (by omega))).firstCome_assemble concrete line final

theorem afterPasses_firstCome (n : Nat) :
    FirstCome statements (afterPasses statements .empty n).symbols := by
  refine (afterPasses_invariant (fun state => state.symbols.Consistent ∧
    FirstCome statements state.symbols) ⟨SymbolTable.empty_consistent, .empty statements⟩ ?_ n).2
  rintro state ⟨valid, first⟩
  have served := passAt_served concrete false valid first le_rfl
  exact ⟨served.consistent, served.first⟩

end Passes

theorem passStarts_firstCome {files : List SourceFile} (concrete : Concrete (program files)) :
    ∀ p ∈ passStarts files,
      p.2.symbols.Consistent ∧ FirstCome (program files) p.2.symbols := by
  have valid (n : Nat) : (afterPasses (program files) .empty n).symbols.Consistent :=
    afterPasses_consistent (program_proper files) SymbolTable.empty_consistent n
  intro p member
  rcases List.mem_append.mp member with earlier | last
  · obtain ⟨n, -, rfl⟩ := List.mem_map.mp earlier
    exact ⟨valid n, afterPasses_firstCome concrete n⟩
  · obtain rfl := List.mem_singleton.mp last
    refine ⟨finalStart_consistent files, ?_⟩
    rw [finalStart_eq]
    exact (afterPasses_firstCome concrete _).extend (valid _)
      (SymbolTable.clearReferences_extends _)

/-! ### What a line reports -/

theorem Command.kind_readFaults (c : Command) (operands : List Operand) :
    ∀ f ∈ c.readFaults operands, f.fault.kind ≠ .duplicateLabel := by
  have operand (o : Operand) : ∀ f ∈ o.faults, f.fault.kind ≠ .duplicateLabel := by
    unfold Operand.faults
    split
    · simp
    · split <;> simp [Fault.kind]
  have shape : ∀ f ∈ shapeFaults c.instruction.shape operands, f.fault.kind ≠ .duplicateLabel := by
    unfold shapeFaults
    split
    · split <;> simp [Fault.kind]
    · simp [Fault.kind]
    · simp
  intro f member
  simp only [readFaults, operandFaults, List.mem_append, List.mem_flatMap, Option.mem_toList,
    Option.map_eq_some_iff] at member
  rcases member with ((⟨o, -, inside⟩ | ⟨_, -, rfl⟩) | inside) | ⟨_, -, rfl⟩
  · exact operand o f inside
  · simp [Fault.kind]
  · exact shape f inside
  · simp [Fault.kind]

theorem Command.kind_emit (i : Instruction) (operands : List Operand) (right : Bool)
    (code : Image) : ∀ f ∈ (emit i operands right code).faults, f.fault.kind ≠ .duplicateLabel := by
  have unresolved (mnemonic : Bytes) : ∀ f ∈ unresolvedFaults mnemonic operands,
      f.fault.kind ≠ .duplicateLabel := by
    unfold unresolvedFaults
    split
    · split <;> simp [Fault.kind]
    · simp
  have encoded : ∀ f ∈ (emitEncoding i operands right code).faults,
      f.fault.kind ≠ .duplicateLabel := by
    unfold emitEncoding
    split
    · simp [nothing, Fault.kind]
    · dsimp only
      split <;> simp [Fault.kind]
  fun_cases emit i operands right code with
  | case1 | case2 | case4 | case7 => simp [nothing]
  | case3 | case5 | case8 => exact unresolved _
  | case6 => simp [nothing, Fault.kind]
  | case9 | case10 | case11 => exact encoded

namespace Statement

theorem kind_undefinedFaults (operands : List Operand) :
    ∀ f ∈ undefinedFaults operands, f.fault.kind ≠ .duplicateLabel := by
  intro f member
  simp only [undefinedFaults, List.mem_map] at member
  obtain ⟨_, -, rfl⟩ := member
  simp [Fault.kind]

theorem kind_readFaults (s : Statement) (operands : List Operand) :
    ∀ f ∈ s.readFaults operands, f.fault.kind ≠ .duplicateLabel := by
  unfold readFaults
  split
  · exact Command.kind_readFaults _ operands
  · simp

theorem kind_emit (s : Statement) (operands : List Operand) (right : Bool) (code : Image) :
    ∀ f ∈ (s.emit operands right code).faults, f.fault.kind ≠ .duplicateLabel := by
  unfold emit
  split
  · exact Command.kind_emit _ operands right code
  · simp [Command.nothing]

end Statement

theorem SymbolTable.define_duplicate_iff (t : SymbolTable) (d : Declaration) (v : Value) :
    (∃ f ∈ (t.define d v).2, f.fault.kind = .duplicateLabel) ↔ (t.declare d).fault ≠ none := by
  fun_cases define t d v with
  | case1 found fault refused =>
    have outcome : (t.declare d).fault = some fault := refused
    simp [Fault.kind, outcome]
  | case2 found _ accepted | case3 found _ _ accepted | case4 found _ _ accepted
  | case5 found _ _ accepted =>
    have outcome : (t.declare d).fault = none := accepted
    simp [Fault.kind, outcome]

namespace Statement

theorem mem_diagnostics_of_label (final : Bool) (state : State) (s : Statement) :
    ∀ f ∈ (s.defineLabel (s.used final state.symbols) (s.labelWord state.environment)).2,
      f.diagnostic s.location ∈ (s.assemble final state).1.diagnostics := by
  intro f member
  obtain ⟨right, faults, -⟩ := faults_assemble final state s
  apply List.mem_map_of_mem
  simp [faults, member]

/-- A line reports a duplicate label exactly if its label is refused. -/
theorem duplicate_assemble_iff (final : Bool) (state : State) (s : Statement) :
    (∃ x ∈ (s.assemble final state).1.diagnostics, x.kind = .duplicateLabel) ↔
      ∃ d, s.label = some d ∧ ((s.used final state.symbols).declare d).fault ≠ none := by
  have faults : (∃ x ∈ (s.assemble final state).1.diagnostics, x.kind = .duplicateLabel) ↔
      ∃ f ∈ (s.defineLabel (s.used final state.symbols) (s.labelWord state.environment)).2,
        f.fault.kind = .duplicateLabel := by
    constructor
    · rintro ⟨x, member, kind⟩
      obtain ⟨f, inside, rfl⟩ := List.mem_map.mp member
      obtain ⟨right, faults, -⟩ := faults_assemble final state s
      rw [faults, List.mem_append, List.mem_append, List.mem_append] at inside
      rcases inside with ((read | label) | emitted) | undefined
      · exact absurd kind (s.kind_readFaults _ f read)
      · exact ⟨f, label, kind⟩
      · exact absurd kind (s.kind_emit _ right _ f emitted)
      · split at undefined
        · exact absurd kind (kind_undefinedFaults _ f undefined)
        · exact absurd undefined List.not_mem_nil
    · rintro ⟨f, member, kind⟩
      exact ⟨_, mem_diagnostics_of_label final state s f member, kind⟩
  rw [faults]
  unfold defineLabel
  cases label : s.label with
  | none => simp
  | some d => simp [SymbolTable.define_duplicate_iff]

end Statement

/-- In every pass over files with different names, all concrete, a line reports a duplicate label
exactly if an earlier line of the pass declares a label with the same key, or a global one with the
same name. -/
theorem duplicate_iff_declared_earlier (sources : List (Bytes × Bytes))
    (distinct : (sources.map Prod.fst).Nodup) (named : ∀ s ∈ sources, isConcrete s.1 = true) :
    ∀ p ∈ passStarts (sourceFiles sources),
      let lines := (pass p.1 (program (sourceFiles sources)) p.2).1
      ∀ (i : Nat) (line : Line), lines[i]? = some line →
        ((∃ x ∈ line.diagnostics, x.kind = .duplicateLabel) ↔
          ∃ d, line.statement.label = some d ∧
            ∃ j < i, ∃ (earlier : Line) (d' : Declaration), lines[j]? = some earlier ∧
              earlier.statement.label = some d' ∧
              (d'.key = d.key ∨ d'.kind = .global ∧ d'.name = d.name)) := by
  have concrete := sourceFiles_concrete distinct named
  intro p member lines i line at_i
  simp only [lines, getElem?_pass, Option.map_eq_some_iff] at at_i ⊢
  obtain ⟨s, statement, rfl⟩ := at_i
  obtain ⟨valid, first⟩ := passStarts_firstCome concrete p member
  have bound : i ≤ (program (sourceFiles sources)).length :=
    (List.getElem?_eq_some_iff.mp statement).1.le
  have served := passAt_served concrete p.1 valid first bound
  rw [Statement.duplicate_assemble_iff, Statement.statement_assemble]
  refine exists_congr fun d => and_congr_right fun label => ?_
  rw [served.refused_iff concrete statement p.1 label]
  refine exists_congr fun j => and_congr_right fun _ => ?_
  constructor
  · rintro ⟨s', d', at_j, label', rivals⟩
    exact ⟨_, d', ⟨s', at_j, rfl⟩, label', rivals⟩
  · rintro ⟨_, d', ⟨s', at_j, rfl⟩, label', rivals⟩
    exact ⟨s', d', at_j, label', rivals⟩

/-- A global label that is used before two files declare it, and a static label that one file
declares twice and the other once. -/
def rivalSources : List (Bytes × Bytes) :=
  [(ascii "a.asm", ascii "ORG 0\nJMP $X\nL: NOP\n$X: NOP\nL: NOP\n"),
    (ascii "b.asm", ascii "GLOBAL X: NOP\nL: JMP $X\n")]

theorem duplicate_iff_declared_earlier_rivalSources :
    ((rivalSources.map Prod.fst).Nodup ∧ (∀ s ∈ rivalSources, isConcrete s.1 = true) ∧
      (Assembly.ofFiles (sourceFiles rivalSources)).lines.map
        (fun l => l.diagnostics.any (·.kind == .duplicateLabel)) =
          [false, false, false, false, true, true, false]) ∧
    ∀ p ∈ passStarts (sourceFiles rivalSources),
      let lines := (pass p.1 (program (sourceFiles rivalSources)) p.2).1
      ∀ (i : Nat) (line : Line), lines[i]? = some line →
        ((∃ x ∈ line.diagnostics, x.kind = .duplicateLabel) ↔
          ∃ d, line.statement.label = some d ∧
            ∃ j < i, ∃ (earlier : Line) (d' : Declaration), lines[j]? = some earlier ∧
              earlier.statement.label = some d' ∧
              (d'.key = d.key ∨ d'.kind = .global ∧ d'.name = d.name)) := by
  have distinct : (rivalSources.map Prod.fst).Nodup := by decide +kernel
  have named : ∀ s ∈ rivalSources, isConcrete s.1 = true := by decide +kernel
  refine ⟨⟨distinct, named, ?_⟩, duplicate_iff_declared_earlier rivalSources distinct named⟩
  decide +kernel

end Assembler8080
