import Assembler8080.Proofs.Progress

/-! Why the passes may end. Where no ORG and no EQU divides, which symbols have a value after a line
follows from which of them had one before it, whatever the values are
(`Statement.outline_assemble`). A pass that resolves nothing is therefore repeated by every pass after
it (`further_outline`). -/
namespace Assembler8080

/-! ### Expressions -/

/-- Whether a quotient or a remainder is taken. An operator without its right operand takes none. -/
def Expr.divides : Expr → Bool
  | missing _ | number _ | label _ | character _ _ | here => false
  | group inner _ => inner.divides
  | unary _ operand => operand.divides
  | binary op left right => (op.divides && !right.isMissing) || left.divides || right.divides

structure Environment.SameResolved (env env' : Environment) : Prop where
  address : env.address.isSome = env'.address.isSome
  symbol : ∀ r, (env.symbol r).value.isSome = (env'.symbol r).value.isSome

theorem Evaluation.isSome_combine (op : BinaryOp) (a b : Evaluation) :
    (combine op a b).value.isSome = (a.value.isSome && b.value.isSome) := by
  unfold combine
  cases a.value <;> cases b.value <;> rfl

theorem Evaluation.fault_combine {op : BinaryOp} (free : op.divides = false) (a b : Evaluation) :
    (combine op a b).fault = a.fault.or b.fault := by
  simp [combine, free]

namespace Expr

variable {env env' : Environment} (same : env.SameResolved env')

include same

/-- Only a division can fail for some values of its operands and not for others. -/
theorem eval_resolved {e : Expr} (free : e.divides = false) :
    (e.eval env).fault = (e.eval env').fault ∧
      (e.eval env).value.isSome = (e.eval env').value.isSome := by
  induction e with
  | missing | number | character => exact ⟨rfl, rfl⟩
  | label r => exact ⟨rfl, same.symbol r⟩
  | here => exact ⟨rfl, same.address⟩
  | group inner closed ih =>
    obtain ⟨fault, value⟩ := ih free
    exact ⟨congrArg (Option.or · _) fault, value⟩
  | unary op operand ih =>
    obtain ⟨fault, value⟩ := ih free
    refine ⟨fault, ?_⟩
    simp only [eval, Option.isSome_map, value]
  | binary op left right ihLeft ihRight =>
    simp only [divides, Bool.or_eq_false_iff] at free
    obtain ⟨faultLeft, valueLeft⟩ := ihLeft free.1.2
    obtain ⟨faultRight, valueRight⟩ := ihRight free.2
    unfold eval
    split
    next => exact ⟨by simp only [Evaluation.failWith, faultLeft, faultRight], valueLeft⟩
    next present =>
      have plain : op.divides = false := by simpa [present] using free.1.1
      rw [Evaluation.fault_combine plain, Evaluation.fault_combine plain,
        Evaluation.isSome_combine, Evaluation.isSome_combine, faultLeft, faultRight, valueLeft,
        valueRight]
      exact ⟨rfl, rfl⟩

theorem isSome_word {e : Expr} (free : e.divides = false) :
    (e.word env).isSome = (e.word env').isSome := by
  obtain ⟨fault, value⟩ := eval_resolved same free
  unfold word
  rw [fault]
  split
  · exact value
  · rfl

end Expr

instance DataForm.decidableEvery (holds : Expr → Prop) [DecidablePred holds] :
    (form : DataForm) → Decidable (form.Every holds)
  | byte e | word e => inferInstanceAs (Decidable (holds e))
  | string _ => inferInstanceAs (Decidable True)

instance OperandForm.decidableEvery (holds : Expr → Prop) [DecidablePred holds] :
    (form : OperandForm) → Decidable (form.Every holds)
  | register _ _ => inferInstanceAs (Decidable True)
  | restart e | size e => inferInstanceAs (Decidable (holds e))
  | data form => inferInstanceAs (Decidable (form.Every holds))
  | list _ items _ => inferInstanceAs (Decidable (∀ item ∈ items, item.Every holds))

/-! ### Tables with the same symbols resolved -/

/-- All of a symbol but its uses, and of its value only whether there is one. -/
def Symbol.outline (s : Symbol) : (Label × Bytes × Int) × Bool := (s.shape, s.value.isSome)

namespace SymbolTable

variable {t u : SymbolTable}

theorem Alike.outline (alike : Alike Symbol.meaning t u) : Alike Symbol.outline t u :=
  alike.map fun x => (x.1, x.2.isSome)

namespace Alike

variable (alike : Alike Symbol.outline t u)

include alike

theorem shapes : Alike Symbol.shape t u := alike.map Prod.fst

theorem isSome_valueOf (key : Bytes) : (u.valueOf key).isSome = (t.valueOf key).isSome := by
  unfold valueOf
  obtain ⟨left, right⟩ | ⟨s, s', left, right, same⟩ := alike.cases key
  · rw [left, right]
  · rw [left, right]
    exact congrArg (·.2) same

theorem unresolvedKeys_eq : u.unresolvedKeys = t.unresolvedKeys := by
  ext key
  rw [unresolvedKeys, unresolvedKeys, Finset.mem_filter, Finset.mem_filter, alike.keys_eq,
    ← Option.not_isSome_iff_eq_none, ← Option.not_isSome_iff_eq_none, alike.isSome_valueOf]

theorem accepts_eq (d : Declaration) {v v' : Value} (values : v'.isSome = v.isSome) :
    u.accepts d v' = t.accepts d v := by
  unfold accepts
  obtain ⟨left, right⟩ | ⟨s, s', left, right, same⟩ := alike.cases d.key
  · rw [left, right]
    rfl
  · have line : s'.line = s.line := congrArg (·.1.2.2) same
    have value : s'.value.isSome = s.value.isSome := congrArg (·.2) same
    rw [left, right, Option.any_some, Option.any_some, line, values, ← Option.not_isSome,
      ← Option.not_isSome, value]

theorem assign (key : Bytes) {v v' : Value} (values : v'.isSome = v.isSome) :
    Alike Symbol.outline (t.assign key v) (u.assign key v') where
  entries other := by
    rw [get?_assign, get?_assign]
    split
    · obtain ⟨left, right⟩ | ⟨s, s', left, right, same⟩ := alike.cases key
      · rw [left, right]
        rfl
      · rw [left, right]
        have shape : s'.shape = s.shape := congrArg (·.1) same
        exact congrArg some (Prod.ext shape values)
    · exact alike.entries other
  globals := alike.globals

theorem define (before : t.Consistent) (after : u.Consistent) {d : Declaration}
    (proper : d.toLabel.Proper) (fixed : t.Fixed d) {v v' : Value} (values : v'.isSome = v.isSome) :
    Alike Symbol.outline (t.define d v).1 (u.define d v').1 := by
  have left := (before.define_of_fixed proper v fixed).outline
  have right := (after.define_of_fixed proper v' (alike.shapes.fixed fixed)).outline
  refine left.symm.trans (.trans ?_ right)
  rw [alike.accepts_eq d values]
  split
  · exact alike.assign d.key values
  · exact alike

theorem isSome_denoted (before : t.Consistent) (after : u.Consistent) (r : Reference) :
    (u.denoted r).value.isSome = (t.denoted r).value.isSome := by
  have key : u.referenceKey r = t.referenceKey r := by
    unfold referenceKey
    rw [alike.globals]
  rw [before.denoted_value, after.denoted_value, key, alike.isSome_valueOf]

end Alike

/-- Tables of one shape with the same keys unresolved have the same symbols resolved. -/
theorem Alike.of_unresolvedKeys (alike : Alike Symbol.shape t u)
    (same : u.unresolvedKeys = t.unresolvedKeys) : Alike Symbol.outline t u where
  entries key := by
    obtain ⟨left, right⟩ | ⟨s, s', left, right, shape⟩ := alike.cases key
    · rw [left, right]
    · have value : s'.value = none ↔ s.value = none := by
        have member : key ∈ u.unresolvedKeys ↔ key ∈ t.unresolvedKeys := by rw [same]
        simpa [mem_unresolvedKeys, left, right] using member
      have resolved : s'.value.isSome = s.value.isSome := by
        rw [Bool.eq_iff_iff, Option.isSome_iff_ne_none, Option.isSome_iff_ne_none]
        exact not_congr value
      rw [left, right]
      exact congrArg some (Prod.ext shape resolved)
  globals := alike.globals

end SymbolTable

/-! ### Lines and passes -/

structure State.SameOutline (state state' : State) : Prop where
  symbols : SymbolTable.Alike Symbol.outline state.symbols state'.symbols
  address : state'.code.address.isSome = state.code.address.isSome

theorem State.SameOutline.environment {state state' : State} (same : state.SameOutline state')
    (before : state.symbols.Consistent) (after : state'.symbols.Consistent) :
    state'.environment.SameResolved state.environment :=
  ⟨same.address, same.symbols.isSome_denoted before after⟩

theorem Command.wordOperand_eq {c : Command} {column : Nat} {e : Expr}
    (operands : c.sources.operands = [⟨column, .data (.word e)⟩]) (env : Environment) :
    wordOperand (c.operands env) = e.word env := by
  rw [Command.operands, operands]
  rfl

namespace Statement

/-- Neither an ORG nor an EQU in the line divides. -/
def DivisionFree (s : Statement) : Prop :=
  ∀ c ∈ s.command, c.instruction.operation = .directive .org ∨
    c.instruction.operation = .directive .equ →
      ∀ o ∈ c.sources.operands, o.form.Every fun e => e.divides = false

instance : DecidablePred DivisionFree := fun s =>
  inferInstanceAs (Decidable (∀ c ∈ s.command, c.instruction.operation = .directive .org ∨
    c.instruction.operation = .directive .equ →
      ∀ o ∈ c.sources.operands, o.form.Every fun e => e.divides = false))

variable {s : Statement} (proper : s.Proper) (free : s.DivisionFree)

include proper free

theorem isSome_wordOperand {c : Command} (command : s.command = some c)
    (directive : c.instruction.operation = .directive .org ∨
      c.instruction.operation = .directive .equ)
    {env env' : Environment} (same : env.SameResolved env') :
    (Command.wordOperand (c.operands env)).isSome =
      (Command.wordOperand (c.operands env')).isSome := by
  obtain ⟨column, e, operands⟩ := proper.word command directive
  have plain : e.divides = false :=
    free c command directive ⟨column, .data (.word e)⟩ (by rw [operands]; exact List.mem_cons_self)
  rw [Command.wordOperand_eq operands, Command.wordOperand_eq operands]
  exact e.isSome_word same plain

theorem isSome_labelWord {env env' : Environment} (same : env.SameResolved env') :
    (s.labelWord env).isSome = (s.labelWord env').isSome := by
  unfold labelWord Command.labelValue operands
  cases command : s.command with
  | none => exact same.address
  | some c =>
    simp only [Option.map_some]
    split
    next org => exact isSome_wordOperand proper free command (.inl (Option.some.inj org)) same
    next equ => exact isSome_wordOperand proper free command (.inr (Option.some.inj equ)) same
    next => exact same.address

/-- Only an ORG can give an address where there was none. -/
theorem isSome_address_assemble (final final' : Bool) {state state' : State}
    (same : state.environment.SameResolved state'.environment) :
    (s.assemble final state).2.code.address.isSome =
      (s.assemble final' state').2.code.address.isSome := by
  have address : state.code.address.isSome = state'.code.address.isSome := same.address
  rw [address_assemble, address_assemble]
  cases command : s.command with
  | none => exact address
  | some c =>
    dsimp only
    cases operation : c.instruction.operation with
    | machine opcode => simp only [Command.addressAfter, Option.isSome_map, address]
    | directive d =>
      cases d with
      | org =>
        simp only [Command.addressAfter, Option.isSome_or, address]
        rw [isSome_wordOperand proper free command (.inl operation) same]
      | equ | finish => exact address
      | db | dw | ds => simp only [Command.addressAfter, Option.isSome_map, address]

theorem outline_assemble (final final' : Bool) {state state' : State}
    (same : state.SameOutline state') (valid : state.symbols.Consistent)
    (settled : state.symbols.Settled s) :
    (s.assemble final state).2.SameOutline (s.assemble final' state').2 := by
  have shapes := same.symbols.shapes
  have valid' := shapes.sameLabels.consistent valid
  have environment := same.environment valid valid'
  refine ⟨?_, isSome_address_assemble proper free final' final environment⟩
  have uses := valid.alike_uses final s.location proper.references settled.references
  have uses' := valid'.alike_uses final' s.location proper.references
    (shapes.settled settled).references
  have used : SymbolTable.Alike Symbol.outline (s.used final state.symbols)
      (s.used final' state'.symbols) :=
    uses.outline.symm.trans (same.symbols.trans uses'.outline)
  rw [symbols_assemble, symbols_assemble]
  unfold defineLabel
  split
  next d label =>
    exact used.define (uses.shape.sameLabels.consistent valid)
      (uses'.shape.sameLabels.consistent valid') (proper.label label).1
      (uses.shape.fixed (settled.label label)) (isSome_labelWord proper free environment)
  next => exact used

end Statement

section Passes

variable {statements : List Statement} (proper : ∀ s ∈ statements, s.Proper)
  (free : ∀ s ∈ statements, s.DivisionFree) {state state' : State}
  (valid : state.symbols.Consistent) (settled : ∀ s ∈ statements, state.symbols.Settled s)

include proper free valid settled

theorem passAt_outline (final final' : Bool)
    (same : SymbolTable.Alike Symbol.outline state.symbols state'.symbols) {i : Nat}
    (bound : i ≤ statements.length) :
    (passAt final statements state i).SameOutline (passAt final' statements state' i) := by
  induction i with
  | zero => exact ⟨same, rfl⟩
  | succ i ih =>
    have line : statements[i]? = some statements[i] := List.getElem?_eq_getElem (by omega)
    have member : statements[i] ∈ statements := List.getElem_mem _
    have alike := passAt_alike proper valid settled final (Nat.le_of_succ_le bound)
    rw [passAt_succ line, passAt_succ line]
    exact Statement.outline_assemble (proper _ member) (free _ member) final final'
      (ih (Nat.le_of_succ_le bound)) (alike.sameLabels.consistent valid)
      (alike.settled (settled _ member))

/-- Which symbols a pass resolves depends on which are resolved before it, and on nothing else: not
on their values, and not on whether the pass is final. -/
theorem nextPass_outline (final final' : Bool)
    (same : SymbolTable.Alike Symbol.outline state.symbols state'.symbols) :
    SymbolTable.Alike Symbol.outline (nextPass statements state final).symbols
      (nextPass statements state' final').symbols := by
  have ready := state.forPass_alike final
  have start : SymbolTable.Alike Symbol.outline (state.forPass final).symbols
      (state'.forPass final').symbols :=
    ready.outline.symm.trans (same.trans (state'.forPass_alike final').outline)
  rw [nextPass_eq, nextPass_eq]
  exact (passAt_outline proper free (ready.shape.sameLabels.consistent valid)
    (fun s member => ready.shape.settled (settled s member)) final final' start le_rfl).symbols

end Passes

/-! ### Further passes -/

def further (statements : List Statement) (state : State) (finals : List Bool) : State :=
  finals.foldl (nextPass statements) state

section Further

variable {statements : List Statement} (proper : ∀ s ∈ statements, s.Proper)

include proper

theorem further_advances {state : State} (valid : state.symbols.Consistent)
    (settled : ∀ s ∈ statements, state.symbols.Settled s) (finals : List Bool) :
    SymbolTable.Advances state.symbols (further statements state finals).symbols := by
  induction finals generalizing state with
  | nil => exact ⟨valid, .refl _, Finset.Subset.refl _⟩
  | cons final rest ih =>
    have next := nextPass_advances proper valid settled final
    exact next.trans (ih next.valid fun s member => next.alike.settled (settled s member))

/-- A pass that resolves nothing is repeated by all passes after it. -/
theorem further_outline (free : ∀ s ∈ statements, s.DivisionFree) {state : State}
    (valid : state.symbols.Consistent) (settled : ∀ s ∈ statements, state.symbols.Settled s)
    (stalled : (nextPass statements state false).symbols.unresolvedKeys =
      state.symbols.unresolvedKeys) (finals : List Bool) :
    SymbolTable.Alike Symbol.outline state.symbols (further statements state finals).symbols := by
  have again := SymbolTable.Alike.of_unresolvedKeys
    (nextPass_advances proper valid settled false).alike stalled
  -- A state with the same symbols resolved goes on to one like the stalled state.
  have onward {now : State} (same : SymbolTable.Alike Symbol.outline state.symbols now.symbols) :
      SymbolTable.Alike Symbol.outline state.symbols
        (finals.foldl (nextPass statements) now).symbols := by
    induction finals generalizing now with
    | nil => exact same
    | cons final rest ih =>
      exact ih (again.trans (nextPass_outline proper free valid settled false final same))
  exact onward (.refl _)

variable {state : State} (valid : state.symbols.Consistent)

include valid

theorem further_of_stall (free : ∀ s ∈ statements, s.DivisionFree) {n : Nat}
    (stall : unresolvedAfter statements state (n + 1) ≤ unresolvedAfter statements state (n + 2))
    (finals : List Bool) :
    (further statements (afterPasses statements state (n + 2)) finals).symbols.unresolvedKeys =
      (afterPasses statements state (n + 2)).symbols.unresolvedKeys := by
  have kept := afterPasses_consistent proper valid (n + 1)
  have settled := afterPasses_settled proper valid n
  have fewer := (nextPass_advances proper kept settled false).fewer
  have stalled :
      (nextPass statements (afterPasses statements state (n + 1)) false).symbols.unresolvedKeys =
        (afterPasses statements state (n + 1)).symbols.unresolvedKeys := by
    refine Finset.eq_of_subset_of_card_le fewer ?_
    rw [SymbolTable.card_unresolvedKeys, SymbolTable.card_unresolvedKeys]
    exact stall
  have after := further_outline proper free kept settled stalled (false :: finals)
  exact after.unresolvedKeys_eq.trans stalled.symm

theorem further_of_stop (free : ∀ s ∈ statements, s.DivisionFree) {n : Nat}
    (stop : unresolvedAfter statements state (n + 2) = 0 ∨
      unresolvedAfter statements state (n + 1) ≤ unresolvedAfter statements state (n + 2))
    (finals : List Bool) :
    (further statements (afterPasses statements state (n + 2)) finals).symbols.unresolvedKeys =
      (afterPasses statements state (n + 2)).symbols.unresolvedKeys := by
  rcases stop with settled | stall
  · have empty : (afterPasses statements state (n + 2)).symbols.unresolvedKeys = ∅ := by
      rw [← Finset.card_eq_zero, SymbolTable.card_unresolvedKeys]
      exact settled
    have fewer := (further_advances proper (afterPasses_consistent proper valid (n + 2))
      (afterPasses_settled proper valid (n + 1)) finals).fewer
    rw [empty] at fewer ⊢
    exact Finset.subset_empty.mp fewer
  · exact further_of_stall proper valid free stall finals

end Further

/-- The state after the files have been assembled so many times, each time in the state that the
last assembly left. -/
def afterRuns (files : List SourceFile) : Nat → State
  | 0 => .empty
  | n + 1 => (Assembly.run files (afterRuns files n)).state

theorem afterRuns_consistent (files : List SourceFile) (calls : Nat) :
    (afterRuns files calls).symbols.Consistent := by
  induction calls with
  | zero => exact SymbolTable.empty_consistent
  | succ n ih =>
    have proper := program_proper files
    rw [afterRuns, Assembly.state_run, nextPass_eq]
    refine passAt_consistent proper ?_ le_rfl
    exact (State.forPass_alike ..).shape.sameLabels.consistent (afterPasses_consistent proper ih _)

/-- The final pass leaves the symbols unresolved that any further passes would. -/
theorem Assembly.unresolvedKeys_run (files : List SourceFile) {state : State}
    (valid : state.symbols.Consistent) (free : ∀ s ∈ program files, s.DivisionFree)
    (finals : List Bool) :
    (further (program files)
        (afterPasses (program files) state (Assembly.run files state).history.length)
        finals).symbols.unresolvedKeys =
      (Assembly.run files state).state.symbols.unresolvedKeys := by
  obtain ⟨n, length, -, stop⟩ := history_run files state
  have stable := further_of_stop (program_proper files) valid free stop
  rw [state_run, length]
  exact (stable finals).trans (stable [true]).symm

theorem Assembly.unresolved_of_fault {a : Assembly} {report : Option Bytes} {passes count : Nat}
    (aborted : a.fault report = some (.unresolved passes count)) : 0 < a.unresolved := by
  unfold fault at aborted
  split at aborted
  · simp at aborted
  · split at aborted
    next positive => exact positive
    next => contradiction

/-- Giving up is justified: a pass after the first that leaves no fewer symbols without a value than
the one before it is followed only by passes that leave the same ones without a value. -/
theorem stall_is_permanent (files : List SourceFile) (calls : Nat)
    (free : ∀ s ∈ program files, s.DivisionFree) :
    let start := afterRuns files calls
    let a := Assembly.run files start
    let after := afterPasses (program files) start
    (∀ n, (after (n + 1)).symbols.unresolved ≤ (after (n + 2)).symbols.unresolved → ∀ finals,
        (further (program files) (after (n + 2)) finals).symbols.unresolvedKeys =
          (after (n + 2)).symbols.unresolvedKeys) ∧
      a.history.getLast? = some a.unresolved ∧
      (∀ finals, (further (program files) (after a.history.length) finals).symbols.unresolvedKeys =
        a.state.symbols.unresolvedKeys) ∧
      ∀ report passes count, a.fault report = some (.unresolved passes count) → ∀ finals,
        0 < (further (program files) (after a.history.length) finals).symbols.unresolved := by
  intro start a after
  have valid := afterRuns_consistent files calls
  have same : ∀ finals,
      (further (program files) (after a.history.length) finals).symbols.unresolvedKeys =
        a.state.symbols.unresolvedKeys := Assembly.unresolvedKeys_run files valid free
  have counts (finals : List Bool) :
      (further (program files) (after a.history.length) finals).symbols.unresolved =
        a.unresolved := by
    rw [← SymbolTable.card_unresolvedKeys, same, SymbolTable.card_unresolvedKeys]
    rfl
  refine ⟨fun n stall => further_of_stall (program_proper files) valid free stall, ?_, same, ?_⟩
  · rw [← counts []]
    exact Assembly.getLast?_history files start
  · intro report passes count aborted finals
    rw [counts]
    exact Assembly.unresolved_of_fault aborted

/-- A chain of definitions that takes three passes, and a label that nothing defines. -/
def chainSources : List (Bytes × Bytes) :=
  [(ascii "t.asm", ascii "A EQU B\nB EQU C\nC EQU 1\nX EQU Y+A\n")]

theorem stall_is_permanent_chainSources :
    let files := sourceFiles chainSources
    let after := afterPasses (program files) .empty
    (∀ s ∈ program files, s.DivisionFree) ∧
      (after 3).symbols.unresolved ≤ (after 4).symbols.unresolved ∧
      (further (program files) (after 4) [false, true, false]).symbols.unresolvedKeys =
        (after 4).symbols.unresolvedKeys ∧
      (Assembly.ofFiles files).fault none = some (.unresolved 5 2) ∧
      0 < (further (program files) (after (Assembly.ofFiles files).history.length)
        [false, true, false]).symbols.unresolved := by
  intro files after
  have run : (∀ s ∈ program files, s.DivisionFree) ∧
      (after 3).symbols.unresolved ≤ (after 4).symbols.unresolved ∧
      (Assembly.ofFiles files).fault none = some (.unresolved 5 2) := by decide +kernel
  obtain ⟨free, stall, fault⟩ := run
  obtain ⟨same, -, -, abort⟩ := stall_is_permanent files 0 free
  exact ⟨free, stall, same 2 stall _, fault, abort none 5 2 fault _⟩

end Assembler8080
