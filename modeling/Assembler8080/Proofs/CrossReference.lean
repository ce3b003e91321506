import Assembler8080.Proofs.Aborts
import Assembler8080.Proofs.Ending
import Assembler8080.Proofs.Independence
import Assembler8080.Proofs.Ownership

/-! The cross reference. The final pass starts with symbols that no line uses; each of its look-ups
finds an entry and adds the place of its line to it (`Statement.references_assemble`). So at the end
a symbol has the places of the references to it, in the order of the program
(`Assembly.references_run`), and another assembly of the same files leaves it with the same. -/
namespace Assembler8080

/-- The places where a line refers to the symbol under a key, one for each reference. -/
def Statement.mentions (t : SymbolTable) (key : Bytes) (s : Statement) : List Location :=
  (s.references.filter fun r => t.find? r == some key).map fun _ => s.location

theorem Statement.mentions_eq (t : SymbolTable) (key : Bytes) (s : Statement) :
    s.mentions t key =
      List.replicate (s.references.countP fun r => t.find? r == some key) s.location := by
  rw [mentions, List.map_const', List.countP_eq_length_filter]

/-! ### One line -/

namespace SymbolTable

variable {t : SymbolTable}

/-- A look-up that finds its entry finds it under its key. -/
theorem Consistent.find?_of_known (valid : t.Consistent) {r : Reference}
    (known : t.Known r.asDeclaration) : t.find? r = some (t.referenceKey r) := by
  rw [valid.find?_eq, if_pos ((valid.known_reference r).mp known)]

theorem Consistent.references_define (valid : t.Consistent) {d : Declaration}
    (proper : d.toLabel.Proper) (v : Value) (fixed : t.Fixed d) (key : Bytes) :
    ((t.define d v).1.get? key).map Symbol.references = (t.get? key).map Symbol.references := by
  obtain ⟨entries, -⟩ := valid.tables_define_of_fixed proper v fixed
  rw [entries]
  split
  · rw [get?_assign]
    split
    next same => subst same; cases t.get? d.key <;> rfl
    next => rfl
  · rfl

end SymbolTable

namespace Statement

variable {s : Statement} {state : State} (proper : s.Proper) (valid : state.symbols.Consistent)
  (settled : state.symbols.Settled s)

include proper valid settled

/-- A line of the final pass adds its place to a symbol for each of its references to it. -/
theorem references_assemble (key : Bytes) :
    ((s.assemble true state).2.symbols.get? key).map Symbol.references =
      (state.symbols.get? key).map fun x => x.references ++ s.mentions state.symbols key := by
  have count : s.usesOf state.symbols key =
      s.references.countP fun r => state.symbols.find? r == some key := by
    refine List.countP_congr fun r member => ?_
    simp [valid.find?_of_known (settled.references r member)]
  have used : ((s.used true state.symbols).get? key).map Symbol.references =
      (state.symbols.get? key).map fun x => x.references ++ s.mentions state.symbols key := by
    have uses := (valid.alike_uses true s.location proper.references settled.references)
    obtain ⟨missing, missing'⟩ | ⟨x, -, found, -⟩ := uses.cases key
    · rw [missing, used, missing']
      rfl
    · rw [get?_used proper valid settled found, found, mentions_eq, ← count]
      simp [Symbol.references, Symbol.addUses]
  rw [symbols_assemble, ← used]
  unfold defineLabel
  split
  next d label =>
    obtain ⟨kept, fixed⟩ := used_fixed proper valid settled label
    exact kept.references_define (proper.label label).1 _ fixed key
  next => rfl

/-- At the moment of a look-up the entry is there: nothing is made, and the key is the one that the
table gives before the line. -/
theorem refer_of_settled {k : Nat} {r : Reference} (at_k : s.references[k]? = some r) :
    let t := (s.references.take k).foldl (SymbolTable.use true s.location) state.symbols
    t.refer r = (t, state.symbols.find? r) ∧ (state.symbols.find? r).isSome = true := by
  intro t
  have member := List.mem_of_getElem? at_k
  have before r' (inside : r' ∈ s.references.take k) := List.mem_of_mem_take inside
  have alike := valid.alike_uses true s.location
    (fun r' inside => proper.references r' (before r' inside))
    (fun r' inside => settled.references r' (before r' inside))
  have kept : t.Consistent := alike.shape.sameLabels.consistent valid
  have known : t.Known r.asDeclaration :=
    alike.shape.sameLabels.known (settled.references r member)
  have same : t.find? r = state.symbols.find? r := alike.find?_eq valid kept r
  have found := kept.find?_of_known known
  refine ⟨Prod.ext (kept.refer_of_known (proper.references r member) known) ?_, ?_⟩
  · rw [kept.refer_key (proper.references r member), ← same, found]
  · rw [← same, found]
    rfl

end Statement

/-! ### The final pass -/

/-- Over a pass whose lines are settled a symbol collects the references to it. -/
theorem passAt_references {statements : List Statement} (proper : ∀ s ∈ statements, s.Proper)
    {start : State} (valid : start.symbols.Consistent)
    (settled : ∀ s ∈ statements, start.symbols.Settled s) {i : Nat} (bound : i ≤ statements.length)
    (key : Bytes) :
    ((passAt true statements start i).symbols.get? key).map Symbol.references =
      (start.symbols.get? key).map fun x =>
        x.references ++ (statements.take i).flatMap (·.mentions start.symbols key) := by
  induction i with
  | zero => simp [passAt]
  | succ i ih =>
    have line : statements[i]? = some statements[i] := List.getElem?_eq_getElem (by omega)
    have member := List.mem_of_getElem? line
    have alike := passAt_alike proper valid settled true (i := i) (by omega)
    have kept := alike.sameLabels.consistent valid
    have mentions : statements[i].mentions (passAt true statements start i).symbols key =
        statements[i].mentions start.symbols key := by
      simp only [Statement.mentions, alike.find?_eq valid kept]
    have step := Statement.references_assemble (proper _ member) kept
      (alike.settled (settled _ member)) key
    have earlier := congrArg (Option.map (· ++ statements[i].mentions start.symbols key))
      (ih (by omega))
    simp only [Option.map_map, Function.comp_def, List.append_assoc] at earlier
    rw [passAt_succ line, step, mentions, List.take_succ_eq_append_getElem (by omega),
      List.flatMap_append, List.flatMap_singleton]
    exact earlier

def finalStartFrom (files : List SourceFile) (state : State) : State :=
  State.forPass true
    (afterPasses (program files) state (Assembly.run files state).history.length)

theorem Assembly.getElem?_lines (files : List SourceFile) (state : State) (i : Nat) :
    (Assembly.run files state).lines[i]? = (program files)[i]?.map fun s =>
      (s.assemble true (passAt true (program files) (finalStartFrom files state) i)).1 := by
  rw [Assembly.lines_run, getElem?_pass]
  rfl

theorem Assembly.state_run_eq (files : List SourceFile) (state : State) :
    (Assembly.run files state).state =
      passAt true (program files) (finalStartFrom files state) (program files).length := by
  rw [Assembly.state_run, nextPass_eq]
  rfl

section Run

variable (files : List SourceFile) {state : State} (valid : state.symbols.Consistent)

include valid

theorem finalStartFrom_settled :
    (finalStartFrom files state).symbols.Consistent ∧
      ∀ s ∈ program files, (finalStartFrom files state).symbols.Settled s := by
  have proper := program_proper files
  obtain ⟨n, length, -⟩ := Assembly.history_run files state
  have alike := (State.forPass_alike true
    (afterPasses (program files) state (Assembly.run files state).history.length)).shape
  constructor
  · exact alike.sameLabels.consistent (afterPasses_consistent proper valid _)
  · intro s member
    refine alike.settled ?_
    rw [length]
    exact afterPasses_settled proper valid (n + 1) s member

theorem find?_run {i : Nat} (bound : i ≤ (program files).length) (r : Reference) :
    (passAt true (program files) (finalStartFrom files state) i).symbols.find? r =
      (Assembly.run files state).state.symbols.find? r := by
  obtain ⟨start, settled⟩ := finalStartFrom_settled files valid
  have alike {j : Nat} (bound : j ≤ (program files).length) :=
    passAt_alike (program_proper files) start settled true bound
  have consistent {j : Nat} (bound : j ≤ (program files).length) :=
    (alike bound).sameLabels.consistent start
  rw [Assembly.state_run_eq]
  exact ((alike le_rfl).symm.trans (alike bound)).find?_eq (consistent le_rfl) (consistent bound) r

theorem Assembly.references_run {key : Bytes} {x : Symbol}
    (found : (Assembly.run files state).state.symbols.get? key = some x) :
    x.references =
      (program files).flatMap (·.mentions (Assembly.run files state).state.symbols key) := by
  obtain ⟨start, settled⟩ := finalStartFrom_settled files valid
  have collected := passAt_references (program_proper files) start settled le_rfl key
  have same : ∀ s : Statement, s.mentions (finalStartFrom files state).symbols key =
      s.mentions (Assembly.run files state).state.symbols key := by
    intro s
    simp only [Statement.mentions, ← find?_run files valid (Nat.zero_le _)]
    rfl
  rw [Assembly.state_run_eq] at found
  rw [found, Option.map_some, eq_comm, Option.map_eq_some_iff] at collected
  obtain ⟨before, entry, references⟩ := collected
  -- What was recorded before the final pass is gone when it starts.
  have cleared : before.references = [] := by
    rw [finalStartFrom, State.forPass, if_pos rfl] at entry
    simp only [SymbolTable.get?_clearReferences, Option.map_eq_some_iff] at entry
    obtain ⟨old, -, rfl⟩ := entry
    rfl
  rw [← references, cleared, List.nil_append, List.take_length]
  simp only [same]

theorem Assembly.settled_run :
    ∀ s ∈ program files, (Assembly.run files state).state.symbols.Settled s := by
  obtain ⟨start, settled⟩ := finalStartFrom_settled files valid
  intro s member
  rw [Assembly.state_run_eq]
  exact (passAt_alike (program_proper files) start settled true le_rfl).settled (settled s member)

/-- In a state where its lines are settled, an assembly makes no entry and moves none. -/
theorem Assembly.alike_run (settled : ∀ s ∈ program files, state.symbols.Settled s) :
    SymbolTable.Alike Symbol.shape state.symbols (Assembly.run files state).state.symbols := by
  have proper := program_proper files
  obtain ⟨n, length, -⟩ := Assembly.history_run files state
  have first := nextPass_advances proper valid settled false
  have later := afterPasses_advances proper valid (Nat.zero_le (n + 1))
  have final := Assembly.advances_run files valid
  rw [length] at final
  exact (first.alike.trans later.alike).trans final.alike

/-- When a line of the final pass looks a label up, it finds the entry that the label has at the
end. -/
theorem Assembly.refer_run {i k : Nat} {s : Statement} {r : Reference}
    (at_i : (program files)[i]? = some s) (at_k : s.references[k]? = some r) :
    let u := (s.references.take k).foldl (SymbolTable.use true s.location)
      (passAt true (program files) (finalStartFrom files state) i).symbols
    u.refer r = (u, (Assembly.run files state).state.symbols.find? r) ∧
      ∃ key x, (Assembly.run files state).state.symbols.find? r = some key ∧
        (Assembly.run files state).state.symbols.get? key = some x := by
  have member := List.mem_of_getElem? at_i
  have bound := (List.getElem?_eq_some_iff.mp at_i).1.le
  obtain ⟨start, settled⟩ := finalStartFrom_settled files valid
  have alike := passAt_alike (program_proper files) start settled true bound
  have final := passAt_alike (program_proper files) start settled true le_rfl
  rw [← Assembly.state_run_eq] at final
  have kept := final.sameLabels.consistent start
  have known := final.sameLabels.known ((settled s member).references r (List.mem_of_getElem? at_k))
  have found := Statement.refer_of_settled (program_proper files s member)
    (alike.sameLabels.consistent start) (alike.settled (settled s member)) at_k
  rw [find?_run files valid bound] at found
  obtain ⟨x, entry⟩ := Option.isSome_iff_exists.mp ((kept.known_reference r).mp known)
  exact ⟨found.1, _, x, kept.find?_of_known known, entry⟩

theorem Assembly.references_again (key : Bytes) :
    ((Assembly.run files (Assembly.run files state).state).state.symbols.get? key).map
        Symbol.references =
      ((Assembly.run files state).state.symbols.get? key).map Symbol.references := by
  have again := (Assembly.advances_run files valid).valid
  have alike := Assembly.alike_run files again (Assembly.settled_run files valid)
  obtain ⟨missing, missing'⟩ | ⟨x, x', found, found', -⟩ := alike.cases key
  · rw [missing, missing']
  · rw [found, found', Option.map_some, Option.map_some, Assembly.references_run files valid found,
      Assembly.references_run files again found']
    have same := alike.find?_eq again (Assembly.advances_run files again).valid
    simp only [Statement.mentions, same]

end Run

/-- The cross reference is exact, after a first assembly and after repeated ones. The references of
a symbol are the places of the references in the final pass that denote it, in the order of the
program. Each line of the pass looks its labels up from left to right, so no place of it twice, and
all that stand in its operands; when a label is looked up, its entry is there, and is the one that
the label denotes at the end. Another assembly leaves every symbol with the same references. -/
theorem cross_reference_exact (files : List SourceFile) (calls : Nat) :
    let start := afterRuns files calls
    let a := Assembly.run files start
    let t := a.state.symbols
    (∀ key x, t.get? key = some x →
      x.references = a.lines.flatMap (·.statement.mentions t key)) ∧
    (∀ i line, a.lines[i]? = some line →
      (∃ scope number text, line.statement.LooksUp scope number text) ∧
      ∀ k r, line.statement.references[k]? = some r →
        let before := passAt true (program files) (finalStartFrom files start) i
        let u := (line.statement.references.take k).foldl
          (SymbolTable.use true line.location) before.symbols
        u.refer r = (u, t.find? r) ∧ ∃ key x, t.find? r = some key ∧ t.get? key = some x) ∧
    ∀ key, ((Assembly.run files a.state).state.symbols.get? key).map Symbol.references =
      (t.get? key).map Symbol.references := by
  intro start a t
  have valid := afterRuns_consistent files calls
  refine ⟨fun key x found => ?_, fun i line at_i => ?_, Assembly.references_again files valid⟩
  · have statements : a.lines.map (·.statement) = program files := by
      rw [Assembly.lines_run, statement_pass]
    rw [Assembly.references_run files valid found, ← statements, List.flatMap_map]
  · rw [Assembly.getElem?_lines, Option.map_eq_some_iff] at at_i
    obtain ⟨s, inside, same⟩ := at_i
    obtain ⟨scope, number, text, -, read⟩ := program_read (List.mem_of_getElem? inside)
    rw [Line.location, ← same, Statement.statement_assemble]
    refine ⟨⟨scope, number, text, read ▸ Statement.read_looksUp scope number text⟩, ?_⟩
    exact fun k r at_k => Assembly.refer_run files valid inside at_k

/-- A label that one line uses twice; in another it stands in a string, and after it. -/
def tableSources : List (Bytes × Bytes) :=
  [(ascii "t.asm", ascii "ORG 0\nL: LXI H,L+(-L)\nDB \"L\",L\n")]

theorem cross_reference_exact_tableSources :
    let files := sourceFiles tableSources
    let a := Assembly.run files (afterRuns files 1)
    (∃ x, a.state.symbols.get? (ascii "L@t.asm") = some x ∧
      x.references = [⟨ascii "t.asm", 2⟩, ⟨ascii "t.asm", 2⟩, ⟨ascii "t.asm", 3⟩] ∧
      x.references = a.lines.flatMap (·.statement.mentions a.state.symbols (ascii "L@t.asm"))) ∧
    (∃ line, a.lines[2]? = some line ∧ line.statement.references.length = 1 ∧
      ∃ scope number text, line.statement.LooksUp scope number text) ∧
    ((Assembly.run files a.state).state.symbols.get? (ascii "L@t.asm")).map Symbol.references =
      (a.state.symbols.get? (ascii "L@t.asm")).map Symbol.references := by
  intro files a
  obtain ⟨references, lines, again⟩ := cross_reference_exact files 1
  have uses : (a.state.symbols.get? (ascii "L@t.asm")).map Symbol.references =
      some [⟨ascii "t.asm", 2⟩, ⟨ascii "t.asm", 2⟩, ⟨ascii "t.asm", 3⟩] := by decide +kernel
  have list : (a.lines[2]?).map (·.statement.references.length) = some 1 := by decide +kernel
  obtain ⟨x, found, places⟩ := Option.map_eq_some_iff.mp uses
  obtain ⟨line, third, one⟩ := Option.map_eq_some_iff.mp list
  exact ⟨⟨x, found, places, references _ x found⟩, ⟨line, third, one, (lines 2 line third).1⟩,
    again _⟩

end Assembler8080
