import Assembler8080.Report
import Assembler8080.Proofs.Passes

/-! A report that may fail. A writer is told each line of the final pass as it is assembled, and the
symbols at the end; it keeps the first error that a write meets, and writes nothing after it
(`Writer.print_of_error`). So it makes the writes of a report one after another up to the first that
fails (`Writer.printAll_ends`), which is what `Report.deliver` makes of them (`Writer.deliver_eq`),
and the assembly does not depend on it (`assembleWith_eq`). -/
namespace Assembler8080

open Report

/-- A place that takes writes: the error that the write after so many others meets, if any. -/
def Sink : Type := Nat → Option Bytes

/-- A destination that takes a number of writes, or any number, and then fails. -/
def Sink.ofRoom (room : Option Nat) (cause : Bytes) : Sink := fun n =>
  if room.any (· ≤ n) then some cause else none

structure Writer where
  sinks : Destination → Option Sink
  made : List Write
  errors : List Diagnostic
  error : Option Bytes

namespace Writer

def new (sinks : Destination → Option Sink) : Writer := ⟨sinks, [], [], none⟩

/-- Writes to a destination that is present, unless a write has failed before. -/
def print (w : Writer) (x : Write) : Writer :=
  match w.sinks x.destination with
  | none => w
  | some sink =>
    if w.error.isSome then w
    else
      match sink (w.made.countP (·.destination == x.destination)) with
      | none => { w with made := w.made ++ [x] }
      | some e => { w with error := some e }

def printAll (w : Writer) (xs : List Write) : Writer := xs.foldl print w

def line (w : Writer) (l : Line) : Writer :=
  print { w with errors := w.errors ++ l.diagnostics } ⟨.listing, Listing.text (Listing.entry l)⟩

/-- Writes the symbols and the errors, and returns the first error of a write. -/
def finish (w : Writer) (t : SymbolTable) : Option Bytes × Writer :=
  let done := (w.printAll (symbolWrites t)).printAll (errorWrites w.errors t.unresolved)
  (done.error, done)

end Writer

/-- One statement of a final pass whose lines are told to a reporter. -/
def reportStep (before : (List Line × State) × Option Writer) (s : Statement) :
    (List Line × State) × Option Writer :=
  let assembled := s.assemble true before.1.2
  ((assembled.1 :: before.1.1, assembled.2), before.2.map (·.line assembled.1))

structure Reported where
  assembly : Assembly
  reporter : Option Writer
  returned : Option Bytes
  fault : Option AssemblyFault

/-- Assembles files and reports the final pass, if there is a reporter. -/
def assembleWith (files : List SourceFile) (state : State) (reporter : Option Writer) : Reported :=
  let statements := program files
  let settled := settle statements state
  let start := { settled.2 with
    symbols := settled.2.symbols.clearReferences
    code := settled.2.code.reset }
  let final := statements.foldl reportStep (([], start), reporter)
  let a : Assembly := ⟨settled.1, final.1.1.reverse, final.1.2⟩
  let finished := final.2.map (·.finish a.state.symbols)
  let returned := finished.bind (·.1)
  ⟨a, finished.map (·.2), returned, a.fault returned⟩

/-! ### Writes -/

namespace Writer

/-- The error that the write of an index meets when those before it are made. -/
def writeError (sinks : Destination → Option Sink) (ws : List Write) (n : Nat) : Option Bytes := do
  let x ← ws[n]?
  let sink ← sinks x.destination
  sink ((ws.take n).countP (·.destination == x.destination))

theorem writeError_eq_some {sinks : Destination → Option Sink} {ws : List Write} {n : Nat}
    {e : Bytes} (fails : writeError sinks ws n = some e) :
    ∃ x sink, ws[n]? = some x ∧ sinks x.destination = some sink ∧
      sink ((ws.take n).countP (·.destination == x.destination)) = some e := by
  simp only [writeError, Option.bind_eq_bind, Option.bind_eq_some_iff] at fails
  obtain ⟨x, at_n, sink, present, failed⟩ := fails
  exact ⟨x, sink, at_n, present, failed⟩

theorem writeError_of_le {sinks : Destination → Option Sink} {ws : List Write} {n : Nat}
    (beyond : ws.length ≤ n) : writeError sinks ws n = none := by
  simp [writeError, beyond]

theorem print_of_error {w : Writer} {e : Bytes} (failed : w.error = some e) (x : Write) :
    w.print x = w := by
  unfold print
  split
  · rfl
  · simp [failed]

section Print

variable {w : Writer} {x : Write} {sink : Sink}

theorem print_of_absent (absent : w.sinks x.destination = none) : w.print x = w := by
  simp [print, absent]

theorem print_of_taken (present : w.sinks x.destination = some sink) (error : w.error = none)
    (taken : sink (w.made.countP (·.destination == x.destination)) = none) :
    w.print x = { w with made := w.made ++ [x] } := by
  simp [print, present, error, taken]

theorem print_of_fails (present : w.sinks x.destination = some sink) (error : w.error = none)
    {e : Bytes} (fails : sink (w.made.countP (·.destination == x.destination)) = some e) :
    w.print x = { w with error := some e } := by
  simp [print, present, error, fails]

end Print

theorem printAll_cons (w : Writer) (x : Write) (xs : List Write) :
    w.printAll (x :: xs) = (w.print x).printAll xs := rfl

theorem printAll_of_error {w : Writer} {e : Bytes} (failed : w.error = some e) (xs : List Write) :
    w.printAll xs = w := by
  induction xs with
  | nil => rfl
  | cons x rest ih => rw [printAll_cons, print_of_error failed, ih]

theorem printAll_append (w : Writer) (xs ys : List Write) :
    w.printAll (xs ++ ys) = (w.printAll xs).printAll ys := List.foldl_append

@[simp] theorem sinks_print (w : Writer) (x : Write) : (w.print x).sinks = w.sinks := by
  unfold print
  repeat' split
  all_goals rfl

/-- What is written does not depend on the errors that are collected. -/
theorem print_errors (w : Writer) (errors : List Diagnostic) (x : Write) :
    print { w with errors := errors } x = { w.print x with errors := errors } := by
  unfold print
  dsimp only
  repeat' split
  all_goals simp_all

theorem printAll_errors (w : Writer) (errors : List Diagnostic) (xs : List Write) :
    printAll { w with errors := errors } xs = { w.printAll xs with errors := errors } := by
  induction xs generalizing w with
  | nil => rfl
  | cons x rest ih => rw [printAll_cons, printAll_cons, print_errors, ih]

/-- How writes end, of which those before an index are made already: all are made, or they stop
before the first that fails. -/
inductive Ends (sinks : Destination → Option Sink) (ws : List Write) (start : Nat) (w : Writer) :
    Prop where
  | complete (error : w.error = none) (made : w.made = ws)
      (taken : ∀ n, start ≤ n → writeError sinks ws n = none)
  | stopped (n : Nat) (e : Bytes) (error : w.error = some e) (made : w.made = ws.take n)
      (fails : writeError sinks ws n = some e)
      (taken : ∀ m, start ≤ m → m < n → writeError sinks ws m = none)

theorem Ends.cons {sinks : Destination → Option Sink} {ws : List Write} {start : Nat} {w : Writer}
    (ends : Ends sinks ws (start + 1) w) (made : writeError sinks ws start = none) :
    Ends sinks ws start w := by
  have from_start {n : Nat} (after : start ≤ n) (later : start + 1 ≤ n →
      writeError sinks ws n = none) : writeError sinks ws n = none := by
    rcases Nat.eq_or_lt_of_le after with rfl | more
    · exact made
    · exact later more
  cases ends with
  | complete error all taken => exact .complete error all fun n after => from_start after (taken n)
  | stopped n e error failing fails taken =>
    exact .stopped n e error failing fails fun m after less =>
      from_start after fun more => taken m more less

/-- The writes of a list to the destinations that are present are made up to the first that
fails. -/
theorem printAll_ends (w : Writer) (error : w.error = none) (xs : List Write) :
    Ends w.sinks (w.made ++ xs.filter fun x => (w.sinks x.destination).isSome) w.made.length
      (w.printAll xs) := by
  induction xs generalizing w with
  | nil =>
    rw [List.filter_nil, List.append_nil]
    exact .complete error rfl fun n beyond => writeError_of_le beyond
  | cons x rest ih =>
    rw [printAll_cons]
    cases present : w.sinks x.destination with
    | none =>
      rw [print_of_absent present, List.filter_cons_of_neg (by simp [present])]
      exact ih w error
    | some sink =>
      rw [List.filter_cons_of_pos (by simp [present])]
      have outcome : writeError w.sinks (w.made ++ x :: rest.filter fun x =>
          (w.sinks x.destination).isSome) w.made.length =
          sink (w.made.countP (·.destination == x.destination)) := by
        simp [writeError, present]
      cases result : sink (w.made.countP (·.destination == x.destination)) with
      | none =>
        have later := ih { w with made := w.made ++ [x] } error
        rw [print_of_taken present error result]
        simp only [List.append_assoc, List.singleton_append, List.length_append,
          List.length_singleton] at later
        exact later.cons (outcome.trans result)
      | some e =>
        rw [print_of_fails present error result, printAll_of_error rfl]
        refine .stopped w.made.length e rfl ?_ (outcome.trans result) fun m after less => ?_
        · simp
        · omega

end Writer

/-! ### The delivery of a report -/

def roomSinks (present : Destination → Bool) (room : Room) (cause : Bytes) :
    Destination → Option Sink :=
  fun d => if present d then some (.ofRoom (room.get d) cause) else none

namespace Report.Room

/-- What is left of the room of every destination after some writes. -/
def After (room : Room) (made : List Write) (rest : Room) : Prop :=
  ∀ d, rest.get d = (room.get d).map (· - made.countP (·.destination == d))

theorem get_use (room : Room) (d other : Destination) :
    (room.use d).get other =
      if d = other then (room.get other).map (· - 1) else room.get other := by
  cases d <;> cases other <;> rfl

theorem After.use {room rest : Room} {made : List Write} (after : room.After made rest)
    (x : Write) : room.After (made ++ [x]) (rest.use x.destination) := by
  intro d
  rw [get_use, after d, List.countP_append]
  by_cases same : x.destination = d
  · simp [same, Function.comp_def, Nat.sub_sub]
  · simp [same]

/-- The next write to a destination fails exactly if it has no room left. -/
theorem After.ofRoom_eq {room rest : Room} {made : List Write} (after : room.After made rest)
    (d : Destination) (cause : Bytes) :
    Sink.ofRoom (room.get d) cause (made.countP (·.destination == d)) =
      if rest.get d = some 0 then some cause else none := by
  rw [after d]
  cases room.get d with
  | none => simp [Sink.ofRoom]
  | some k => simp [Sink.ofRoom, Nat.sub_eq_zero_iff_le]

end Report.Room

namespace Writer

/-- Writes to destinations that are absent change nothing. -/
theorem printAll_filter (w : Writer) (xs : List Write) :
    w.printAll (xs.filter fun x => (w.sinks x.destination).isSome) = w.printAll xs := by
  induction xs generalizing w with
  | nil => rfl
  | cons x rest ih =>
    cases present : w.sinks x.destination with
    | none =>
      rw [List.filter_cons_of_neg (by simp [present]), printAll_cons, print_of_absent present, ih]
    | some sink =>
      have later := ih (w.print x)
      rw [sinks_print] at later
      rw [List.filter_cons_of_pos (by simp [present]), printAll_cons, printAll_cons, later]

theorem deliverFrom_eq {present : Destination → Bool} {room : Room} {cause : Bytes} {w : Writer}
    (sinks : w.sinks = roomSinks present room cause) (error : w.error = none) {rest : Room}
    (after : room.After w.made rest) {xs : List Write}
    (here : ∀ x ∈ xs, present x.destination = true) :
    deliverFrom w.made.reverse rest xs =
      ⟨(w.printAll xs).made, (w.printAll xs).error.isSome⟩ := by
  induction xs generalizing w rest with
  | nil => simp [deliverFrom, printAll, error]
  | cons x tail ih =>
    rw [List.forall_mem_cons] at here
    have sink : w.sinks x.destination = some (.ofRoom (room.get x.destination) cause) := by
      simp [sinks, roomSinks, here.1]
    have outcome := after.ofRoom_eq x.destination cause
    rw [deliverFrom, printAll_cons]
    by_cases full : rest.get x.destination = some 0
    · rw [if_pos full] at outcome
      rw [if_pos full, print_of_fails sink error outcome, printAll_of_error rfl]
      simp
    · rw [if_neg full] at outcome
      have later := ih (w := { w with made := w.made ++ [x] }) sinks error (after.use x) here.2
      rw [if_neg full, print_of_taken sink error outcome, ← later]
      simp

/-- A writer whose destinations fail when their room is used up delivers the report. -/
theorem deliver_eq (present : Destination → Bool) (room : Room) (cause : Bytes) (xs : List Write) :
    deliver room (xs.filter fun x => present x.destination) =
      ⟨((new (roomSinks present room cause)).printAll xs).made,
        ((new (roomSinks present room cause)).printAll xs).error.isSome⟩ := by
  have same : (fun x : Write => present x.destination) =
      fun x => (roomSinks present room cause x.destination).isSome := by
    funext x
    by_cases here : present x.destination <;> simp [roomSinks, here]
  have whole : room.After [] room := by
    intro d
    simp
  have here : ∀ x ∈ xs.filter fun x => present x.destination, present x.destination = true :=
    fun x member => (List.mem_filter.mp member).2
  have filtered : (new (roomSinks present room cause)).printAll
      (xs.filter fun x => present x.destination) =
      (new (roomSinks present room cause)).printAll xs := by
    rw [same]
    exact printAll_filter (new _) xs
  rw [← filtered]
  exact deliverFrom_eq (w := new (roomSinks present room cause)) rfl rfl whole here

end Writer

/-! ### The final pass with a reporter -/

/-- A reporter is told the lines of the pass, and the pass goes on as without it. -/
theorem foldl_reportStep (statements : List Statement) (lines : List Line) (state : State)
    (reporter : Option Writer) :
    statements.foldl reportStep
        ((lines, state), reporter.map fun w => lines.reverse.foldl Writer.line w) =
      let run := statements.foldl (passStep true) (lines, state)
      (run, reporter.map fun w => run.1.reverse.foldl Writer.line w) := by
  induction statements generalizing lines state with
  | nil => rfl
  | cons s rest ih =>
    have told : reportStep
        ((lines, state), reporter.map fun w => lines.reverse.foldl Writer.line w) s =
        (passStep true (lines, state) s, reporter.map fun w =>
          ((s.assemble true state).1 :: lines).reverse.foldl Writer.line w) := by
      cases reporter <;> simp [reportStep, passStep]
    rw [List.foldl_cons, List.foldl_cons, told]
    exact ih _ _

/-- The assembly is the same with and without a reporter, which is told its lines and symbols. -/
theorem assembleWith_eq (files : List SourceFile) (state : State) (reporter : Option Writer) :
    let a := Assembly.run files state
    let finished := reporter.map fun w => (a.lines.foldl Writer.line w).finish a.state.symbols
    let returned := finished.bind (·.1)
    assembleWith files state reporter = ⟨a, finished.map (·.2), returned, a.fault returned⟩ := by
  have told := foldl_reportStep (program files) []
    { (settle (program files) state).2 with
      symbols := (settle (program files) state).2.symbols.clearReferences
      code := (settle (program files) state).2.code.reset } reporter
  simp only [List.reverse_nil, List.foldl_nil, Option.map_id'] at told
  unfold assembleWith
  dsimp only
  rw [told]
  cases reporter <;> rfl

namespace Writer

/-- Lines are written to the listing, and their errors are collected. -/
theorem foldl_line (w : Writer) (lines : List Line) :
    lines.foldl line w = { w.printAll (listingWrites lines) with
      errors := w.errors ++ lines.flatMap Line.diagnostics } := by
  induction lines generalizing w with
  | nil => simp [listingWrites, printAll]
  | cons l rest ih =>
    have step : w.printAll (listingWrites (l :: rest)) =
        (w.print ⟨.listing, Listing.text (Listing.entry l)⟩).printAll (listingWrites rest) := rfl
    rw [List.foldl_cons, ih, step, line, print_errors, printAll_errors]
    simp

theorem finish_lines (sinks : Destination → Option Sink) (lines : List Line) (t : SymbolTable) :
    let w := (new sinks).printAll (allWrites lines t)
    ((lines.foldl line (new sinks)).finish t) =
      (w.error, { w with errors := lines.flatMap Line.diagnostics }) := by
  simp only [finish, foldl_line, printAll_errors, allWrites, printAll_append]
  rfl

end Writer

theorem assembleWith_new (files : List SourceFile) (state : State)
    (sinks : Destination → Option Sink) :
    let a := Assembly.run files state
    let w := (Writer.new sinks).printAll (allWrites a.lines a.state.symbols)
    assembleWith files state (some (.new sinks)) =
      ⟨a, some { w with errors := a.diagnostics }, w.error, a.fault w.error⟩ := by
  rw [assembleWith_eq]
  simp only [Option.map_some, Option.bind_some, Writer.finish_lines]
  rfl

/-- The writes of a new writer end with the report, or before the first that fails. -/
theorem Writer.new_ends (sinks : Destination → Option Sink) (lines : List Line) (t : SymbolTable) :
    Ends sinks (writes (fun d => (sinks d).isSome) lines t) 0
      ((new sinks).printAll (allWrites lines t)) :=
  printAll_ends (new sinks) rfl (allWrites lines t)

/-- Destinations that never fail, where the given ones are present. -/
def reliable (sinks : Destination → Option Sink) : Destination → Option Sink :=
  fun d => (sinks d).map fun _ _ => none

theorem Writer.made_reliable (sinks : Destination → Option Sink) (lines : List Line)
    (t : SymbolTable) :
    ((new (reliable sinks)).printAll (allWrites lines t)).made =
      writes (fun d => (sinks d).isSome) lines t := by
  have same : (fun d => (reliable sinks d).isSome) = fun d => (sinks d).isSome :=
    funext fun _ => Option.isSome_map
  have ends := new_ends (reliable sinks) lines t
  rw [same] at ends
  cases ends with
  | complete _ made _ => exact made
  | stopped n e _ _ fails _ =>
    obtain ⟨x, sink, -, present, failed⟩ := writeError_eq_some fails
    obtain ⟨_, -, rfl⟩ := Option.map_eq_some_iff.mp present
    contradiction

/-- A write fails for want of room only. -/
theorem Writer.error_roomSinks (present : Destination → Bool) (room : Room) (cause : Bytes)
    (lines : List Line) (t : SymbolTable) :
    let w := (new (roomSinks present room cause)).printAll (allWrites lines t)
    w.error = if w.error.isSome then some cause else none := by
  intro w
  cases new_ends (roomSinks present room cause) lines t with
  | complete error _ _ => rw [show w.error = none from error]; rfl
  | stopped n e error _ fails _ =>
    obtain ⟨x, sink, -, here, failed⟩ := writeError_eq_some fails
    have same : e = cause := by
      simp only [roomSinks, Option.ite_none_right_eq_some, Option.some.injEq] at here
      obtain ⟨-, rfl⟩ := here
      simp only [Sink.ofRoom, Option.ite_none_right_eq_some, Option.some.injEq] at failed
      exact failed.2.symm
    rw [show w.error = some e from error, same]
    rfl

/-- Failures of a report are sticky and do not disturb the assembly, in a first or a repeated call.
A reporter changes neither the result nor the symbols. Its writes are those of a reporter whose
destinations never fail, up to the first that fails; the error of that one is returned, and none if
all are made. The errors of the lines are collected in any case. The assembly fails with the error
of the report if there is one, also where symbols are unresolved, and else as without a reporter.
For destinations that take a number of writes and then fail, the writes are those that
`Report.deliver` makes. -/
theorem report_failures_sticky (files : List SourceFile) (state : State)
    (sinks : Destination → Option Sink) :
    let a := Assembly.run files state
    let ws := writes (fun d => (sinks d).isSome) a.lines a.state.symbols
    let alone := assembleWith files state none
    let run := assembleWith files state (some (.new sinks))
    (alone.assembly = a ∧ alone.fault = a.fault none ∧ run.assembly = a) ∧
    (∃ w, (assembleWith files state (some (.new (reliable sinks)))).reporter = some w ∧
      w.made = ws) ∧
    (∃ w, run.reporter = some w ∧ w.errors = a.diagnostics ∧
      (run.returned = none ∧ w.made = ws ∧ (∀ n, Writer.writeError sinks ws n = none) ∧
          run.fault = alone.fault ∨
        ∃ n e, run.returned = some e ∧ w.made = ws.take n ∧
          Writer.writeError sinks ws n = some e ∧
          (∀ m < n, Writer.writeError sinks ws m = none) ∧
          run.fault.map (·.message) = some (ascii "write report: " ++ e))) ∧
    ∀ present room cause,
      let limited := assembleWith files state (some (.new (roomSinks present room cause)))
      let delivery := deliver room (writes present a.lines a.state.symbols)
      limited.reporter.map (·.made) = some delivery.made ∧
        limited.returned = (if delivery.failed then some cause else none) ∧
        limited.fault = a.fault limited.returned := by
  intro a ws alone run
  have plain : alone = ⟨a, none, none, a.fault none⟩ := assembleWith_eq files state none
  have told : run = _ := assembleWith_new files state sinks
  have ends := Writer.new_ends sinks a.lines a.state.symbols
  rw [told, plain]
  refine ⟨⟨rfl, rfl, rfl⟩, ?_, ⟨_, rfl, rfl, ?_⟩, ?_⟩
  · rw [assembleWith_new]
    exact ⟨_, rfl, Writer.made_reliable sinks a.lines a.state.symbols⟩
  · cases ends with
    | complete error made taken =>
      exact .inl ⟨error, made, fun n => taken n (Nat.zero_le n), congrArg a.fault error⟩
    | stopped n e error made fails taken =>
      refine .inr ⟨n, e, error, made, fails, fun m less => taken m (Nat.zero_le m) less, ?_⟩
      dsimp only
      rw [error]
      rfl
  · intro present room cause
    have delivered := Writer.deliver_eq present room cause (allWrites a.lines a.state.symbols)
    dsimp only
    rw [assembleWith_new, writes, delivered]
    exact ⟨rfl, Writer.error_roomSinks present room cause a.lines a.state.symbols, rfl⟩

/-- The second line of a listing does not fit, where a symbol is unresolved as well. -/
example :
    let files := [SourceFile.ofText (ascii "t.asm") (ascii "ORG 0\nJMP L\n")]
    let sinks := roomSinks (· ≠ .symbols) ⟨some 1, none, none⟩ (ascii "disk full")
    let run := assembleWith files .empty (some (.new sinks))
    run.assembly.unresolved = 1 ∧
      run.reporter.map (·.made.length) = some 1 ∧
      run.fault.map (·.message) = some (ascii "write report: disk full") := by
  decide +kernel

end Assembler8080
