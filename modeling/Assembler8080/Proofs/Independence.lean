import Assembler8080.Proofs.Reading
import Assembler8080.Proofs.Step
import Assembler8080.Proofs.WalkOperands

/-! Lines read and assembled in one walk over their text, as in a pass that reads the source anew.
What such a run reads, the shape of its operands, its look-ups and the number of its bytes are those
of the statement, whatever the state (`LineRun.walk_alike_assembled`). Tables that passes reach are
consistent, and there the run of the text is the run of the statement that was read once
(`LineRun.walk_eq_assembled`). The look-ups of a line go from left to right, one for each label in its
operands (`Statement.read_looksUp`). -/
namespace Assembler8080

/-! ### Commands -/

structure WalkedCommand where
  instruction : Instruction
  operands : List Operand
  missingComma : Option Nat
  unexpected : Option (Nat × Bytes)

namespace WalkedCommand

def readFaults (c : WalkedCommand) : List LineFault :=
  c.operands.flatMap Operand.faults
    ++ (c.missingComma.map fun column => LineFault.mk column .missingComma).toList
    ++ Command.shapeFaults c.instruction.shape c.operands
    ++ (c.unexpected.map fun (column, text) => LineFault.mk column (.unexpectedText text)).toList

structure Of (s : Setting) (m : Memory) (walked : WalkedCommand) (c : Command) : Prop where
  instruction : walked.instruction = c.instruction
  operands : Maker.source.MadeAll s m walked.operands c.sources.operands
  missingComma : walked.missingComma = c.sources.missingComma
  unexpected : walked.unexpected = c.unexpected

end WalkedCommand

def Sense.command : Sense (Option WalkedCommand) (Option Command) where
  references c := c.elim [] Command.references
  related s m := Option.Rel (WalkedCommand.Of s m)

/-- The walk over the command at a place of a line. A word that is no mnemonic is left alone. -/
def Walk.command (s : Setting) (term : Walk Found) (m : Memory) (c : Cursor) :
    (Option WalkedCommand × Memory) × Cursor :=
  let start := c.skipBlanks
  let length := Lexeme.letters start.rest
  match Catalog.find? (start.rest.take length) with
  | none => ((none, m), start)
  | some instruction =>
    let read := (ofShape s term instruction.shape m).run (start.advance length)
    let after := read.2.skipBlanks
    ((some ⟨instruction, read.1.1.1, read.1.1.2, Command.unexpected? after⟩, read.1.2),
      Command.skipToComment after)

theorem Walk.command_meets {s : Setting} {scope : Scope} {line : Int} {term : Walk Found}
    {reader : Reader Term} (terms : term.Follows .term s scope line reader) (m : Memory)
    (c : Cursor) :
    Sense.command.Meets s scope line m c (Walk.command s term m c) (Command.read reader c) := by
  refine Sense.Meets.skipBlanks ?_
  dsimp only [Walk.command, Command.read]
  cases Catalog.find? (c.skipBlanks.rest.take (Lexeme.letters c.skipBlanks.rest)) with
  | none => exact ⟨rfl, .move (.refl _), .none⟩
  | some instruction =>
    obtain ⟨place, way, made, comma⟩ := ofShape_follows terms instruction.shape m
      (c.skipBlanks.advance (Lexeme.letters c.skipBlanks.rest))
    dsimp only
    rw [place]
    refine ⟨rfl, way.widen (.advance _ _) ?_, .some ⟨rfl, made, comma, rfl⟩⟩
    exact (Cursor.Reaches.skipBlanks _).trans (.advance _ _)

/-! ### Lines -/

/-- A look-up in the table, with what is looked up. -/
inductive Access where
  | reference (r : Reference)
  | declaration (d : Declaration)
  deriving Repr, DecidableEq

namespace Statement

/-- The look-ups of a line: the labels that it uses, as they are written, and then the label that
it declares. -/
def accesses (x : Statement) : List Access :=
  x.references.map .reference ++ (x.label.map Access.declaration).toList

def stop (scope : Scope) (number : Int) (text : Bytes) : Cursor :=
  let label := readLabel scope number (.atStart text)
  (readComment (Command.read (Term.full label.2.1 number) label.2.2).2).2

end Statement

structure WalkedLine where
  label : Option Declaration
  command : Option WalkedCommand
  comment : Bytes
  stop : Cursor
  scope : Scope
  memory : Memory

def Walk.line (s : Setting) (scope : Scope) (number : Int) (text : Bytes) (m : Memory) :
    WalkedLine :=
  let label := Statement.readLabel scope number (.atStart text)
  let command := Walk.command s (Walk.full s label.2.1 number) m label.2.2
  let comment := Statement.readComment command.2
  ⟨label.1, command.1.1, comment.1, comment.2, label.2.1, command.1.2⟩

namespace WalkedLine

def operands (w : WalkedLine) : List Operand := w.command.elim [] (·.operands)

def readFaults (w : WalkedLine) : List LineFault := w.command.elim [] (·.readFaults)

def operation (w : WalkedLine) : Option Operation := w.command.map (·.instruction.operation)

def defineLabel (w : WalkedLine) (v : Value) : SymbolTable × List LineFault :=
  w.label.elim (w.memory.symbols, []) (w.memory.symbols.define · v)

def emit (w : WalkedLine) (right : Bool) (code : Image) : Command.Emission :=
  w.command.elim (Command.nothing code []) (Command.emit ·.instruction w.operands right code)

structure Of (s : Setting) (m : Memory) (w : WalkedLine) (x : Statement) : Prop where
  label : w.label = x.label
  command : Option.Rel (WalkedCommand.Of s m) w.command x.command
  comment : w.comment = x.comment
  symbols : w.memory.symbols = x.references.foldl (SymbolTable.use s.final s.location) m.symbols

end WalkedLine

namespace Statement

theorem readLabel_reaches (scope : Scope) (number : Int) (c : Cursor) :
    c.Reaches (readLabel scope number c).2.2 := by
  unfold readLabel
  split
  next found => exact Scope.declaration?_reaches found
  next => exact .refl _

theorem readComment_reaches (c : Cursor) : c.Reaches (readComment c).2 := by
  dsimp only [readComment]
  split
  · exact (Cursor.Reaches.skipBlanks c).trans (.advance _ _)
  · exact .skipBlanks c

theorem references_eq (x : Statement) : x.references = Sense.command.references x.command := by
  unfold references
  cases x.command <;> rfl

end Statement

/-- The walk over a line has what is read, makes its way to where the reading stops, and looks up the
labels of what is read. -/
theorem Walk.line_of (s : Setting) (scope : Scope) (number : Int) (text : Bytes) (m : Memory) :
    (Walk.line s scope number text m).Of s m (Statement.read scope number text).1 ∧
      (Walk.line s scope number text m).scope = (Statement.read scope number text).2 ∧
      (Walk.line s scope number text m).stop = Statement.stop scope number text ∧
      Way s (Statement.read scope number text).2 number m (.atStart text)
        (Statement.read scope number text).1.references (Walk.line s scope number text m).memory
        (Statement.stop scope number text) := by
  have path := Statement.readLabel_reaches scope number (.atStart text)
  unfold Walk.line Statement.stop
  rw [Statement.references_eq, Statement.read_eq]
  generalize Statement.readLabel scope number (.atStart text) = label at path ⊢
  obtain ⟨place, way, result⟩ :=
    Walk.command_meets (Walk.full_follows (s := s) label.2.1 number) m label.2.2
  dsimp only
  rw [place]
  have symbols := way.symbols
  refine ⟨⟨rfl, result, rfl, ?_⟩, rfl, rfl, way.widen path (Statement.readComment_reaches _)⟩
  rw [Statement.references_eq]
  exact symbols

namespace WalkedLine

variable {s : Setting} {m : Memory} {w : WalkedLine} {x : Statement}

theorem Of.cases (of : w.Of s m x) : (w.command = none ∧ x.command = none) ∨
    ∃ a c, w.command = some a ∧ x.command = some c ∧ a.Of s m c := by
  have command := of.command
  generalize w.command = walked at command ⊢
  generalize x.command = written at command ⊢
  cases command with
  | none => exact .inl ⟨rfl, rfl⟩
  | some command => exact .inr ⟨_, _, rfl, rfl, command⟩

theorem Of.instruction (of : w.Of s m x) :
    w.command.map (·.instruction) = x.command.map (·.instruction) := by
  obtain ⟨unread, absent⟩ | ⟨a, c, walked, written, command⟩ := of.cases
  · rw [unread, absent]
    rfl
  · rw [walked, written]
    exact congrArg some command.instruction

theorem Of.operation (of : w.Of s m x) :
    w.operation = x.command.map (·.instruction.operation) := by
  have same := congrArg (Option.map Instruction.operation) of.instruction
  rw [Option.map_map, Option.map_map] at same
  exact same

theorem Of.operands_alike (of : w.Of s m x) (env : Environment) :
    List.Forall₂ Operand.Alike w.operands (x.operands env) := by
  unfold operands Statement.operands
  obtain ⟨unread, absent⟩ | ⟨a, c, walked, written, command⟩ := of.cases
  · rw [unread, absent]
    exact .nil
  · rw [walked, written]
    exact command.operands.alike env

/-- The look-ups of a walked line: those on its way, and then the one of the label that it declares. -/
def accesses (w : WalkedLine) : List Access :=
  w.memory.log.map (.reference ·.reference) ++ (w.label.map Access.declaration).toList

theorem Of.accesses (of : w.Of s m x)
    (labels : w.memory.log.map (·.reference) = x.references) : w.accesses = x.accesses := by
  rw [WalkedLine.accesses, Statement.accesses, ← labels, of.label, List.map_map]
  rfl

/-- The number of bytes depends on the state only through whether there is an address. -/
theorem Of.bytes_length (of : w.Of s m x) (right : Bool) (code : Image) (final : Bool)
    {state : State} (defined : code.address.isNone = state.code.address.isNone) :
    (w.emit right code).bytes.length = (x.assemble final state).1.bytes.length := by
  rw [Statement.bytes_assemble, emit]
  have alike := of.operands_alike state.environment
  unfold Statement.operands at alike
  obtain ⟨unread, absent⟩ | ⟨a, c, walked, written, command⟩ := of.cases
  · rw [unread, absent]
    rfl
  · rw [written] at alike ⊢
    rw [walked]
    have size := Command.encoding_length c.instruction.operation alike
    dsimp only [Option.elim_some]
    rw [Command.emit_bytes, command.instruction]
    dsimp only [Command.emittedSize]
    rw [defined, size]

/-- In a consistent table the walk has the operands that the state before the line makes. -/
theorem Of.operands_eq (of : w.Of s m x) (valid : m.symbols.Consistent)
    (proper : ∀ r ∈ x.references, r.toLabel.Proper) : w.operands = x.operands (m.environment s) := by
  unfold operands Statement.operands
  unfold Statement.references at proper
  obtain ⟨unread, absent⟩ | ⟨a, c, walked, written, command⟩ := of.cases
  · rw [unread, absent]
    rfl
  · rw [written] at proper ⊢
    rw [walked]
    exact command.operands.value valid proper

theorem Of.readFaults_eq (of : w.Of s m x) : w.readFaults = x.readFaults w.operands := by
  unfold readFaults operands Statement.readFaults
  obtain ⟨unread, absent⟩ | ⟨a, c, walked, written, command⟩ := of.cases
  · rw [unread, absent]
    rfl
  · rw [walked, written]
    dsimp only [Option.elim_some, WalkedCommand.readFaults, Command.readFaults,
      Command.operandFaults]
    rw [command.instruction, command.missingComma, command.unexpected]

theorem Of.emit_eq (of : w.Of s m x) (right : Bool) (code : Image) :
    w.emit right code = x.emit w.operands right code := by
  unfold emit Statement.emit
  obtain ⟨unread, absent⟩ | ⟨a, c, walked, written, command⟩ := of.cases
  · rw [unread, absent]
    rfl
  · rw [walked, written, Option.elim_some, command.instruction]

theorem Of.defineLabel_eq (of : w.Of s m x) (v : Value) :
    w.defineLabel v = x.defineLabel w.memory.symbols v := by
  unfold defineLabel Statement.defineLabel
  rw [of.label]
  cases x.label <;> rfl

end WalkedLine

/-! ### Two runs -/

structure LineRun where
  label : Option Declaration
  instruction : Option Instruction
  operands : List Operand
  comment : Bytes
  stop : Cursor
  scope : Scope
  accesses : List Access
  start : Value
  faults : List LineFault
  bytes : Bytes
  state : State

namespace LineRun

def endsProgram (r : LineRun) : Bool := r.instruction.any (·.endsProgram)

def ofWalked (final : Bool) (state : State) (w : WalkedLine) : LineRun :=
  let defined := w.defineLabel (Command.labelValue w.operation w.operands state.code.address)
  let faults := w.readFaults ++ defined.2
  let emission := w.emit faults.isEmpty state.code
  let undefined := if final then Statement.undefinedFaults w.operands else []
  { label := w.label
    instruction := w.command.map (·.instruction)
    operands := w.operands
    comment := w.comment
    stop := w.stop
    scope := w.scope
    accesses := w.accesses
    start := state.code.address
    faults := faults ++ emission.faults ++ undefined
    bytes := emission.bytes
    state := ⟨defined.1, emission.code⟩ }

def ofStatement (final : Bool) (state : State) (x : Statement) (stop : Cursor) (scope : Scope) :
    LineRun :=
  let line := x.assemble final state
  { label := line.1.statement.label
    instruction := line.1.statement.command.map (·.instruction)
    operands := line.1.operands
    comment := line.1.statement.comment
    stop := stop
    scope := scope
    accesses := x.accesses
    start := line.1.start
    faults := line.1.faults
    bytes := line.1.bytes
    state := line.2 }

def walked (scope : Scope) (number : Int) (text : Bytes) (final : Bool) (state : State) :
    WalkedLine :=
  Walk.line ⟨final, ⟨scope.file, number⟩, state.code.address⟩ scope number text ⟨state.symbols, []⟩

/-- Assembles a line in one walk over its text. -/
def walk (scope : Scope) (number : Int) (text : Bytes) (final : Bool) (state : State) : LineRun :=
  ofWalked final state (walked scope number text final state)

def assembled (scope : Scope) (number : Int) (text : Bytes) (final : Bool) (state : State) :
    LineRun :=
  ofStatement final state (Statement.read scope number text).1 (Statement.stop scope number text)
    (Statement.read scope number text).2

/-- Runs that differ at most in values, in faults and in the state. -/
structure Alike (a b : LineRun) : Prop where
  label : a.label = b.label
  instruction : a.instruction = b.instruction
  comment : a.comment = b.comment
  ends : a.endsProgram = b.endsProgram
  operands : List.Forall₂ Operand.Alike a.operands b.operands
  stop : a.stop = b.stop
  scope : a.scope = b.scope
  accesses : a.accesses = b.accesses
  size : a.start.isNone = b.start.isNone → a.bytes.length = b.bytes.length

section

variable {s : Setting} {w : WalkedLine} {x : Statement}

theorem ofWalked_alike {m : Memory} (of : w.Of s m x)
    (labels : w.memory.log.map (·.reference) = x.references) (final final' : Bool)
    (state state' : State) :
    (ofWalked final state w).Alike (ofStatement final' state' x w.stop w.scope) where
  label := of.label
  instruction := of.instruction
  comment := of.comment
  ends := congrArg (Option.any Instruction.endsProgram) of.instruction
  operands := of.operands_alike state'.environment
  stop := rfl
  scope := rfl
  accesses := of.accesses labels
  size := of.bytes_length _ _ _

theorem ofWalked_eq {state : State} {final : Bool} {place : Location} (location : x.location = place)
    (of : w.Of ⟨final, place, state.code.address⟩ ⟨state.symbols, []⟩ x)
    (labels : w.memory.log.map (·.reference) = x.references)
    (valid : state.symbols.Consistent) (proper : ∀ r ∈ x.references, r.toLabel.Proper) :
    ofWalked final state w = ofStatement final state x w.stop w.scope := by
  subst location
  have operands : w.operands = x.operands state.environment := of.operands_eq valid proper
  have symbols : w.memory.symbols =
      x.references.foldl (SymbolTable.use final x.location) state.symbols := of.symbols
  unfold ofWalked ofStatement
  dsimp only
  rw [of.readFaults_eq, of.emit_eq, of.defineLabel_eq, of.operation, of.instruction, of.comment,
    of.accesses labels, of.label, symbols, operands]
  rfl

end

/-- The log of a walk that starts with an empty one has the look-ups of the line. -/
theorem walked_of (scope : Scope) (number : Int) (text : Bytes) (final : Bool) (state : State) :
    let w := walked scope number text final state
    w.Of ⟨final, ⟨scope.file, number⟩, state.code.address⟩ ⟨state.symbols, []⟩
        (Statement.read scope number text).1 ∧
      w.scope = (Statement.read scope number text).2 ∧
      w.stop = Statement.stop scope number text ∧
      Marks (Statement.read scope number text).2 number (.atStart text)
        (Statement.stop scope number text) w.memory.log
        (Statement.read scope number text).1.references := by
  obtain ⟨of, next, stop, way⟩ := Walk.line_of ⟨final, ⟨scope.file, number⟩, state.code.address⟩ scope
    number text ⟨state.symbols, []⟩
  exact ⟨of, next, stop, way.log_marks rfl⟩

/-- A walk in one state and the assembly of the statement in any other. -/
theorem walk_alike_assembled (scope : Scope) (number : Int) (text : Bytes) (final final' : Bool)
    (state state' : State) :
    (walk scope number text final state).Alike (assembled scope number text final' state') := by
  obtain ⟨of, next, stop, marks⟩ := walked_of scope number text final state
  have alike := ofWalked_alike of marks.labels final final' state state'
  rw [next, stop] at alike
  exact alike

/-- In a consistent table the walk over a line is the assembly of the statement that is read. -/
theorem walk_eq_assembled {scope : Scope} (above : scope.Proper) (number : Int) (text : Bytes)
    (final : Bool) {state : State} (valid : state.symbols.Consistent) :
    walk scope number text final state = assembled scope number text final state := by
  have location : (Statement.read scope number text).1.location = ⟨scope.file, number⟩ := by
    rw [Statement.read_eq]
  have proper := (Statement.read_proper above number text).references
  obtain ⟨of, next, stop, marks⟩ := walked_of scope number text final state
  have same := ofWalked_eq location of marks.labels valid proper
  rw [next, stop] at same
  exact same

theorem start_walk (scope : Scope) (number : Int) (text : Bytes) (final : Bool) (state : State) :
    (walk scope number text final state).start = state.code.address := rfl

theorem start_ofStatement (final : Bool) (state : State) (x : Statement) (stop : Cursor)
    (scope : Scope) : (ofStatement final state x stop scope).start = state.code.address :=
  x.start_assemble final state

theorem start_assembled (scope : Scope) (number : Int) (text : Bytes) (final : Bool)
    (state : State) : (assembled scope number text final state).start = state.code.address := by
  rw [assembled, start_ofStatement]

theorem Alike.of_common {a b c : LineRun} (left : a.Alike c) (right : b.Alike c)
    (start : b.start = c.start) : a.Alike b where
  label := left.label.trans right.label.symm
  instruction := left.instruction.trans right.instruction.symm
  comment := left.comment.trans right.comment.symm
  ends := left.ends.trans right.ends.symm
  operands := alike_of_common left.operands right.operands
  stop := left.stop.trans right.stop.symm
  scope := left.scope.trans right.scope.symm
  accesses := left.accesses.trans right.accesses.symm
  size defined := by
    rw [left.size (defined.trans (congrArg Option.isNone start)),
      right.size (congrArg Option.isNone start)]

theorem assembled_alike (scope : Scope) (number : Int) (text : Bytes) (final final' : Bool)
    (state state' : State) :
    (assembled scope number text final state).Alike (assembled scope number text final' state') := by
  unfold assembled
  generalize (Statement.read scope number text).1 = x
  exact ⟨rfl, rfl, rfl, rfl, x.operands_alike state.environment state'.environment, rfl, rfl, rfl,
    x.bytes_length_assemble final final'⟩

end LineRun

/-! ### Look-ups of a line -/

theorem Cursor.Reaches.eq_inside {text : Bytes} {c : Cursor} (path : (atStart text).Reaches c) :
    c = inside text c.offset := by
  obtain ⟨n, rfl⟩ := path
  simp only [Cursor.advance, atStart, inside, List.length_take, Nat.zero_add, mk.injEq, true_and]
  rcases Nat.le_total n text.length with inside | beyond
  · rw [Nat.min_eq_left inside]
  · rw [Nat.min_eq_right beyond, List.drop_length, List.drop_eq_nil_of_le beyond]

namespace Statement

/-- The look-ups of labels that a line uses, in a walk over it. -/
def sites (scope : Scope) (number : Int) (text : Bytes) (final : Bool) (state : State) : List Site :=
  (LineRun.walked scope number text final state).memory.log

/-- How a statement that is read from a line looks its labels up, in every pass and state: all that
stand in its operands, and these from left to right, each where it is written. After them comes the
look-up of the label that the line declares. -/
structure LooksUp (s : Statement) (scope : Scope) (number : Int) (text : Bytes) : Prop where
  read : s = (Statement.read scope number text).1
  labels : ∀ final state, (sites scope number text final state).map (·.reference) = s.references
  ordered : ∀ final state, (sites scope number text final state).Pairwise (·.offset < ·.offset)
  written : ∀ final state, ∀ x ∈ sites scope number text final state, ∃ after,
    (Statement.read scope number text).2.reference? number (.inside text x.offset) =
      some (x.reference, after)
  accesses : ∀ final state, (LineRun.walk scope number text final state).accesses =
    (sites scope number text final state).map (.reference ·.reference) ++
      (s.label.map .declaration).toList

theorem read_looksUp (scope : Scope) (number : Int) (text : Bytes) :
    (read scope number text).1.LooksUp scope number text := by
  have walked := LineRun.walked_of scope number text
  have marks (final : Bool) (state : State) := (walked final state).2.2.2
  refine ⟨rfl, fun final state => (marks final state).labels,
    fun final state => (marks final state).ordered, fun final state x member => ?_,
    fun final state => ?_⟩
  · obtain ⟨start, after, path, place, written⟩ := (marks final state).written x member
    rw [← place, ← path.eq_inside]
    exact ⟨after, written⟩
  · rw [← (walked final state).1.label]
    rfl

end Statement

/-- A line of text assembled twice, in any two states, reads the same, has operands of the same
shape, makes the same look-ups and takes the same number of bytes. This holds of a pass that walks
over the text as of one that takes the statement read before, and in a consistent table the two
are the same run. -/
theorem line_independent_of_pass (scope : Scope) (number : Int) (text : Bytes)
    (final final' : Bool) (state state' : State) :
    (LineRun.walk scope number text final state).Alike
      (LineRun.walk scope number text final' state') ∧
    (LineRun.assembled scope number text final state).Alike
      (LineRun.assembled scope number text final' state') ∧
    (scope.Proper → state.symbols.Consistent →
      LineRun.walk scope number text final state =
        LineRun.assembled scope number text final state) := by
  refine ⟨?_, LineRun.assembled_alike .., fun above valid =>
    LineRun.walk_eq_assembled above number text final valid⟩
  exact (LineRun.walk_alike_assembled scope number text final final' state state').of_common
    (LineRun.walk_alike_assembled scope number text final' final' state' state')
    ((LineRun.start_walk ..).trans (LineRun.start_assembled ..).symm)

/-- A line with a label, two uses of labels and a comment. -/
def loadLine : Bytes := ascii "L: LXI H,X+$Y*2 ; load"

/-- Before the first line, with the given address. -/
def freshState (address : UInt16) : State := ⟨.empty, Image.empty.setAddress address⟩

/-- After a line that gives the label `X` a value. -/
def knownState (address : UInt16) : State :=
  ((Statement.read (.ofFile (ascii "t.asm")) 1 (ascii "X EQU 5")).1.assemble false
    (freshState address)).2

theorem line_independent_of_pass_loadLine :
    ((Scope.ofFile (ascii "t.asm")).Proper ∧ (freshState 0).symbols.Consistent ∧
      (LineRun.walk (.ofFile (ascii "t.asm")) 2 loadLine false (freshState 0)).start.isNone =
        (LineRun.walk (.ofFile (ascii "t.asm")) 2 loadLine true (knownState 256)).start.isNone) ∧
    (LineRun.walk (.ofFile (ascii "t.asm")) 2 loadLine false (freshState 0)).bytes.length =
      (LineRun.walk (.ofFile (ascii "t.asm")) 2 loadLine true (knownState 256)).bytes.length ∧
    LineRun.walk (.ofFile (ascii "t.asm")) 2 loadLine false (freshState 0) =
      LineRun.assembled (.ofFile (ascii "t.asm")) 2 loadLine false (freshState 0) := by
  have above := Scope.ofFile_proper (ascii "t.asm")
  have valid : (freshState 0).symbols.Consistent := SymbolTable.empty_consistent
  have start : (LineRun.walk (.ofFile (ascii "t.asm")) 2 loadLine false (freshState 0)).start.isNone =
      (LineRun.walk (.ofFile (ascii "t.asm")) 2 loadLine true (knownState 256)).start.isNone := by
    decide +kernel
  obtain ⟨walks, -, same⟩ := line_independent_of_pass (.ofFile (ascii "t.asm")) 2 loadLine false true
    (freshState 0) (knownState 256)
  exact ⟨⟨above, valid, start⟩, walks.size start, same above valid⟩

end Assembler8080
