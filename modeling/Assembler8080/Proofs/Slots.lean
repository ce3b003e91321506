import Mathlib.Algebra.GroupWithZero.Nat
import Assembler8080.Proofs.Passes
import Assembler8080.Proofs.Reading
import Assembler8080.Proofs.Step

/-! The slots that a shape has for operands, and the size of instructions. Whatever the text is, the
operands that are read fill the slots of the shape one by one, or the first slot alone where the
comma after it is missing (`OperandSources.ofShape_fill`). An operand takes the bytes of its slot
whether it is right or wrong, so the size of a machine instruction is that of its slots
(`Command.length_encoding`), and no line finds that it has emitted another number of bytes
(`Statement.internal_fault`). -/
namespace Assembler8080

/-- What may stand in the place of an operand. -/
inductive OperandSlot where
  | register (bank : RegisterBank)
  | restart | byte | word | byteList | wordList | size
  deriving Repr, DecidableEq

namespace OperandSlot

def isCode : OperandSlot → Bool
  | register _ | restart | byte | word => true
  | byteList | wordList | size => false

/-- The bytes that an operand in the slot of a machine instruction adds to the code. -/
def bytes : OperandSlot → Nat
  | byte => 1
  | word => 2
  | register _ | restart | byteList | wordList | size => 0

end OperandSlot

/-- The slots of a shape, in the order in which their operands are written. -/
def Shape.slots : Shape → List OperandSlot
  | bare | unknown => []
  | target => [.register .target]
  | source => [.register .source]
  | targetSource => [.register .target, .register .source]
  | pair => [.register .pair]
  | stackPair => [.register .stackPair]
  | indexPair => [.register .indexPair]
  | byte => [.byte]
  | word => [.word]
  | targetByte => [.register .target, .byte]
  | pairWord => [.register .pair, .word]
  | restart => [.restart]
  | byteList => [.byteList]
  | wordList => [.wordList]
  | size => [.size]

/-- Of two operands the first is a register. -/
theorem Shape.slots_two {shape : Shape} {first second : OperandSlot}
    (two : shape.slots = [first, second]) : ∃ bank, first = .register bank := by
  cases shape <;> simp only [slots, List.cons.injEq, List.cons_ne_nil, List.nil_eq, and_false]
    at two
  all_goals exact ⟨_, two.1.symm⟩

/-! ### Operands in their slots -/

/-- An operand that may stand in a slot. A restart number can be a digit or an expression. -/
inductive OperandForm.Fills : OperandForm → OperandSlot → Prop where
  | register (bank : RegisterBank) (word : Bytes) : Fills (.register bank word) (.register bank)
  | digit (word : Bytes) : Fills (.register .restart word) .restart
  | restart (e : Expr) : Fills (.restart e) .restart
  | byte (e : Expr) : Fills (.data (.byte e)) .byte
  | word (e : Expr) : Fills (.data (.word e)) .word
  | byteList (items : List DataForm) (text : Bytes) : Fills (.list .byteList items text) .byteList
  | wordList (items : List DataForm) (text : Bytes) : Fills (.list .wordList items text) .wordList
  | size (e : Expr) : Fills (.size e) .size

/-- The operands of a line in the slots of a shape: all slots are filled, or the first of two, and
the comma after it is missing. -/
inductive OperandSources.Fill : OperandSources → List OperandSlot → Prop where
  | all {operands : List OperandSource} {slots : List OperandSlot}
      (filled : List.Forall₂ (fun o slot => o.form.Fills slot) operands slots) :
      Fill ⟨operands, .none⟩ slots
  | first {o : OperandSource} {column : Nat} {slot second : OperandSlot}
      (filled : o.form.Fills slot) : Fill ⟨[o], some column⟩ [slot, second]

namespace OperandSources

open OperandSource DataSource

variable {first second : Reader OperandSource} {slot slot' : OperandSlot}

theorem one_fill (fills : ∀ c, (first.run c).1.form.Fills slot) (c : Cursor) :
    ((one first).run c).1.Fill [slot] :=
  .all (.cons (fills c) .nil)

theorem two_fill (fills : ∀ c, (first.run c).1.form.Fills slot)
    (fills' : ∀ c, (second.run c).1.form.Fills slot') (c : Cursor) :
    ((two first second).run c).1.Fill [slot, slot'] := by
  dsimp only [two]
  split
  · exact .all (.cons (fills c) (.cons (fills' _) .nil))
  · exact .first (fills c)

theorem restart_fills (term : Reader Term) (c : Cursor) :
    ((restart term).run c).1.form.Fills .restart := by
  dsimp only [restart]
  split
  · exact .digit _
  · exact .restart _

theorem ofShape_fill (term : Reader Term) (shape : Shape) (c : Cursor) :
    ((ofShape term shape).run c).1.Fill shape.slots := by
  have register (bank : RegisterBank) (c : Cursor) :
      ((OperandSource.register bank).run c).1.form.Fills (.register bank) := .register bank _
  cases shape with
  | bare | unknown => exact .all .nil
  | target | source | pair | stackPair | indexPair => exact one_fill (register _) c
  | targetSource => exact two_fill (register _) (register _) c
  | byte => exact one_fill (fun _ => .byte _) c
  | word => exact one_fill (fun _ => .word _) c
  | targetByte => exact two_fill (register _) (fun _ => .byte _) c
  | pairWord => exact two_fill (register _) (fun _ => .word _) c
  | restart => exact one_fill (restart_fills term) c
  | byteList => exact one_fill (fun _ => .byteList _ _) c
  | wordList => exact one_fill (fun _ => .wordList _ _) c
  | size => exact one_fill (fun _ => .size _) c

end OperandSources

/-! ### Sizes -/

theorem registerOperand_bytes (bank : RegisterBank) (word : Bytes) (column : Nat) :
    (registerOperand bank word column).bytes = [] := by
  unfold registerOperand
  split <;> rfl

/-- An operand has the bytes of its slot, right or wrong. -/
theorem OperandForm.Fills.length_bytes {s : OperandSource} {slot : OperandSlot}
    (fills : s.form.Fills slot) (code : slot.isCode = true) (env : Environment) :
    (s.operand env).bytes.length = slot.bytes := by
  obtain ⟨column, form⟩ := s
  cases fills with
  | register bank word => exact congrArg List.length (registerOperand_bytes bank word column)
  | digit word => exact congrArg List.length (registerOperand_bytes .restart word column)
  | restart e => exact congrArg List.length (restartOperand_plain env e column).2.2.2
  | byte | word => rfl
  | byteList | wordList | size => contradiction

theorem length_bytes_of_fills {operands : List OperandSource} {slots : List OperandSlot}
    (filled : List.Forall₂ (fun o slot => o.form.Fills slot) operands slots)
    (code : ∀ slot ∈ slots, slot.isCode = true) (env : Environment) :
    ((operands.map (·.operand env)).flatMap (·.bytes)).length =
      (slots.map OperandSlot.bytes).sum := by
  induction filled with
  | nil => rfl
  | cons fills _ ih =>
    rw [List.forall_mem_cons] at code
    simp [fills.length_bytes code.1 env, ← ih code.2]

/-- The size of a machine instruction is one for the opcode and that of its slots. -/
theorem Catalog.machine_slots : ∀ i ∈ Catalog.instructions, i.isDirective = false →
    (∀ slot ∈ i.shape.slots, slot.isCode = true) ∧
      i.size = 1 + (i.shape.slots.map OperandSlot.bytes).sum := by
  decide +kernel

theorem Catalog.two_slots : ∀ i ∈ Catalog.instructions, i.isDirective = false →
    i.shape.slots.length = 2 →
      i.mnemonic = ascii "MVI" ∨ i.mnemonic = ascii "LXI" ∨ i.size = 1 := by
  decide +kernel

theorem Catalog.shape_ne_unknown : ∀ i ∈ Catalog.instructions, i.shape ≠ .unknown := by
  decide +kernel

namespace Command

/-- A command as it is read: the instruction is one of the catalog, and the operands fill the slots
of its shape. -/
structure Listed (c : Command) : Prop where
  instruction : c.instruction ∈ Catalog.instructions
  fill : c.sources.Fill c.instruction.shape.slots

/-- The code of a machine instruction has its size, or is the opcode alone where a comma is
missing. -/
theorem Listed.length_encoding {c : Command} (listed : c.Listed)
    (machine : c.instruction.isDirective = false) (env : Environment) :
    (encoding c.instruction.operation (c.operands env)).length =
      if c.sources.missingComma.isSome then 1 else c.instruction.size := by
  obtain ⟨code, size⟩ := Catalog.machine_slots _ listed.instruction machine
  obtain ⟨⟨mnemonic, shape, operation⟩, sources, unexpected⟩ := c
  cases operation with
  | directive d => contradiction
  | machine opcode =>
    have fill := listed.fill
    dsimp only at fill code size
    simp only [encoding, operands, List.length_cons]
    generalize slots : shape.slots = all at fill code size
    cases fill with
    | all filled =>
      rw [length_bytes_of_fills filled code env]
      simp only [Option.isSome_none, Bool.false_eq_true, if_false, size]
      omega
    | first filled =>
      obtain ⟨bank, rfl⟩ := Shape.slots_two slots
      simpa [OperandSlot.bytes] using filled.length_bytes rfl env

/-- A comma can be missing only between two operands. -/
theorem Listed.slots_of_missingComma {c : Command} (listed : c.Listed)
    (missing : c.sources.missingComma.isSome = true) : c.instruction.shape.slots.length = 2 := by
  obtain ⟨instruction, sources, unexpected⟩ := c
  have fill := listed.fill
  dsimp only at fill missing ⊢
  generalize instruction.shape.slots = slots at fill ⊢
  cases fill with
  | all => contradiction
  | first => rfl

end Command

/-! ### Faults -/

/-- A fault other than a missing comma and those that the assembler finds in itself. -/
def Fault.Ordinary (f : Fault) : Prop := f.kind ≠ .internal ∧ f ≠ .missingComma

namespace Command

theorem operand_ordinary (o : Operand) : ∀ f ∈ o.faults, f.fault.Ordinary := by
  unfold Operand.faults
  split
  · simp
  · split <;> simp [Fault.Ordinary, Fault.kind]

theorem shape_ordinary {shape : Shape} (known : shape ≠ .unknown) (operands : List Operand) :
    ∀ f ∈ shapeFaults shape operands, f.fault.Ordinary := by
  fun_cases shapeFaults shape operands with
  | case1 | case2 | case4 => simp [Fault.Ordinary, Fault.kind]
  | case3 => contradiction

/-- The faults of the text are ordinary, except for a comma that is missing. -/
theorem readFaults_cases {c : Command} (known : c.instruction.shape ≠ .unknown)
    {operands : List Operand} {f : LineFault} (member : f ∈ c.readFaults operands) :
    f.fault.Ordinary ∨ c.sources.missingComma = some f.column ∧ f.fault = .missingComma := by
  simp only [readFaults, operandFaults, List.mem_append, List.mem_flatMap, Option.mem_toList,
    Option.map_eq_some_iff] at member
  rcases member with ((⟨o, -, inside⟩ | ⟨column, missing, rfl⟩) | inside) | ⟨_, -, rfl⟩
  · exact .inl (operand_ordinary o f inside)
  · exact .inr ⟨missing, rfl⟩
  · exact .inl (shape_ordinary known operands f inside)
  · exact .inl (by simp [Fault.Ordinary, Fault.kind])

/-- The faults of the code are ordinary, except for a wrong number of bytes. -/
theorem emit_cases {i : Instruction} {operands : List Operand} {right : Bool} {code : Image}
    {f : LineFault} (member : f ∈ (emit i operands right code).faults) :
    f.fault.Ordinary ∨
      0 < i.size ∧ right = true ∧ (encoding i.operation operands).length ≠ i.size := by
  have unresolved (mnemonic : Bytes) : ∀ f ∈ unresolvedFaults mnemonic operands,
      f.fault.Ordinary := by
    unfold unresolvedFaults
    split
    · split <;> simp [Fault.Ordinary, Fault.kind]
    · simp
  have encoded (member : f ∈ (emitEncoding i operands right code).faults) : f.fault.Ordinary ∨
      0 < i.size ∧ right = true ∧ (encoding i.operation operands).length ≠ i.size := by
    unfold emitEncoding at member
    split at member
    · obtain rfl := List.mem_singleton.mp member
      exact .inl (by simp [Fault.Ordinary, Fault.kind])
    · dsimp only at member
      split at member
      next mismatch => exact .inr (by simpa [and_assoc] using mismatch)
      next => contradiction
  fun_cases emit i operands right code with
  | case1 | case2 | case4 | case7 => simp_all [emit, nothing]
  | case3 | case5 | case8 => exact .inl (unresolved _ f (by simpa [emit, *, nothing] using member))
  | case6 => simp_all [emit, nothing, Fault.Ordinary, Fault.kind]
  | case9 | case10 | case11 => exact encoded (by simpa [emit, *] using member)

end Command

/-- The faults of a definition are ordinary, except for a value that is lost. -/
theorem SymbolTable.define_cases {t : SymbolTable} {d : Declaration} {v : Value} {f : LineFault}
    (member : f ∈ (t.define d v).2) :
    f.fault.Ordinary ∨ ∃ name value, f.fault = .lostValue name value := by
  revert member
  fun_cases define t d v with
  | case1 =>
    intro member
    obtain rfl := List.mem_singleton.mp member
    exact .inl (by simp [Fault.Ordinary, Fault.kind])
  | case2 | case3 | case5 => simp
  | case4 =>
    intro member
    obtain rfl := List.mem_singleton.mp member
    exact .inr ⟨_, _, rfl⟩

namespace Statement

theorem read_listed (scope : Scope) (number : Int) (text : Bytes) {c : Command}
    (command : (read scope number text).1.command = some c) : c.Listed := by
  rw [read_eq] at command
  dsimp only at command
  obtain ⟨listed, d, sources⟩ := command_cases command
  exact ⟨listed, sources ▸ OperandSources.ofShape_fill _ _ d⟩

variable {s : Statement} {final : Bool} {state : State} {f : LineFault}

theorem undefined_ordinary {operands : List Operand} (member : f ∈ undefinedFaults operands) :
    f.fault.Ordinary := by
  simp only [undefinedFaults, List.mem_map] at member
  obtain ⟨_, -, rfl⟩ := member
  simp [Fault.Ordinary, Fault.kind]

theorem readFaults_cases (listed : ∀ c, s.command = some c → c.Listed) {operands : List Operand}
    (member : f ∈ s.readFaults operands) :
    f.fault.Ordinary ∨ f.fault = .missingComma ∧
      ∃ c, s.command = some c ∧ c.sources.missingComma.isSome = true := by
  unfold readFaults at member
  split at member
  next c command =>
    have known := Catalog.shape_ne_unknown _ (listed c command).instruction
    rcases Command.readFaults_cases known member with ordinary | ⟨missing, comma⟩
    · exact .inl ordinary
    · exact .inr ⟨comma, c, command, by simp [missing]⟩
  next => contradiction

/-- A line that is right so far emits as many bytes as its instruction has. -/
theorem emit_ordinary (listed : ∀ c, s.command = some c → c.Listed) {env : Environment}
    {right : Bool} (sound : right = true → s.readFaults (s.operands env) = []) {code : Image}
    (member : f ∈ (s.emit (s.operands env) right code).faults) : f.fault.Ordinary := by
  unfold emit at member
  split at member
  next c command =>
    simp only [operands, readFaults, command] at member sound
    rcases Command.emit_cases member with ordinary | ⟨positive, so_far, mismatch⟩
    · exact ordinary
    · have machine : c.instruction.isDirective = false := by
        by_contra directive
        rw [Bool.not_eq_false] at directive
        simp [Instruction.size, directive] at positive
      have comma : c.sources.missingComma = none := by
        have clean := sound so_far
        simp only [Command.readFaults, Command.operandFaults, List.append_eq_nil_iff] at clean
        simpa using clean.1.1.2
      have size := (listed c command).length_encoding machine env
      simp only [comma, Option.isSome_none, Bool.false_eq_true, if_false] at size
      exact absurd size mismatch
  next => simp [Command.nothing] at member

/-- Where the faults of a line that are not ordinary come from. -/
theorem fault_cases (listed : ∀ c, s.command = some c → c.Listed)
    (member : f ∈ (s.assemble final state).1.faults) :
    f.fault.Ordinary ∨ (∃ name value, f.fault = .lostValue name value) ∨
      f.fault = .missingComma ∧
        ∃ c, s.command = some c ∧ c.sources.missingComma.isSome = true := by
  simp only [assemble, List.mem_append] at member
  rcases member with ((text | label) | code) | undefined
  · rcases readFaults_cases listed text with ordinary | missing
    · exact .inl ordinary
    · exact .inr (.inr missing)
  · unfold defineLabel at label
    split at label
    · rcases SymbolTable.define_cases label with ordinary | lost
      · exact .inl ordinary
      · exact .inr (.inl lost)
    · contradiction
  · refine .inl (emit_ordinary listed (fun right => ?_) code)
    rw [List.isEmpty_iff, List.append_eq_nil_iff] at right
    exact right.1
  · split at undefined
    · exact .inl (undefined_ordinary undefined)
    · contradiction

/-- The assembler finds nothing wrong in itself, except that a label may lose its value. -/
theorem internal_fault (listed : ∀ c, s.command = some c → c.Listed)
    (member : f ∈ (s.assemble final state).1.faults) (internal : f.fault.kind = .internal) :
    ∃ name value, f.fault = .lostValue name value := by
  rcases fault_cases listed member with ordinary | lost | ⟨missing, -⟩
  · exact absurd internal ordinary.1
  · exact lost
  · simp [missing, Fault.kind] at internal

/-- A line reports a missing comma exactly if one is missing in its text. -/
theorem missingComma_mem_iff {c : Command} (command : s.command = some c)
    (listed : ∀ c, s.command = some c → c.Listed) :
    Fault.missingComma ∈ (s.assemble final state).1.faults.map (·.fault) ↔
      c.sources.missingComma.isSome = true := by
  constructor
  · intro reported
    obtain ⟨f, member, comma⟩ := List.mem_map.mp reported
    rcases fault_cases listed member with ordinary | ⟨_, _, lost⟩ | ⟨-, c', command', missing⟩
    · exact absurd comma ordinary.2
    · simp [comma] at lost
    · obtain rfl := Option.some.inj (command.symm.trans command')
      exact missing
  · intro missing
    obtain ⟨column, at_column⟩ := Option.isSome_iff_exists.mp missing
    simp [assemble, readFaults, command, Command.readFaults, Command.operandFaults, at_column]

/-- A machine instruction emits its size, or only its opcode where a comma is missing. -/
theorem length_bytes_machine {c : Command} (command : s.command = some c) (listed : c.Listed)
    (machine : c.instruction.isDirective = false) (defined : state.code.address.isSome = true) :
    (s.assemble final state).1.bytes.length =
      if c.sources.missingComma.isSome then 1 else c.instruction.size := by
  rw [bytes_assemble, command, ← listed.length_encoding machine state.environment]
  obtain ⟨⟨mnemonic, shape, operation⟩, sources, unexpected⟩ := c
  cases operation with
  | directive d => contradiction
  | machine opcode => simp [Command.emittedSize, Option.isSome_iff_ne_none.mp defined]

end Statement

/-- A machine instruction on a line with an address has its size whatever is wrong with the line,
except for an MVI or LXI without its comma, which has one byte. So no line of a program ever reports
that it has emitted the wrong number of bytes, nor a shape whose operands cannot be read. -/
theorem instruction_length_fixed :
    (∀ (scope : Scope) (number : Int) (text : Bytes) (final : Bool) (state : State) (c : Command),
      (Statement.read scope number text).1.command = some c → c.instruction.isDirective = false →
      state.code.address.isSome = true →
      let line := ((Statement.read scope number text).1.assemble final state).1
      line.bytes.length =
        if (c.instruction.mnemonic = ascii "MVI" ∨ c.instruction.mnemonic = ascii "LXI") ∧
          Fault.missingComma ∈ line.faults.map (·.fault) then 1 else c.instruction.size) ∧
      ∀ (files : List SourceFile) (final : Bool) (state : State),
        ∀ line ∈ (pass final (program files) state).1, ∀ f ∈ line.faults,
          (∀ mnemonic emitted wanted, f.fault ≠ .sizeMismatch mnemonic emitted wanted) ∧
            ∀ shape, f.fault ≠ .unknownShape shape := by
  constructor
  · intro scope number text final state c command machine defined
    have listed := fun c command => Statement.read_listed scope number text (c := c) command
    simp only [Statement.missingComma_mem_iff command listed,
      Statement.length_bytes_machine command (listed c command) machine defined]
    by_cases missing : c.sources.missingComma.isSome = true
    · have two := Catalog.two_slots _ (listed c command).instruction machine
        ((listed c command).slots_of_missingComma missing)
      rcases two with mvi | lxi | short
      · simp [missing, mvi]
      · simp [missing, lxi]
      · simp [missing, short]
    · simp [missing]
  · intro files final state line member f reported
    obtain ⟨i, at_i⟩ := List.mem_iff_getElem?.mp member
    rw [getElem?_pass, Option.map_eq_some_iff] at at_i
    obtain ⟨s, inside, same⟩ := at_i
    obtain ⟨scope, number, text, -, read⟩ := program_read (List.mem_of_getElem? inside)
    have listed (c : Command) (command : s.command = some c) : c.Listed := by
      rw [read] at command
      exact Statement.read_listed scope number text command
    rw [← same] at reported
    have internal := Statement.internal_fault listed reported
    constructor
    · intro mnemonic emitted wanted same
      simp [same, Fault.kind] at internal
    · intro shape same
      simp [same, Fault.kind] at internal

/-- `MVI A 5` emits its opcode alone, a program with this line does not report that a byte is
missing, and `MVI Q,(` emits two bytes. -/
theorem instruction_length_fixed_mvi :
    let state : State := ⟨.empty, Image.empty.setAddress 0⟩
    let short := ((Statement.read (.ofFile []) 1 (ascii " MVI A 5")).1.assemble true state).1
    let wrong := ((Statement.read (.ofFile []) 1 (ascii " MVI Q,(")).1.assemble true state).1
    let lines := (pass true (program (sourceFiles [([], ascii " ORG 0\n MVI A 5")])) state).1
    short.bytes.length = 1 ∧ wrong.bytes.length = 2 ∧
      (∃ line ∈ lines, line.faults ≠ [] ∧ line.bytes.length = 1) ∧
      ∀ line ∈ lines, ∀ f ∈ line.faults, f.fault ≠ .sizeMismatch (ascii "MVI") 1 2 := by
  intro state short wrong lines
  have carries : (Statement.read (.ofFile []) 1 (ascii " MVI A 5")).1.command.map (·.instruction) =
      some (Catalog.machine "MVI" 0x06 .targetByte) := by decide +kernel
  have carries' : (Statement.read (.ofFile []) 1 (ascii " MVI Q,(")).1.command.map (·.instruction) =
      some (Catalog.machine "MVI" 0x06 .targetByte) := by decide +kernel
  obtain ⟨c, command, mvi⟩ := Option.map_eq_some_iff.mp carries
  obtain ⟨c', command', mvi'⟩ := Option.map_eq_some_iff.mp carries'
  have opcode := instruction_length_fixed.1 _ _ _ true state c command (by rw [mvi]; rfl) rfl
  have whole := instruction_length_fixed.1 _ _ _ true state c' command' (by rw [mvi']; rfl) rfl
  rw [mvi] at opcode
  rw [mvi'] at whole
  refine ⟨opcode.trans (by decide +kernel), whole.trans (by decide +kernel), by decide +kernel, ?_⟩
  intro line member f reported
  exact (instruction_length_fixed.2 _ _ _ line member f reported).1 _ _ _

end Assembler8080
