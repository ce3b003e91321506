import Mathlib.Data.List.Sections
import Assembler8080.Proofs.Placeholders
import Assembler8080.Proofs.Slots

/-! Machine code can be read back. The opcode byte of an instruction is its opcode with the numbers
of its registers; over all instructions and all numbers that a line without a fault can have, no
byte comes up twice (`opcodeReadings_nodup`). So the first byte gives the instruction and the
registers, and the bytes after it give the data (`Line.Machine.sameCode`). -/
namespace Assembler8080

/-! ### Operands of machine instructions -/

namespace OperandSlot

def kind : OperandSlot → OperandKind
  | register bank => bank.operandKind
  | restart => .restart
  | byte => .byte
  | word => .word
  | byteList => .byteList
  | wordList => .wordList
  | size => .size

def bank? : OperandSlot → Option RegisterBank
  | register bank => some bank
  | restart => some .restart
  | byte | word | byteList | wordList | size => none

/-- What goes into the opcode of a value; the opcode knows nothing of data. -/
def number (slot : OperandSlot) (w : UInt16) : UInt16 := if slot.bank?.isSome then w else 0

def numbers (slot : OperandSlot) : List UInt16 :=
  match slot.bank? with
  | some bank => (List.range bank.names.length).map UInt16.ofNat
  | none => [0]

def opcodeBits (slot : OperandSlot) (number : UInt16) : UInt8 :=
  match slot.bank? with
  | some bank => bank.opcodeBits number.toNat
  | none => 0

def data (slot : OperandSlot) (w : UInt16) : Bytes :=
  match slot with
  | byte => [lowByte w]
  | word => wordBytes w
  | register _ | restart | byteList | wordList | size => []

theorem length_data (slot : OperandSlot) (w w' : UInt16) :
    (slot.data w).length = (slot.data w').length := by
  cases slot <;> rfl

end OperandSlot

def Operand.word (o : Operand) : UInt16 := o.value.getD 0

structure OperandSlot.Takes (slot : OperandSlot) (o : Operand) : Prop where
  code : slot.isCode = true
  right : o.fault = none
  kind : o.kind = slot.kind
  value : o.value = some o.word
  number : slot.number o.word ∈ slot.numbers
  opcodeBits : o.opcodeBits = slot.opcodeBits (slot.number o.word)
  bytes : o.bytes = slot.data o.word

section Operands

variable {env : Environment}

theorem RegisterBank.number?_lt {bank : RegisterBank} {word : Bytes} {n : Nat}
    (found : bank.number? word = some n) : n < bank.names.length :=
  (List.findIdx?_eq_some_iff_findIdx_eq.mp found).1

theorem RegisterBank.length_names_le (bank : RegisterBank) : bank.names.length ≤ 8 := by
  cases bank <;> decide

theorem takes_register {slot : OperandSlot} {bank : RegisterBank} {word : Bytes} {column : Nat}
    (own : slot.bank? = some bank) (code : slot.isCode = true)
    (kind : slot.kind = bank.operandKind)
    (data : ∀ w, slot.data w = [])
    (right : (registerOperand bank word column).fault = none) :
    slot.Takes (registerOperand bank word column) := by
  unfold registerOperand at right ⊢
  split at right
  next n found =>
    have bound := RegisterBank.number?_lt found
    have small : n % 65536 = n := by
      have := bank.length_names_le
      omega
    refine ⟨code, rfl, kind.symm, rfl, ?_, ?_, (data _).symm⟩
    · simpa [OperandSlot.numbers, OperandSlot.number, own, Operand.word] using ⟨n, bound, rfl⟩
    · simp [OperandSlot.opcodeBits, OperandSlot.number, own, Operand.word, small]
  next => contradiction

/-- An operand without a fault whose expressions have values is one that its slot takes. -/
theorem OperandForm.Fills.takes {s : OperandSource} {slot : OperandSlot}
    (fills : s.form.Fills slot) (code : slot.isCode = true) (right : (s.operand env).fault = none)
    (resolved : s.form.Every (Expr.Resolved env)) : slot.Takes (s.operand env) := by
  obtain ⟨column, form⟩ := s
  cases fills with
  | register bank word => exact takes_register rfl rfl rfl (fun _ => rfl) right
  | digit word => exact takes_register rfl rfl rfl (fun _ => rfl) right
  | restart e =>
    obtain ⟨w, value⟩ := resolved
    unfold OperandSource.operand restartOperand at right ⊢
    simp only [value] at right ⊢
    split at right
    next => contradiction
    next small =>
      have bound : w.toNat < 8 := by
        have := UInt16.not_lt.mp small
        exact Nat.lt_succ_of_le this
      simp only [small, if_false]
      refine ⟨rfl, rfl, rfl, rfl, ?_, rfl, rfl⟩
      simp only [OperandSlot.numbers, OperandSlot.bank?, List.mem_map, List.mem_range]
      exact ⟨w.toNat, bound, UInt16.ofNat_toNat⟩
  | byte e | word e =>
    obtain ⟨w, value⟩ := resolved
    simp only [OperandSource.operand, DataForm.operand, value]
    exact ⟨rfl, rfl, rfl, rfl, List.mem_singleton.mpr rfl, rfl, rfl⟩
  | byteList | wordList | size => contradiction

theorem takes_of_fills {operands : List OperandSource} {slots : List OperandSlot}
    (filled : List.Forall₂ (fun o slot => o.form.Fills slot) operands slots)
    (code : ∀ slot ∈ slots, slot.isCode = true)
    (right : ∀ o ∈ operands, (o.operand env).fault = none)
    (resolved : ∀ o ∈ operands, o.form.Every (Expr.Resolved env)) :
    List.Forall₂ (fun o slot => slot.Takes o) (operands.map (·.operand env)) slots := by
  induction filled with
  | nil => exact .nil
  | cons fills _ ih =>
    rw [List.forall_mem_cons] at code right resolved
    exact .cons (fills.takes code.1 right.1 resolved.1) (ih code.2 right.2 resolved.2)

end Operands

/-! ### Opcodes -/

def Instruction.opcodeByte (i : Instruction) (numbers : List UInt16) : UInt8 :=
  (i.shape.slots.zipWith OperandSlot.opcodeBits numbers).foldl (· ||| ·) i.opcode

/-- All numbers that the slots of an instruction can have together; a move from memory to memory is
none. -/
def Instruction.choices (i : Instruction) : List (List UInt16) :=
  (i.shape.slots.map OperandSlot.numbers).sections.filter fun numbers =>
    !(i.shape == .targetSource && numbers == [memoryRegister, memoryRegister])

/-- All ways to read a byte as an instruction and the numbers of its slots. -/
def opcodeReadings : List (UInt8 × Instruction × List UInt16) :=
  (Catalog.instructions.filter fun i => !i.isDirective).flatMap fun i =>
    i.choices.map fun numbers => (i.opcodeByte numbers, i, numbers)

/-- Whether no byte of a list comes up twice, nor one whose bit in `seen` is set. -/
def distinctFrom (seen : Nat) : List UInt8 → Bool
  | [] => true
  | b :: rest => !seen.testBit b.toNat && distinctFrom (seen ||| 1 <<< b.toNat) rest

theorem nodup_of_distinctFrom {seen : Nat} {bytes : List UInt8}
    (distinct : distinctFrom seen bytes = true) :
    bytes.Nodup ∧ ∀ b ∈ bytes, seen.testBit b.toNat = false := by
  induction bytes generalizing seen with
  | nil => simp
  | cons b rest ih =>
    simp only [distinctFrom, Bool.and_eq_true, Bool.not_eq_true'] at distinct
    obtain ⟨new, apart⟩ := distinct
    obtain ⟨nodup, unseen⟩ := ih apart
    simp only [Nat.testBit_or, Nat.one_shiftLeft, Nat.testBit_two_pow, Bool.or_eq_false_iff,
      decide_eq_false_iff_not] at unseen
    refine ⟨List.nodup_cons.mpr ⟨fun again => (unseen b again).2 rfl, nodup⟩, ?_⟩
    rw [List.forall_mem_cons]
    exact ⟨new, fun b' member => (unseen b' member).1⟩

theorem opcodeReadings_nodup : (opcodeReadings.map Prod.fst).Nodup := by
  have distinct : distinctFrom 0 (opcodeReadings.map Prod.fst) = true := by decide +kernel
  exact (nodup_of_distinctFrom distinct).1

theorem opcodeReading_unique {b : UInt8} {i i' : Instruction} {numbers numbers' : List UInt16}
    (reading : (b, i, numbers) ∈ opcodeReadings) (reading' : (b, i', numbers') ∈ opcodeReadings) :
    i = i' ∧ numbers = numbers' := by
  have same := List.inj_on_of_nodup_map opcodeReadings_nodup reading reading' rfl
  simpa using same

def slotNumbers (operands : List Operand) (slots : List OperandSlot) : List UInt16 :=
  slots.zipWith (fun slot o => slot.number o.word) operands

section Takes

variable {operands operands' : List Operand} {slots : List OperandSlot}

theorem slotNumbers_mem (takes : List.Forall₂ (fun o slot => slot.Takes o) operands slots) :
    slotNumbers operands slots ∈ (slots.map OperandSlot.numbers).sections := by
  rw [List.mem_sections, List.forall₂_map_right_iff]
  induction takes with
  | nil => exact .nil
  | cons first _ ih => exact .cons first.number ih

/-- Operands that do not move from memory to memory have one of the choices of numbers. -/
theorem slotNumbers_mem_choices {i : Instruction}
    (takes : List.Forall₂ (fun o slot => slot.Takes o) operands i.shape.slots)
    (moves : Command.shapeFaults i.shape operands = []) :
    slotNumbers operands i.shape.slots ∈ i.choices := by
  refine List.mem_filter.mpr ⟨slotNumbers_mem takes, ?_⟩
  by_contra both
  simp only [Bool.not_eq_true', Bool.not_eq_false, Bool.and_eq_true, beq_iff_eq] at both
  obtain ⟨shape, numbers⟩ := both
  rw [shape] at takes moves numbers
  obtain _ | ⟨target, _ | ⟨source, _ | _⟩⟩ := takes
  simp only [slotNumbers, Shape.slots, List.zipWith_cons_cons, List.zipWith_nil_left,
    OperandSlot.number, OperandSlot.bank?, Option.isSome_some, if_true, List.cons.injEq,
    and_true] at numbers
  simp [Command.shapeFaults, Operand.isMemory, target.right, source.right, target.value,
    source.value, numbers] at moves

theorem opcodeWith_eq (takes : List.Forall₂ (fun o slot => slot.Takes o) operands slots)
    (opcode : UInt8) :
    Command.opcodeWith opcode operands =
      (slots.zipWith OperandSlot.opcodeBits (slotNumbers operands slots)).foldl (· ||| ·)
        opcode := by
  induction takes generalizing opcode with
  | nil => rfl
  | cons first _ ih =>
    simp only [Command.opcodeWith, slotNumbers, List.foldl_cons, List.zipWith_cons_cons,
      first.opcodeBits]
    exact ih _

end Takes

/-! ### Lines -/

/-- A line that a final pass assembles without a fault and that carries a machine instruction. -/
structure Line.Machine (l : Line) (i : Instruction) : Prop where
  assembled : ∃ (scope : Scope) (number : Int) (text : Bytes) (state : State),
    l = ((Statement.read scope number text).1.assemble true state).1
  carries : l.statement.command.map (·.instruction) = some i
  machine : i.isDirective = false
  clean : l.faults = []

/-- Operands of one kind; those whose numbers go into the opcode have the same value. -/
structure Operand.SameNumber (o o' : Operand) : Prop where
  kind : o.kind = o'.kind
  value : o.kind ≠ .byte → o.kind ≠ .word → o.value = o'.value

/-- Operands of one kind with the same value, of a byte in its low half. -/
structure Operand.SameCode (o o' : Operand) : Prop where
  kind : o.kind = o'.kind
  value : ∃ w w', o.value = some w ∧ o'.value = some w' ∧
    if o.kind = .byte then w.toNat % 256 = w'.toNat % 256 else w = w'

theorem wordBytes_injective {w w' : UInt16} (same : wordBytes w = wordBytes w') : w = w' := by
  simp only [wordBytes, List.cons.injEq, and_true] at same
  have low := congrArg UInt8.toNat same.1
  have high := congrArg UInt8.toNat same.2
  simp [lowByte, highByte, Nat.shiftRight_eq_div_pow] at low high
  apply UInt16.toNat.inj
  have bound := w.toNat_lt
  have bound' := w'.toNat_lt
  omega

namespace OperandSlot.Takes

variable {slot : OperandSlot} {o o' : Operand}

theorem sameNumber (takes : slot.Takes o) (takes' : slot.Takes o')
    (number : slot.number o.word = slot.number o'.word) : o.SameNumber o' := by
  refine ⟨takes.kind.trans takes'.kind.symm, fun byte word => ?_⟩
  have code := takes.code
  rw [takes.kind] at byte word
  rw [takes.value, takes'.value]
  cases slot with
  | register bank => exact congrArg some number
  | restart => exact congrArg some number
  | byte => exact absurd rfl byte
  | word => exact absurd rfl word
  | byteList | wordList | size => contradiction

theorem sameCode (takes : slot.Takes o) (takes' : slot.Takes o')
    (number : slot.number o.word = slot.number o'.word) (data : o.bytes = o'.bytes) :
    o.SameCode o' := by
  refine ⟨takes.kind.trans takes'.kind.symm, o.word, o'.word, takes.value, takes'.value, ?_⟩
  have code := takes.code
  rw [takes.bytes, takes'.bytes] at data
  rw [takes.kind]
  cases slot with
  | register bank =>
    have other : bank.operandKind ≠ .byte := by cases bank <;> simp [RegisterBank.operandKind]
    simpa [OperandSlot.kind, OperandSlot.number, OperandSlot.bank?, other] using number
  | restart => simpa [OperandSlot.kind, OperandSlot.number, OperandSlot.bank?] using number
  | byte =>
    have low : lowByte o.word = lowByte o'.word := List.singleton_inj.mp data
    simpa [OperandSlot.kind, lowByte] using congrArg UInt8.toNat low
  | word => simpa [OperandSlot.kind] using wordBytes_injective data
  | byteList | wordList | size => contradiction

end OperandSlot.Takes

section Takes

variable {operands operands' : List Operand} {slots : List OperandSlot}

theorem forall₂_sameNumber (takes : List.Forall₂ (fun o slot => slot.Takes o) operands slots)
    (takes' : List.Forall₂ (fun o slot => slot.Takes o) operands' slots)
    (numbers : slotNumbers operands slots = slotNumbers operands' slots) :
    List.Forall₂ Operand.SameNumber operands operands' := by
  induction takes generalizing operands' with
  | nil =>
    cases takes'
    exact .nil
  | cons first _ ih =>
    obtain _ | ⟨first', rest'⟩ := takes'
    obtain ⟨number, numbers⟩ := List.cons.inj numbers
    exact .cons (first.sameNumber first' number) (ih rest' numbers)

theorem forall₂_sameCode (takes : List.Forall₂ (fun o slot => slot.Takes o) operands slots)
    (takes' : List.Forall₂ (fun o slot => slot.Takes o) operands' slots)
    (numbers : slotNumbers operands slots = slotNumbers operands' slots)
    (data : operands.flatMap (·.bytes) = operands'.flatMap (·.bytes)) :
    List.Forall₂ Operand.SameCode operands operands' := by
  induction takes generalizing operands' with
  | nil =>
    cases takes'
    exact .nil
  | cons first _ ih =>
    obtain _ | ⟨first', rest'⟩ := takes'
    obtain ⟨number, numbers⟩ := List.cons.inj numbers
    -- The slot alone decides how many bytes are of its operand.
    rw [List.flatMap_cons, List.flatMap_cons, first.bytes, first'.bytes] at data
    obtain ⟨own, data⟩ := List.append_inj data (OperandSlot.length_data _ _ _)
    rw [← first.bytes, ← first'.bytes] at own
    exact .cons (first.sameCode first' number own) (ih rest' numbers data)

end Takes

namespace Statement

variable {s : Statement} {state : State} {c : Command}

/-- A line without a fault has all the operands of its instruction, in their slots, and does not
move from memory to memory. -/
theorem takes_clean (command : s.command = some c) (listed : c.Listed) (shaped : c.Shaped)
    (machine : c.instruction.isDirective = false) (clean : (s.assemble true state).1.faults = []) :
    List.Forall₂ (fun o slot => slot.Takes o) (c.operands state.environment)
        c.instruction.shape.slots ∧
      Command.shapeFaults c.instruction.shape (c.operands state.environment) = [] := by
  obtain ⟨parts, -⟩ := parts_of_clean clean
  obtain ⟨resolved, -⟩ := command_clean command shaped clean
  obtain ⟨code, -⟩ := Catalog.machine_slots _ listed.instruction machine
  have read : c.readFaults (c.operands state.environment) = [] := by
    obtain ⟨right, faults, -⟩ := s.faults_assemble true state
    rw [clean] at faults
    simp_all [readFaults, operands]
  simp only [Command.readFaults, Command.operandFaults, List.append_eq_nil_iff] at read
  obtain ⟨⟨⟨-, comma⟩, moves⟩, -⟩ := read
  refine ⟨?_, moves⟩
  simp only [operands, command] at parts
  have right o (member : o ∈ c.sources.operands) :=
    (parts (o.operand state.environment) (List.mem_map_of_mem member)).1
  obtain ⟨instruction, sources, unexpected⟩ := c
  have fill := listed.fill
  dsimp only at fill code comma
  generalize instruction.shape.slots = slots at fill code ⊢
  cases fill with
  | all filled => exact takes_of_fills filled code right resolved
  | first => simp at comma

end Statement

theorem Command.encoding_machine {i : Instruction} (machine : i.isDirective = false)
    (operands : List Operand) :
    encoding i.operation operands = opcodeWith i.opcode operands :: operands.flatMap (·.bytes) := by
  obtain ⟨mnemonic, shape, operation⟩ := i
  cases operation with
  | machine opcode => rfl
  | directive d => contradiction

/-- A machine instruction in a line without a fault emits its encoding. -/
theorem Statement.bytes_clean {s : Statement} {state : State} {c : Command}
    (command : s.command = some c) (shaped : c.Shaped) (machine : c.instruction.isDirective = false)
    (clean : (s.assemble true state).1.faults = []) :
    (s.assemble true state).1.bytes =
      Command.encoding c.instruction.operation (c.operands state.environment) := by
  obtain ⟨-, obeyed⟩ := obeyed_clean command shaped.word shaped.size clean
  generalize (s.assemble true state).1.bytes = bytes at obeyed ⊢
  cases obeyed with
  | emits => rfl
  | assigns directive => rcases directive with org | equ <;> simp_all [Instruction.isDirective]
  | reserves directive | ends directive => simp [Instruction.isDirective, directive] at machine

namespace Line.Machine

variable {l l' : Line} {i i' : Instruction}

theorem code (line : l.Machine i) :
    List.Forall₂ (fun o slot => slot.Takes o) l.operands i.shape.slots ∧
      (i.opcodeByte (slotNumbers l.operands i.shape.slots), i,
        slotNumbers l.operands i.shape.slots) ∈ opcodeReadings ∧
      l.bytes = i.opcodeByte (slotNumbers l.operands i.shape.slots) ::
        l.operands.flatMap (·.bytes) := by
  obtain ⟨⟨scope, number, text, state, same⟩, carries, machine, clean⟩ := line
  rw [same] at carries clean ⊢
  rw [Statement.statement_assemble, Option.map_eq_some_iff] at carries
  obtain ⟨c, command, rfl⟩ := carries
  have listed := Statement.read_listed scope number text command
  have shaped := Statement.read_shaped scope number text c command
  generalize (Statement.read scope number text).1 = s at command clean ⊢
  obtain ⟨takes, moves⟩ := Statement.takes_clean command listed shaped machine clean
  have operands : (s.assemble true state).1.operands = c.operands state.environment := by
    simp [Statement.operands, command]
  rw [operands]
  refine ⟨takes, ?_, ?_⟩
  · refine List.mem_flatMap.mpr ⟨c.instruction, ?_, ?_⟩
    · simpa [machine] using listed.instruction
    · exact List.mem_map.mpr ⟨_, slotNumbers_mem_choices takes moves, rfl⟩
  · rw [Statement.bytes_clean command shaped machine clean, Command.encoding_machine machine,
      opcodeWith_eq takes]
    rfl

/-- The first byte of a line says which instruction it is and which registers it has. -/
theorem numbers_eq (line : l.Machine i) (line' : l'.Machine i')
    (first : l.bytes.head? = l'.bytes.head?) :
    i = i' ∧ slotNumbers l.operands i.shape.slots = slotNumbers l'.operands i'.shape.slots := by
  obtain ⟨-, reading, bytes⟩ := line.code
  obtain ⟨-, reading', bytes'⟩ := line'.code
  rw [bytes, bytes', List.head?_cons, List.head?_cons, Option.some_inj] at first
  rw [first] at reading
  exact opcodeReading_unique reading reading'

end Line.Machine

/-- Machine code is unambiguous. Of two lines that carry machine instructions and are assembled
without a fault, the first bytes are the same only if the mnemonics are, and the registers and
restart numbers one by one; and all bytes are the same only if so is the data, a byte in its low
half. -/
theorem machine_code_unambiguous {l l' : Line} {i i' : Instruction} (line : l.Machine i)
    (line' : l'.Machine i') :
    (l.bytes.head? = l'.bytes.head? → i.mnemonic = i'.mnemonic ∧
      List.Forall₂ Operand.SameNumber l.operands l'.operands) ∧
    (l.bytes = l'.bytes → i.mnemonic = i'.mnemonic ∧
      List.Forall₂ Operand.SameCode l.operands l'.operands) := by
  obtain ⟨takes, -, bytes⟩ := line.code
  obtain ⟨takes', -, bytes'⟩ := line'.code
  constructor
  · intro first
    obtain ⟨rfl, numbers⟩ := line.numbers_eq line' first
    exact ⟨rfl, forall₂_sameNumber takes takes' numbers⟩
  · intro same
    obtain ⟨rfl, numbers⟩ := line.numbers_eq line' (congrArg List.head? same)
    rw [bytes, bytes'] at same
    exact ⟨rfl, forall₂_sameCode takes takes' numbers (List.cons.inj same).2⟩

/-- `MVI A,255` and `mvi a , -1` have the same bytes. -/
theorem machine_code_unambiguous_mvi :
    let state : State := ⟨.empty, Image.empty.setAddress 0⟩
    let l := ((Statement.read (.ofFile []) 1 (ascii " MVI A,255")).1.assemble true state).1
    let l' := ((Statement.read (.ofFile []) 1 (ascii " mvi a , -1")).1.assemble true state).1
    l.bytes = l'.bytes ∧ l.operands.map (·.value) ≠ l'.operands.map (·.value) ∧
      List.Forall₂ Operand.SameCode l.operands l'.operands := by
  intro state l l'
  have line : l.Machine (Catalog.machine "MVI" 0x06 .targetByte) :=
    ⟨⟨_, _, _, _, rfl⟩, by decide +kernel, by decide +kernel, by decide +kernel⟩
  have line' : l'.Machine (Catalog.machine "MVI" 0x06 .targetByte) :=
    ⟨⟨_, _, _, _, rfl⟩, by decide +kernel, by decide +kernel, by decide +kernel⟩
  have same : l.bytes = l'.bytes := by decide +kernel
  exact ⟨same, by decide +kernel, ((machine_code_unambiguous line line').2 same).2⟩

end Assembler8080
