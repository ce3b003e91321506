import Assembler8080.Proofs.Evaluation
import Assembler8080.Proofs.Table

/-! One line of a pass. What it does to the address follows from its operands alone
(`Statement.address_assemble`), it emits as many bytes in one pass as in another
(`Statement.bytes_length_assemble`), and what it does to the symbols is a sequence of uses and then
at most one definition (`Statement.symbols_assemble`). -/
namespace Assembler8080

namespace Statement

def labelWord (s : Statement) (env : Environment) : Value :=
  Command.labelValue (s.command.map (·.instruction.operation)) (s.operands env) env.address

@[simp] theorem start_assemble (final : Bool) (state : State) (s : Statement) :
    (s.assemble final state).1.start = state.code.address := rfl

@[simp] theorem statement_assemble (final : Bool) (state : State) (s : Statement) :
    (s.assemble final state).1.statement = s := rfl

@[simp] theorem operands_assemble (final : Bool) (state : State) (s : Statement) :
    (s.assemble final state).1.operands = s.operands state.environment := rfl

/-- The symbols that a line has looked up, before its label is defined. -/
def used (final : Bool) (s : Statement) (t : SymbolTable) : SymbolTable :=
  s.references.foldl (SymbolTable.use final s.location) t

theorem symbols_assemble (final : Bool) (state : State) (s : Statement) :
    (s.assemble final state).2.symbols =
      (s.defineLabel (s.used final state.symbols) (s.labelWord state.environment)).1 := rfl

/-- The faults of a line are those of its text, of its label and of its code, and in the final pass
those of its symbols; its bytes are those of its code. -/
theorem faults_assemble (final : Bool) (state : State) (s : Statement) :
    ∃ right, (s.assemble final state).1.faults =
      s.readFaults (s.operands state.environment)
        ++ (s.defineLabel (s.used final state.symbols) (s.labelWord state.environment)).2
        ++ (s.emit (s.operands state.environment) right state.code).faults
        ++ (if final then undefinedFaults (s.operands state.environment) else []) ∧
      (s.assemble final state).1.bytes =
        (s.emit (s.operands state.environment) right state.code).bytes := ⟨_, rfl, rfl⟩

end Statement

/-! ### Code -/

namespace Command

def addressAfter (operation : Operation) (operands : List Operand) (address : Value) : Value :=
  match operation with
  | .directive .org => (wordOperand operands).or address
  | .directive .ds => address.map (· + (wordOperand operands).getD 0)
  | .directive .equ | .directive .finish => address
  | .machine _ | .directive .db | .directive .dw =>
    address.map (· + UInt16.ofNat (encoding operation operands).length)

def emittedSize (operation : Operation) (operands : List Operand) (address : Value) : Nat :=
  match operation with
  | .directive .org | .directive .ds | .directive .equ | .directive .finish => 0
  | .machine _ | .directive .db | .directive .dw =>
    if address.isNone then 0 else (encoding operation operands).length

theorem emitEncoding_address (i : Instruction) (operands : List Operand) (right : Bool)
    (code : Image) :
    (emitEncoding i operands right code).code.address =
      code.address.map (· + UInt16.ofNat (encoding i.operation operands).length) := by
  unfold emitEncoding
  cases defined : code.address with
  | none => simp [nothing, defined]
  | some a => simp [Image.address_emitAll defined]

theorem emitEncoding_bytes (i : Instruction) (operands : List Operand) (right : Bool)
    (code : Image) :
    (emitEncoding i operands right code).bytes.length =
      if code.address.isNone then 0 else (encoding i.operation operands).length := by
  unfold emitEncoding
  split <;> rfl

theorem emit_address (i : Instruction) (operands : List Operand) (right : Bool) (code : Image) :
    (emit i operands right code).code.address =
      addressAfter i.operation operands code.address := by
  obtain ⟨mnemonic, shape, operation⟩ := i
  cases operation with
  | machine opcode => exact emitEncoding_address ..
  | directive d =>
    cases d with
    | org =>
      cases word : wordOperand operands <;>
        simp [emit, addressAfter, word, nothing, Image.setAddress]
    | equ => cases word : wordOperand operands <;> simp [emit, addressAfter, word, nothing]
    | db => exact emitEncoding_address ..
    | dw => exact emitEncoding_address ..
    | ds =>
      cases word : wordOperand operands <;> cases defined : code.address <;>
        simp [emit, addressAfter, word, nothing, Image.skip, defined]
    | finish => rfl

theorem emit_bytes (i : Instruction) (operands : List Operand) (right : Bool) (code : Image) :
    (emit i operands right code).bytes.length =
      emittedSize i.operation operands code.address := by
  obtain ⟨mnemonic, shape, operation⟩ := i
  cases operation with
  | machine opcode => exact emitEncoding_bytes ..
  | directive d =>
    cases d with
    | org => cases word : wordOperand operands <;> simp [emit, emittedSize, word, nothing]
    | equ => cases word : wordOperand operands <;> simp [emit, emittedSize, word, nothing]
    | db => exact emitEncoding_bytes ..
    | dw => exact emitEncoding_bytes ..
    | ds =>
      cases word : wordOperand operands <;> cases defined : code.address <;>
        simp [emit, emittedSize, word, nothing, defined]
    | finish => rfl

end Command

namespace Statement

theorem address_assemble (final : Bool) (state : State) (s : Statement) :
    (s.assemble final state).2.code.address =
      match s.command with
      | some c => Command.addressAfter c.instruction.operation (c.operands state.environment)
          state.code.address
      | none => state.code.address := by
  unfold assemble
  dsimp only
  cases command : s.command with
  | none => simp [emit, command, Command.nothing]
  | some c => simp [emit, operands, command, Command.emit_address]

theorem bytes_assemble (final : Bool) (state : State) (s : Statement) :
    (s.assemble final state).1.bytes.length =
      match s.command with
      | some c => Command.emittedSize c.instruction.operation (c.operands state.environment)
          state.code.address
      | none => 0 := by
  unfold assemble
  dsimp only
  cases command : s.command with
  | none => simp [emit, command, Command.nothing]
  | some c => simp [emit, operands, command, Command.emit_bytes]

/-- The number of emitted bytes depends on the pass only through whether there is an address. -/
theorem bytes_length_assemble (s : Statement) (final final' : Bool) {state state' : State}
    (defined : state.code.address.isNone = state'.code.address.isNone) :
    (s.assemble final state).1.bytes.length = (s.assemble final' state').1.bytes.length := by
  rw [bytes_assemble, bytes_assemble]
  cases s.command with
  | none => rfl
  | some c =>
    have alike := forall₂_alike
      (OperandSource.operand_alike state.environment state'.environment) c.sources.operands
    have size := Command.encoding_length c.instruction.operation alike
    dsimp only [Command.emittedSize, Command.operands]
    rw [defined, size]

end Statement

end Assembler8080
