import Std.Data.TreeSet
import Assembler8080.Image
import Assembler8080.Fault
import Assembler8080.Statement

/-! Assembling a line: its operands get their values from the symbols and the address as they are
before the line; then its label is defined and its code is emitted. -/
namespace Assembler8080

structure State where
  symbols : SymbolTable
  code : Image

namespace State

def empty : State := ⟨.empty, .empty⟩

instance : Inhabited State := ⟨empty⟩

def environment (s : State) : Environment := ⟨s.code.address, s.symbols.denoted⟩

end State

structure Line where
  statement : Statement
  operands : List Operand
  faults : List LineFault
  bytes : Bytes
  start : Value

namespace Line

def location (l : Line) : Location := l.statement.location

def diagnostics (l : Line) : List Diagnostic := l.faults.map (·.diagnostic l.location)

def endsProgram (l : Line) : Bool := l.statement.endsProgram

end Line

namespace Operand

def faults (o : Operand) : List LineFault :=
  match o.fault with
  | none => []
  | some fault => [⟨o.column, if o.text.isEmpty then .noOperand fault else .operand fault o.text⟩]

/-- The register M, read without a fault. -/
def isMemory (o : Operand) : Bool := o.fault.isNone && o.value == some memoryRegister

end Operand

namespace Command

def operands (env : Environment) (c : Command) : List Operand :=
  c.sources.operands.map (·.operand env)

def shapeFaults : Shape → List Operand → List LineFault
  | .targetSource, [dst, src] =>
    if dst.isMemory && src.isMemory then [⟨dst.column, .memoryToMemory⟩] else []
  | .unknown, _ => [⟨0, .unknownShape .unknown⟩]
  | _, _ => []

def operandFaults (shape : Shape) (sources : OperandSources) (operands : List Operand) :
    List LineFault :=
  operands.flatMap Operand.faults
    ++ (sources.missingComma.map fun column => LineFault.mk column .missingComma).toList
    ++ shapeFaults shape operands

def readFaults (c : Command) (operands : List Operand) : List LineFault :=
  operandFaults c.instruction.shape c.sources operands
    ++ (c.unexpected.map fun (column, text) => LineFault.mk column (.unexpectedText text)).toList

/-- The value of the one operand of a directive, if it is right. -/
def wordOperand (operands : List Operand) : Value :=
  match operands with
  | [o] => if o.fault.isNone then o.value else none
  | _ => none

def labelValue (operation : Option Operation) (operands : List Operand) (address : Value) : Value :=
  match operation with
  | some (.directive .org) | some (.directive .equ) => wordOperand operands
  | _ => address

structure Emission where
  code : Image
  bytes : Bytes
  faults : List LineFault

def nothing (code : Image) (faults : List LineFault) : Emission := ⟨code, [], faults⟩

/-- A directive whose operand is right but has no value. -/
def unresolvedFaults (mnemonic : Bytes) (operands : List Operand) : List LineFault :=
  match operands with
  | [o] => if o.fault.isNone then [⟨o.column, .needsResolved mnemonic o.text⟩] else []
  | _ => []

def opcodeWith (opcode : UInt8) (operands : List Operand) : UInt8 :=
  operands.foldl (fun code o => code ||| o.opcodeBits) opcode

def encoding (operation : Operation) (operands : List Operand) : Bytes :=
  match operation with
  | .machine opcode => opcodeWith opcode operands :: operands.flatMap (·.bytes)
  | .directive _ => operands.flatMap (·.bytes)

/-- Emits an encoding. A line that is right so far must fill the size of its instruction. -/
def emitEncoding (i : Instruction) (operands : List Operand) (right : Bool) (code : Image) :
    Emission :=
  if code.address.isNone then nothing code [⟨0, .codeBeforeOrigin⟩]
  else
    let bytes := encoding i.operation operands
    let mismatch := 0 < i.size && right && bytes.length != i.size
    ⟨code.emitAll bytes, bytes,
      if mismatch then [⟨0, .sizeMismatch i.mnemonic bytes.length i.size⟩] else []⟩

/-- Obeys a command; `right` says that the line has no fault so far. -/
def emit (i : Instruction) (operands : List Operand) (right : Bool) (code : Image) :
    Emission :=
  match i.operation with
  | .directive .finish => nothing code []
  | .directive .org =>
    match wordOperand operands with
    | some w => nothing (code.setAddress w) []
    | none => nothing code (unresolvedFaults i.mnemonic operands)
  | .directive .equ =>
    match wordOperand operands with
    | some _ => nothing code []
    | none => nothing code (unresolvedFaults i.mnemonic operands)
  | .directive .ds =>
    match wordOperand operands with
    | some w =>
      if code.address.isNone then nothing code [⟨0, .blockBeforeOrigin⟩]
      else nothing (code.skip w) []
    | none => nothing code (unresolvedFaults i.mnemonic operands)
  | .machine _ | .directive .db | .directive .dw => emitEncoding i operands right code

end Command

namespace SymbolTable

/-- Looks up a label that a line uses; the final pass keeps the place. -/
def use (final : Bool) (location : Location) (t : SymbolTable) (r : Reference) : SymbolTable :=
  match t.refer r with
  | (t, some key) => if final then t.addReference key location else t
  | (t, none) => t

/-- Gives a declared label its value. A label that has a value does not lose it. -/
def define (t : SymbolTable) (d : Declaration) (v : Value) : SymbolTable × List LineFault :=
  let found := t.declare d
  match found.fault, found.key with
  | some fault, _ => (found.table, [⟨1, .duplicateLabel fault⟩])
  | none, none => (found.table, [])
  | none, some key =>
    match found.table.get? key with
    | none => (found.table, [])
    | some s =>
      if s.value.isSome && v.isNone then (found.table, [⟨1, .lostValue s.name s.value⟩])
      else (found.table.assign key v, [])

end SymbolTable

namespace Statement

/-- Names met so far, and for each of them the place where it was met first, last one first. -/
def note (met : Std.TreeSet Bytes × List (Nat × Bytes)) (place : Nat × Bytes) :
    Std.TreeSet Bytes × List (Nat × Bytes) :=
  if met.1.contains place.2 then met else (met.1.insert place.2, place :: met.2)

/-- The undefined symbols of a line, each at the first operand that needs it. -/
def undefinedFaults (operands : List Operand) : List LineFault :=
  let places := operands.flatMap fun o => o.undefined.map fun name => (o.column, name)
  (places.foldl note (∅, [])).2.reverse.map
    fun (column, name) => ⟨column, .undefinedSymbol name⟩

def defineLabel (s : Statement) (t : SymbolTable) (v : Value) : SymbolTable × List LineFault :=
  match s.label with
  | some d => t.define d v
  | none => (t, [])

def emit (s : Statement) (operands : List Operand) (right : Bool) (code : Image) :
    Command.Emission :=
  match s.command with
  | some c => Command.emit c.instruction operands right code
  | none => Command.nothing code []

def operands (s : Statement) (env : Environment) : List Operand :=
  match s.command with
  | some c => c.operands env
  | none => []

def readFaults (s : Statement) (operands : List Operand) : List LineFault :=
  match s.command with
  | some c => c.readFaults operands
  | none => []

/-- Assembles a line. Only the final pass reports the symbols that have no value. -/
def assemble (final : Bool) (state : State) (s : Statement) : Line × State :=
  let operands := s.operands state.environment
  let used := s.references.foldl (SymbolTable.use final s.location) state.symbols
  let value := Command.labelValue (s.command.map (·.instruction.operation)) operands
    state.code.address
  let (symbols, labelFaults) := s.defineLabel used value
  let faults := s.readFaults operands ++ labelFaults
  let emission := s.emit operands faults.isEmpty state.code
  let undefined := if final then undefinedFaults operands else []
  (⟨s, operands, faults ++ emission.faults ++ undefined, emission.bytes, state.code.address⟩,
    ⟨symbols, emission.code⟩)

end Statement

end Assembler8080
