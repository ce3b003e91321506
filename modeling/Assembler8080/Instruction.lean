import Assembler8080.Bytes

/-! The instructions of the assembly language: machine instructions of the 8080 and directives to
the assembler. The shape says which operands follow the mnemonic. -/
namespace Assembler8080

/-- Which operands an instruction takes and where they go in its encoding: a target or a restart
number in bits 5 to 3 of the opcode, a source in bits 2 to 0, a pair in bits 5 and 4, and data after
it. -/
inductive Shape where
  | bare
  | target
  | source
  | targetSource
  | pair
  | stackPair
  | indexPair
  | byte
  | word
  | targetByte
  | pairWord
  | restart
  | byteList
  | wordList
  | size
  /-- No shape that the reader of operands knows. -/
  | unknown
  deriving Repr, DecidableEq

namespace Shape

/-- The shapes in the order of their codes. -/
def all : List Shape :=
  [bare, target, source, targetSource, pair, stackPair, indexPair, byte, word, targetByte, pairWord,
    restart, byteList, wordList, size]

def ofCode (code : Int) : Shape :=
  if code < 0 then unknown else (all[code.toNat]?).getD unknown

def name : Shape → Bytes
  | bare => ascii "none"
  | target => ascii "r8-left"
  | source => ascii "r8-right"
  | targetSource => ascii "r8,r8"
  | pair => ascii "r16-sp"
  | stackPair => ascii "r16-psw"
  | indexPair => ascii "r16-bd"
  | byte => ascii "imm8"
  | word => ascii "imm16"
  | targetByte => ascii "r8,imm8"
  | pairWord => ascii "r16-sp,imm16"
  | restart => ascii "rst"
  | byteList => ascii "db-list"
  | wordList => ascii "dw-list"
  | size => ascii "ds-size"
  | unknown => ascii "unknown"

end Shape

inductive Directive where
  | org
  | equ
  | db
  | dw
  | ds
  | finish
  deriving Repr, DecidableEq

/-- What an instruction does: the machine executes its opcode, or the assembler obeys it. -/
inductive Operation where
  | machine (opcode : UInt8)
  | directive (d : Directive)
  deriving Repr, DecidableEq

structure Instruction where
  mnemonic : Bytes
  shape : Shape
  operation : Operation
  deriving Repr, DecidableEq

namespace Instruction

def opcode (i : Instruction) : UInt8 :=
  match i.operation with
  | .machine code => code
  | .directive _ => 0

def isDirective (i : Instruction) : Bool :=
  match i.operation with
  | .machine _ => false
  | .directive _ => true

/-- The bytes of a machine instruction; zero for a directive, whose operands decide. -/
def size (i : Instruction) : Nat :=
  if i.isDirective then 0
  else
    match i.shape with
    | .byte | .targetByte => 2
    | .word | .pairWord => 3
    | _ => 1

def endsProgram (i : Instruction) : Bool := i.operation == .directive .finish

end Instruction

end Assembler8080
