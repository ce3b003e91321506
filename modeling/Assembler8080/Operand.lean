import Assembler8080.Expr

/-! Operands: as they are written, and as they are encoded. What is written does not depend on the
pass; the encoding of an expression is made from its value, with zero bytes in place of a value
that is unresolved or wrong, so the length of an encoding does not depend on the pass either. -/
namespace Assembler8080

inductive OperandKind where
  | absent | target | source | pair | stackPair | indexPair | byte | word | restart
  | byteList | wordList | size
  deriving Repr, DecidableEq

namespace OperandKind

/-- The kinds in the order of their codes. -/
def all : List OperandKind :=
  [absent, target, source, pair, stackPair, indexPair, byte, word, restart, byteList, wordList, size]

def name : OperandKind → Bytes
  | absent => ascii "none"
  | target => ascii "r8-left"
  | source => ascii "r8-right"
  | pair => ascii "r16-sp"
  | stackPair => ascii "r16-psw"
  | indexPair => ascii "r16-bd"
  | byte => ascii "imm8"
  | word => ascii "imm16"
  | restart => ascii "rst"
  | byteList => ascii "db"
  | wordList => ascii "dw"
  | size => ascii "ds"

/-- The name of a code that need not be the code of a kind. -/
def nameOfCode (code : Int) : Bytes :=
  if code < 0 then ascii "unknown" else ((all[code.toNat]?).map name).getD (ascii "unknown")

end OperandKind

def RegisterBank.operandKind : RegisterBank → OperandKind
  | target => .target
  | source => .source
  | pair => .pair
  | stackPair => .stackPair
  | indexPair => .indexPair
  | restart => .restart

/-- An expression on its own has the kind of the value that it starts with. -/
def Expr.kind : Expr → OperandKind
  | missing _ => .absent
  | character _ _ => .byte
  | number _ | label _ | here => .word
  | group inner _ => inner.kind
  | unary _ operand => operand.kind
  | binary _ left _ => left.kind

/-! ### Operands as written -/

inductive DataForm where
  | byte (expr : Expr)
  | word (expr : Expr)
  | string (source : Bytes)
  deriving Repr, DecidableEq

inductive OperandForm where
  /-- A word in the place of a register, known or not. -/
  | register (bank : RegisterBank) (word : Bytes)
  | restart (expr : Expr)
  | data (form : DataForm)
  | list (kind : OperandKind) (items : List DataForm) (text : Bytes)
  | size (expr : Expr)
  deriving Repr, DecidableEq

structure OperandSource where
  column : Nat
  form : OperandForm
  deriving Repr, DecidableEq

def DataForm.references : DataForm → List Reference
  | byte e | word e => e.references
  | string _ => []

def OperandForm.references : OperandForm → List Reference
  | register _ _ => []
  | restart e | size e => e.references
  | data form => form.references
  | list _ items _ => items.flatMap DataForm.references

/-! ### Operands as encoded -/

structure Operand where
  kind : OperandKind
  /-- The text as recognised; empty if nothing was. -/
  text : Bytes
  bytes : Bytes
  value : Value
  opcodeBits : UInt8
  fault : Option OperandFault
  column : Nat
  /-- The symbols that the operand needed and that have no value. -/
  undefined : List Bytes
  deriving Repr, DecidableEq

namespace Evaluation

/-- The word to encode: zero for one that is unresolved or wrong. -/
def placeholder (e : Evaluation) : UInt16 := if e.fault.isSome then 0 else e.value.getD 0

end Evaluation

def Expr.evaluated (env : Environment) (kind : OperandKind) (column : Nat) (e : Expr)
    (v : Evaluation) : Operand :=
  ⟨kind, e.text, [], v.value, 0, v.fault, column, e.undefined env⟩

def quotedBytes (source : Bytes) : Bytes := Lexeme.unescape (source.drop 1).dropLast

namespace DataForm

def operand (env : Environment) (column : Nat) : DataForm → Operand
  | byte e =>
    let v := e.eval env
    { e.evaluated env .byte column v with bytes := [lowByte v.placeholder] }
  | word e =>
    let v := e.eval env
    { e.evaluated env .word column v with bytes := wordBytes v.placeholder }
  | string source => ⟨.byteList, source, quotedBytes source, some 0, 0, none, column, []⟩

end DataForm

def registerOperand (bank : RegisterBank) (word : Bytes) (column : Nat) : Operand :=
  match bank.number? word with
  | some n =>
    ⟨bank.operandKind, word, [], some (UInt16.ofNat n), bank.opcodeBits n, none, column, []⟩
  | none => ⟨bank.operandKind, word, [], none, 0, some (.expected bank), column, []⟩

def restartOperand (env : Environment) (e : Expr) (column : Nat) : Operand :=
  let v := e.eval env
  let plain := e.evaluated env .restart column v
  match v.fault, v.value with
  | none, some n =>
    if 7 < n then { plain with fault := some .restartRange }
    else { plain with opcodeBits := RegisterBank.restart.opcodeBits n.toNat }
  | _, _ => plain

/-- All items of a list in one operand, with the first fault among them. -/
def listOperand (kind : OperandKind) (items : List Operand) (text : Bytes) (column : Nat) :
    Operand :=
  let empty := if items.isEmpty && text.isEmpty then some (.missing .noValue) else none
  ⟨kind, text, items.flatMap (·.bytes), some 0, 0, (items.findSome? (·.fault)).or empty, column,
    items.flatMap (·.undefined)⟩

namespace OperandSource

def operand (env : Environment) (s : OperandSource) : Operand :=
  match s.form with
  | .register bank word => registerOperand bank word s.column
  | .restart e => restartOperand env e s.column
  | .data form => form.operand env s.column
  | .list kind items text => listOperand kind (items.map (·.operand env 0)) text s.column
  | .size e => e.evaluated env .size s.column (e.eval env)

end OperandSource

def Term.operand (env : Environment) (column : Nat) (e : Expr) : Operand :=
  e.evaluated env e.kind column (e.eval env)

end Assembler8080
