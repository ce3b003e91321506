import Assembler8080.Bytes

/-! The operators of operand expressions, on 16-bit words with wrap-around. A comparison gives all
ones for true and zero for false. -/
namespace Assembler8080

def truthWord (b : Bool) : UInt16 := if b then 0xFFFF else 0

/-- The lowest five bits of a shift count are used; sixteen places or more leave nothing. -/
def shiftCount (w : UInt16) : UInt16 := w &&& 0x1F

inductive BinaryOp where
  | equal | notEqual | atMost | atLeast | shiftLeft | shiftRight | below | above
  | or | xor | and | add | sub | mul | div | mod
  deriving Repr, DecidableEq

namespace BinaryOp

/-- A symbol that starts with another one comes before it, so that the longest is found first. -/
def all : List BinaryOp :=
  [equal, notEqual, atMost, atLeast, shiftLeft, shiftRight, below, above,
    or, xor, and, add, sub, mul, div, mod]

def symbol : BinaryOp → Bytes
  | equal => ascii "=="
  | notEqual => ascii "!="
  | atMost => ascii "<="
  | atLeast => ascii ">="
  | shiftLeft => ascii "<<"
  | shiftRight => ascii ">>"
  | below => ascii "<"
  | above => ascii ">"
  | or => ascii "|"
  | xor => ascii "^"
  | and => ascii "&"
  | add => ascii "+"
  | sub => ascii "-"
  | mul => ascii "*"
  | div => ascii "/"
  | mod => ascii "%"

/-- The binding strength: an operator of a higher level binds tighter. -/
def level : BinaryOp → Nat
  | or | xor => 0
  | and => 1
  | equal | notEqual | atMost | atLeast | below | above => 2
  | shiftLeft | shiftRight => 3
  | add | sub => 4
  | mul | div | mod => 5

def levels : Nat := 6

def apply (op : BinaryOp) (a b : UInt16) : UInt16 :=
  match op with
  | equal => truthWord (a == b)
  | notEqual => truthWord (a != b)
  | atMost => truthWord (a ≤ b)
  | atLeast => truthWord (b ≤ a)
  | below => truthWord (a < b)
  | above => truthWord (b < a)
  | shiftLeft => if shiftCount b < 16 then a <<< shiftCount b else 0
  | shiftRight => if shiftCount b < 16 then a >>> shiftCount b else 0
  | or => a ||| b
  | xor => a ^^^ b
  | and => a &&& b
  | add => a + b
  | sub => a - b
  | mul => a * b
  | div => if b == 0 then 0 else a / b
  | mod => if b == 0 then 0 else a % b

/-- Division and remainder have no result for the divisor zero. -/
def divides : BinaryOp → Bool
  | div | mod => true
  | _ => false

def first? (s : Bytes) : Option BinaryOp := all.find? (·.symbol.isPrefixOf s)

theorem symbol_length_pos (op : BinaryOp) : 0 < op.symbol.length := by
  cases op <;> decide

theorem symbol_isPrefix {s : Bytes} {op : BinaryOp} (h : first? s = some op) : op.symbol <+: s := by
  have := List.find?_some h
  simpa using this

end BinaryOp

inductive UnaryOp where
  | negate | plus | complement | not
  deriving Repr, DecidableEq

namespace UnaryOp

def all : List UnaryOp := [negate, plus, complement, not]

def symbol : UnaryOp → Bytes
  | negate => ascii "-"
  | plus => ascii "+"
  | complement => ascii "~"
  | not => ascii "!"

/-- Unary operators bind tighter than every binary one. -/
def level : Nat := BinaryOp.levels

def apply (op : UnaryOp) (a : UInt16) : UInt16 :=
  match op with
  | negate => 0 - a
  | plus => a
  | complement => ~~~a
  | not => truthWord (a == 0)

/-- Both values are needed, though the operator looks at the first only. -/
def applyValues (op : UnaryOp) (a b : Option UInt16) : Option UInt16 :=
  b.bind fun _ => a.map op.apply

def first? (s : Bytes) : Option UnaryOp := all.find? (·.symbol.isPrefixOf s)

end UnaryOp

end Assembler8080
