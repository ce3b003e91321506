import Assembler8080.Bytes

/-! The characters of a byte string: UTF-8 where the bytes are well formed, and single stray
bytes where they are not. Padding and quoting count characters; nothing else does. -/
namespace Assembler8080

/-- A Unicode scalar value with the bytes that encode it, or a byte that belongs to none. -/
inductive Character where
  | scalar (code : Nat) (encoding : Bytes)
  | stray (byte : UInt8)
  deriving Repr, DecidableEq

namespace Character

def size : Character → Nat
  | scalar _ encoding => encoding.length
  | stray _ => 1

/-- The scalar value; a stray byte reads as the replacement character. -/
def code : Character → Nat
  | scalar c _ => c
  | stray _ => 0xFFFD

def isContinuation (b : UInt8) : Bool := 0x80 ≤ b && b ≤ 0xBF

def isPair (a b : UInt8) : Bool := 0xC2 ≤ a && a ≤ 0xDF && isContinuation b

/-- Three bytes that encode a scalar value: not one that fits in two bytes and no surrogate. -/
def isTriple (a b c : UInt8) : Bool :=
  0xE0 ≤ a && a ≤ 0xEF && isContinuation b && isContinuation c
    && !(a == 0xE0 && b < 0xA0) && !(a == 0xED && 0x9F < b)

/-- Four bytes that encode a scalar value: not one that fits in three bytes, none above 10FFFF. -/
def isQuadruple (a b c d : UInt8) : Bool :=
  0xF0 ≤ a && a ≤ 0xF4 && isContinuation b && isContinuation c && isContinuation d
    && !(a == 0xF0 && b < 0x90) && !(a == 0xF4 && 0x8F < b)

def first (a : UInt8) (rest : Bytes) : Character :=
  if Byte.isAscii a then scalar a.toNat [a]
  else
    match rest with
    | [] => stray a
    | b :: rest =>
      if isPair a b then
        scalar ((a.toNat - 0xC0) * 0x40 + (b.toNat - 0x80)) [a, b]
      else
        match rest with
        | [] => stray a
        | c :: rest =>
          if isTriple a b c then
            scalar ((a.toNat - 0xE0) * 0x1000 + (b.toNat - 0x80) * 0x40 + (c.toNat - 0x80))
              [a, b, c]
          else
            match rest with
            | [] => stray a
            | d :: _ =>
              if isQuadruple a b c d then
                scalar ((a.toNat - 0xF0) * 0x40000 + (b.toNat - 0x80) * 0x1000
                  + (c.toNat - 0x80) * 0x40 + (d.toNat - 0x80)) [a, b, c, d]
              else stray a

/-- Reads on after `skip` bytes, with the characters before them in `seen`, last one first. -/
def read (seen : List Character) (skip : Nat) : Bytes → List Character
  | [] => seen.reverse
  | a :: rest =>
    match skip with
    | 0 => let c := first a rest; read (c :: seen) (c.size - 1) rest
    | skip + 1 => read seen skip rest

end Character

namespace Bytes

def characters (s : Bytes) : List Character := Character.read [] 0 s

/-- The number of columns a text takes: one for each character. -/
def width (s : Bytes) : Nat := (characters s).length

def padTo (columns : Nat) (s : Bytes) : Bytes := s ++ blanks (columns - width s)

end Bytes

end Assembler8080
