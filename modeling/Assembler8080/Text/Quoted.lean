import Assembler8080.Text.Character
import Assembler8080.Text.Printable

/-! Quoted text for messages. Printable characters stand for themselves; the quotation mark, the
backslash and everything that cannot be seen are escaped. -/
namespace Assembler8080.Text

def lowerHexDigit (n : Nat) : UInt8 := UInt8.ofNat (if n < 10 then 0x30 + n else 0x57 + n)

/-- The last `count` hexadecimal digits of a number, before the digits `tail`. -/
def lowerHexOnto (tail : Bytes) : Nat → Nat → Bytes
  | 0, _ => tail
  | count + 1, n => lowerHexOnto (lowerHexDigit (n % 16) :: tail) count (n / 16)

def lowerHex (count n : Nat) : Bytes := lowerHexOnto [] count n

/-- A part of a quoted text: seen as it is, or an escape sequence. -/
inductive Fragment where
  | plain (bytes : Bytes)
  | escape (bytes : Bytes)

namespace Fragment

def bytes : Fragment → Bytes
  | plain b => b
  | escape b => b

def isPlain : Fragment → Bool
  | plain _ => true
  | escape _ => false

end Fragment

/-- The letter of the control characters that have one. -/
def controlLetter? : Nat → Option UInt8
  | 0x07 => some 0x61
  | 0x08 => some 0x62
  | 0x09 => some 0x74
  | 0x0A => some 0x6E
  | 0x0B => some 0x76
  | 0x0C => some 0x66
  | 0x0D => some 0x72
  | _ => none

def escapeHead (letter : UInt8) : Bytes := [Byte.backslash, letter]

def fragment (mark : UInt8) : Character → Fragment
  | .stray b => .escape (escapeHead 0x78 ++ lowerHex 2 b.toNat)
  | .scalar code encoding =>
    if code == mark.toNat || code == Byte.backslash.toNat then
      .escape (Byte.backslash :: encoding)
    else if isPrintable code then .plain encoding
    else
      match controlLetter? code with
      | some letter => .escape (escapeHead letter)
      | none =>
        if code < 0x20 || code == 0x7F then .escape (escapeHead 0x78 ++ lowerHex 2 code)
        else if code < 0x10000 then .escape (escapeHead 0x75 ++ lowerHex 4 code)
        else .escape (escapeHead 0x55 ++ lowerHex 8 code)

def fragments (s : Bytes) : List Fragment := s.characters.map (fragment Byte.doubleQuote)

def quote (s : Bytes) : Bytes :=
  Byte.doubleQuote :: ((fragments s).flatMap Fragment.bytes ++ [Byte.doubleQuote])

/-- A character below 256 between single quotation marks. -/
def quoteLatin (b : UInt8) : Bytes :=
  let encoding := if Byte.isAscii b then [b] else [0xC0 + b / 0x40, 0x80 + b % 0x40]
  Byte.singleQuote ::
    ((fragment Byte.singleQuote (.scalar b.toNat encoding)).bytes ++ [Byte.singleQuote])

end Assembler8080.Text
