import Assembler8080.Bytes

/-! The registers that instructions name, by the place they take in the opcode. Restart numbers
are encoded in the same way and count as a bank of their own. -/
namespace Assembler8080

inductive RegisterBank where
  | target
  | source
  | pair
  | stackPair
  | indexPair
  | restart
  deriving Repr, DecidableEq

namespace RegisterBank

/-- The spellings of each register, by its number. -/
def names : RegisterBank → List (List Bytes)
  | target | source =>
    [[ascii "B"], [ascii "C"], [ascii "D"], [ascii "E"], [ascii "H"], [ascii "L"], [ascii "M"],
      [ascii "A"]]
  | pair => [[ascii "BC", ascii "B"], [ascii "DE", ascii "D"], [ascii "HL", ascii "H"], [ascii "SP"]]
  | stackPair =>
    [[ascii "BC", ascii "B"], [ascii "DE", ascii "D"], [ascii "HL", ascii "H"], [ascii "PSW"]]
  | indexPair => [[ascii "BC", ascii "B"], [ascii "DE", ascii "D"]]
  | restart =>
    [[ascii "0"], [ascii "1"], [ascii "2"], [ascii "3"], [ascii "4"], [ascii "5"], [ascii "6"],
      [ascii "7"]]

/-- The lowest bit of the opcode that the register number takes. -/
def shift : RegisterBank → UInt8
  | target | restart => 3
  | source => 0
  | pair | stackPair | indexPair => 4

def description : RegisterBank → Bytes
  | target | source => ascii "8-bit register (B, C, D, E, H, L, M or A)"
  | pair => ascii "register pair (BC, DE, HL or SP)"
  | stackPair => ascii "register pair (BC, DE, HL or PSW)"
  | indexPair => ascii "register pair (BC or DE)"
  | restart => ascii "restart number 0-7"

def number? (bank : RegisterBank) (word : Bytes) : Option Nat :=
  bank.names.findIdx? fun row => row.any fun name => name.map Byte.toLower == word.map Byte.toLower

def opcodeBits (bank : RegisterBank) (number : Nat) : UInt8 := UInt8.ofNat number <<< bank.shift

end RegisterBank

/-- The number of M, the byte in memory that HL points at. -/
def memoryRegister : UInt16 := 6

end Assembler8080
