import Assembler8080.Bytes

/-! Values: 16-bit words that may not be known yet. A forward reference, an address before the
first origin and an expression over either have no value. -/
namespace Assembler8080

/-- A word, or `none` while it is unresolved. -/
abbrev Value := Option UInt16

namespace Value

def text : Value → Bytes
  | some w => hexWord w ++ ascii "H"
  | none => ascii "undefined"

end Value

def lowByte (w : UInt16) : UInt8 := w.toUInt8

def highByte (w : UInt16) : UInt8 := (w >>> 8).toUInt8

/-- The low byte comes first. -/
def wordBytes (w : UInt16) : Bytes := [lowByte w, highByte w]

end Assembler8080
