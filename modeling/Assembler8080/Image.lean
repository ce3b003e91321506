import Assembler8080.Value

/-! The memory image under construction: every write since the start, newest first, with the
address of the next one and the window of addresses used since the last reset. The window is reset
for each pass and the image is not. -/
namespace Assembler8080

structure Image where
  writes : List (UInt16 × UInt8)
  address : Value
  /-- The lowest and highest address used. -/
  window : Option (UInt16 × UInt16)
  deriving Repr, DecidableEq

namespace Image

def empty : Image := ⟨[], none, none⟩

instance : Inhabited Image := ⟨empty⟩

def reset (b : Image) : Image := { b with address := none, window := none }

def setAddress (b : Image) (a : UInt16) : Image := { b with address := some a }

/-- Leaves out `n` bytes. Without an address there is nothing to move. -/
def skip (b : Image) (n : UInt16) : Image := { b with address := b.address.map (· + n) }

def widen (window : Option (UInt16 × UInt16)) (a : UInt16) : UInt16 × UInt16 :=
  match window with
  | none => (a, a)
  | some (lo, hi) => (if a < lo then a else lo, if hi < a then a else hi)

def markUsed (b : Image) (a : UInt16) : Image :=
  { b with window := some (widen b.window a) }

/-- Stores a byte at the address and moves on. Without an address nothing happens. -/
def emit (b : Image) (data : UInt8) : Image :=
  match b.address with
  | none => b
  | some a => ⟨(a, data) :: b.writes, some (a + 1), some (widen b.window a)⟩

def emitAll (b : Image) (data : Bytes) : Image := data.foldl emit b

def emitWord (b : Image) (data : UInt16) : Image := b.emitAll (wordBytes data)

def emitWords (b : Image) (data : List UInt16) : Image := data.foldl emitWord b

/-- What emitting adds to the bytes of a line: nothing without an address. -/
def emitted (b : Image) (data : Bytes) : Bytes := if b.address.isSome then data else []

/-- The last byte ever stored at an address, zero if there is none. -/
def byteAt (b : Image) (a : UInt16) : UInt8 := (b.writes.lookup a).getD 0

def store (lo : UInt16) (window : Array UInt8) (write : UInt16 × UInt8) : Array UInt8 :=
  if lo ≤ write.1 then window.setIfInBounds (write.1.toNat - lo.toNat) write.2 else window

/-- The image from the lowest to the highest address used. -/
def output (b : Image) : Bytes :=
  match b.window with
  | none => []
  | some (lo, hi) =>
    (b.writes.foldr (fun write window => store lo window write)
      (Array.replicate (hi.toNat - lo.toNat + 1) 0)).toList

/-! ### What the operations do to address and contents -/

theorem emit_of_none {b : Image} (h : b.address = none) (data : UInt8) : b.emit data = b := by
  simp [emit, h]

theorem address_emit {b : Image} {a : UInt16} (h : b.address = some a) (data : UInt8) :
    (b.emit data).address = some (a + 1) := by
  simp [emit, h]

@[simp] theorem emitAll_nil (b : Image) : b.emitAll [] = b := rfl

@[simp] theorem emitAll_cons (b : Image) (data : UInt8) (rest : Bytes) :
    b.emitAll (data :: rest) = (b.emit data).emitAll rest := rfl

theorem emitAll_append (b : Image) (first second : Bytes) :
    b.emitAll (first ++ second) = (b.emitAll first).emitAll second := by
  simp [emitAll]

theorem emitAll_of_none {b : Image} (h : b.address = none) (data : Bytes) : b.emitAll data = b := by
  induction data with
  | nil => rfl
  | cons first rest ih => rw [emitAll_cons, emit_of_none h, ih]

theorem address_emitAll {b : Image} {a : UInt16} (h : b.address = some a) (data : Bytes) :
    (b.emitAll data).address = some (a + UInt16.ofNat data.length) := by
  induction data generalizing b a with
  | nil => simp [h]
  | cons first rest ih =>
    rw [emitAll_cons, ih (address_emit h first), List.length_cons]
    simp [UInt16.ofNat_add, UInt16.add_assoc, UInt16.add_comm 1]

end Image

end Assembler8080
