import Mathlib.Data.List.Induction
import Assembler8080.Proofs.Contents
import Assembler8080.Proofs.DataLists

/-! An image after any sequence of operations. Where the next byte goes is told by the operations alone
(`Step.move`), and so is what they store (`storesFrom`) and which addresses they use since the last
reset (`used`). The image keeps to this history after every operation (`History.step`); its window,
its bytes and its output are read off it. -/
namespace Assembler8080

namespace Image

inductive Step where
  | reset
  | setAddress (a : UInt16)
  | skip (n : UInt16)
  | markUsed (a : UInt16)
  | emit (data : UInt8)
  | emitWord (data : UInt16)
  | emitAll (data : Bytes)
  | emitWords (data : List UInt16)
  deriving Repr, DecidableEq

/-! ### Images and what is collected -/

/-- Stores a byte and adds it to those collected before. Without an address nothing happens. -/
def collect (before : Image × Bytes) (data : UInt8) : Image × Bytes :=
  match before.1.address with
  | none => before
  | some _ => (before.1.emit data, before.2 ++ [data])

def collectWord (before : Image × Bytes) (data : UInt16) : Image × Bytes :=
  collect (collect before (lowByte data)) (highByte data)

namespace Step

def apply (b : Image) : Step → Image
  | reset => b.reset
  | setAddress a => b.setAddress a
  | skip n => b.skip n
  | markUsed a => b.markUsed a
  | emit data => b.emit data
  | emitWord data => b.emitWord data
  | emitAll data => b.emitAll data
  | emitWords data => b.emitWords data

/-- An operation on an image and on the bytes that its emissions are collected in, one by one. -/
def perform (before : Image × Bytes) : Step → Image × Bytes
  | emit data => collect before data
  | emitWord data => collectWord before data
  | emitAll data => data.foldl collect before
  | emitWords data => data.foldl collectWord before
  | s => (s.apply before.1, before.2)

def data : Step → Bytes
  | emit data => [data]
  | emitWord data => littleEndian data
  | emitAll data => data
  | emitWords data => data.flatMap littleEndian
  | reset | setAddress _ | skip _ | markUsed _ => []

def emits : Step → Bool
  | emit _ | emitWord _ | emitAll _ | emitWords _ => true
  | reset | setAddress _ | skip _ | markUsed _ => false

def isRelative : Step → Bool
  | skip _ => true
  | s => s.emits

end Step

def run (steps : List Step) : Image := steps.foldl Step.apply empty

theorem emitWords_eq (b : Image) (data : List UInt16) :
    b.emitWords data = b.emitAll (data.flatMap wordBytes) := by
  induction data generalizing b with
  | nil => rfl
  | cons first rest ih =>
    have step : b.emitWords (first :: rest) = (b.emitWord first).emitWords rest := rfl
    rw [step, ih, List.flatMap_cons, emitAll_append]
    rfl

/-- Every emission stores its bytes one after the other. -/
theorem Step.apply_emits {s : Step} (emits : s.emits = true) (b : Image) :
    s.apply b = b.emitAll s.data := by
  cases s with
  | emit data => rfl
  | emitWord data => simp [apply, Step.data, Image.emitWord, wordBytes_eq]
  | emitAll data => rfl
  | emitWords data => simp [apply, Step.data, emitWords_eq, funext wordBytes_eq]
  | reset | setAddress | skip | markUsed => simp [Step.emits] at emits

theorem foldl_collect (b : Image) (out data : Bytes) :
    data.foldl collect (b, out) = (b.emitAll data, out ++ b.emitted data) := by
  induction data generalizing b out with
  | nil => simp [emitted]
  | cons first rest ih =>
    rw [List.foldl_cons]
    cases defined : b.address with
    | none =>
      have idle : collect (b, out) first = (b, out) := by simp [collect, defined]
      rw [idle, ih, emitAll_of_none defined, emitAll_of_none defined]
      simp [emitted, defined]
    | some a =>
      have stored : collect (b, out) first = (b.emit first, out ++ [first]) := by
        simp [collect, defined]
      rw [stored, ih]
      simp [emitted, defined, address_emit defined]

theorem foldl_collectWord (before : Image × Bytes) (data : List UInt16) :
    data.foldl collectWord before = (data.flatMap wordBytes).foldl collect before := by
  induction data generalizing before with
  | nil => rfl
  | cons first rest ih =>
    rw [List.foldl_cons, ih, List.flatMap_cons, List.foldl_append]
    rfl

theorem Step.perform_eq (b : Image) (out : Bytes) (s : Step) :
    s.perform (b, out) = (s.apply b, out ++ b.emitted s.data) := by
  have words : wordBytes = littleEndian := funext wordBytes_eq
  cases s with
  | emit data => exact foldl_collect b out [data]
  | emitWord data =>
    rw [Step.data, ← wordBytes_eq]
    exact foldl_collect b out (wordBytes data)
  | emitAll data => exact foldl_collect b out data
  | emitWords data =>
    simp only [perform, apply, Step.data, foldl_collectWord, foldl_collect, emitWords_eq, words]
  | reset | setAddress | skip | markUsed => simp [perform, Step.data, emitted]

/-! ### Histories -/

namespace Step

def move (address : Value) : Step → Value
  | reset => none
  | setAddress a => some a
  | skip n => address.map (· + n)
  | markUsed _ => address
  | s => address.map (· + UInt16.ofNat s.data.length)

def stores (address : Value) (s : Step) : Writes := address.elim [] (Writes.layOut · s.data)

/-- The addresses that an operation uses: where it stores, or the one that it marks. -/
def uses (address : Value) : Step → List UInt16
  | markUsed a => [a]
  | s => (s.stores address).addresses

end Step

def addressAfter (address : Value) (steps : List Step) : Value := steps.foldl Step.move address

def storesFrom (address : Value) : List Step → Writes
  | [] => []
  | s :: rest => s.stores address ++ storesFrom (s.move address) rest

def usesFrom (address : Value) : List Step → List UInt16
  | [] => []
  | s :: rest => s.uses address ++ usesFrom (s.move address) rest

def sinceReset (steps : List Step) : List Step :=
  (steps.reverse.takeWhile (· != .reset)).reverse

/-- The addresses used since the last reset, which leaves no address to go on from. -/
def used (steps : List Step) : List UInt16 := usesFrom none (sinceReset steps)

theorem storesFrom_concat (address : Value) (steps : List Step) (s : Step) :
    storesFrom address (steps ++ [s]) =
      storesFrom address steps ++ s.stores (addressAfter address steps) := by
  induction steps generalizing address with
  | nil => simp [storesFrom, addressAfter]
  | cons first rest ih => simp [storesFrom, addressAfter, ih]

theorem usesFrom_concat (address : Value) (steps : List Step) (s : Step) :
    usesFrom address (steps ++ [s]) =
      usesFrom address steps ++ s.uses (addressAfter address steps) := by
  induction steps generalizing address with
  | nil => simp [usesFrom, addressAfter]
  | cons first rest ih => simp [usesFrom, addressAfter, ih]

theorem addressAfter_concat (address : Value) (steps : List Step) (s : Step) :
    addressAfter address (steps ++ [s]) = s.move (addressAfter address steps) := by
  simp [addressAfter]

theorem sinceReset_reset (steps : List Step) : sinceReset (steps ++ [.reset]) = [] := by
  simp [sinceReset]

theorem sinceReset_concat (steps : List Step) {s : Step} (other : s ≠ .reset) :
    sinceReset (steps ++ [s]) = sinceReset steps ++ [s] := by
  simp [sinceReset, other]

/-- A reset leaves nothing of the address before it. -/
theorem addressAfter_sinceReset (steps : List Step) :
    addressAfter none (sinceReset steps) = addressAfter none steps := by
  induction steps using List.reverseRecOn with
  | nil => rfl
  | append_singleton steps s ih =>
    by_cases clears : s = .reset
    · subst clears
      rw [sinceReset_reset, addressAfter_concat]
      rfl
    · rw [sinceReset_concat steps clears, addressAfter_concat, addressAfter_concat, ih]

theorem used_reset (steps : List Step) : used (steps ++ [.reset]) = [] := by
  rw [used, sinceReset_reset, usesFrom]

theorem used_concat (steps : List Step) {s : Step} (other : s ≠ .reset) :
    used (steps ++ [s]) = used steps ++ s.uses (addressAfter none steps) := by
  rw [used, sinceReset_concat steps other, usesFrom_concat, addressAfter_sinceReset, used]

theorem Step.stores_of_silent {s : Step} (silent : s.data = []) (address : Value) :
    s.stores address = [] := by
  rw [stores, silent]
  cases address <;> rfl

/-! ### Images and their histories -/

/-- A window that reaches from the lowest to the highest of the given addresses. -/
def Covers (window : Option (UInt16 × UInt16)) (addresses : List UInt16) : Prop :=
  Writes.Spans window (addresses.map (·, 0))

theorem addresses_marks (addresses : List UInt16) :
    Writes.addresses (addresses.map (·, 0)) = addresses := by
  simp [Writes.addresses, Function.comp_def]

theorem Covers.of_spans {window : Option (UInt16 × UInt16)} {w : Writes} {addresses : List UInt16}
    (same : w.addresses = addresses) (spans : Writes.Spans window w) : Covers window addresses := by
  subst same
  unfold Covers
  cases spans with
  | empty => exact .empty
  | full least greatest =>
    refine .full ?_ ?_
    · rwa [addresses_marks]
    · rwa [addresses_marks]

theorem Covers.isSome_iff {window : Option (UInt16 × UInt16)} {addresses : List UInt16}
    (covers : Covers window addresses) : window.isSome = true ↔ addresses ≠ [] := by
  have empty := Writes.Spans.eq_none_iff covers
  rw [List.map_eq_nil_iff] at empty
  rw [Option.isSome_iff_ne_none, ne_eq, empty]

theorem Covers.bounds {lo hi : UInt16} {addresses : List UInt16}
    (covers : Covers (some (lo, hi)) addresses) :
    IsLeast {a | a ∈ addresses} lo ∧ IsGreatest {a | a ∈ addresses} hi := by
  cases covers with
  | full least greatest =>
    rw [addresses_marks] at least greatest
    exact ⟨least, greatest⟩

/-- An image as it is after the given operations on a new one. -/
structure History (b : Image) (steps : List Step) : Prop where
  address : b.address = addressAfter none steps
  writes : b.writes = (storesFrom none steps).reverse
  window : Covers b.window (used steps)

/-- An operation that emits nothing and is no reset. -/
theorem History.quiet {b : Image} {steps : List Step} (history : History b steps) {s : Step}
    (other : s ≠ .reset) (silent : s.data = []) {after : Image}
    (address : after.address = s.move b.address) (writes : after.writes = b.writes)
    (window : Covers after.window (used steps ++ s.uses b.address)) :
    History after (steps ++ [s]) where
  address := by rw [address, history.address, addressAfter_concat]
  writes := by
    rw [writes, history.writes, storesFrom_concat, Step.stores_of_silent silent, List.append_nil]
  window := by rwa [used_concat steps other, ← history.address]

/-- An emission stores its bytes from the address upward, where there is one. -/
theorem History.emission {b : Image} {steps : List Step} (history : History b steps) {s : Step}
    (emits : s.emits = true) : History (s.apply b) (steps ++ [s]) := by
  have other : s ≠ .reset := by rintro rfl; simp [Step.emits] at emits
  have moves : s.move b.address = b.address.map (· + UInt16.ofNat s.data.length) := by
    cases s <;> first | rfl | simp [Step.emits] at emits
  have uses : s.uses b.address = (s.stores b.address).addresses := by
    cases s <;> first | rfl | simp [Step.emits] at emits
  have stored : b.Records (s.stores b.address) (s.apply b) ∧
      (s.apply b).address = s.move b.address := by
    rw [s.apply_emits emits, moves]
    cases defined : b.address with
    | none =>
      rw [emitAll_of_none defined]
      exact ⟨.refl b, by simp [defined]⟩
    | some a => exact ⟨records_emitAll defined s.data, by simp [address_emitAll defined]⟩
  obtain ⟨records, address⟩ := stored
  refine ⟨?_, ?_, ?_⟩
  · rw [address, history.address, addressAfter_concat]
  · rw [records.log, history.writes, storesFrom_concat, ← history.address, List.reverse_append]
  · rw [used_concat steps other, ← history.address, uses]
    refine .of_spans ?_ (records.window history.window)
    rw [Writes.addresses, List.map_append]
    exact congrArg (· ++ _) (addresses_marks _)

/-- Every operation leaves an image with its history. -/
theorem History.step {b : Image} {steps : List Step} (history : History b steps) (s : Step) :
    History (s.apply b) (steps ++ [s]) := by
  cases s with
  | reset =>
    refine ⟨?_, ?_, ?_⟩
    · rw [addressAfter_concat]
      rfl
    · rw [storesFrom_concat, Step.stores_of_silent rfl, List.append_nil]
      exact history.writes
    · rw [used_reset]
      exact .empty
  | setAddress a =>
    have unused : (Step.setAddress a).uses b.address = [] :=
      congrArg Writes.addresses (Step.stores_of_silent rfl b.address)
    refine history.quiet (by simp) rfl rfl rfl ?_
    rw [unused, List.append_nil]
    exact history.window
  | skip n =>
    have unused : (Step.skip n).uses b.address = [] :=
      congrArg Writes.addresses (Step.stores_of_silent rfl b.address)
    refine history.quiet (by simp) rfl rfl rfl ?_
    rw [unused, List.append_nil]
    exact history.window
  | markUsed a =>
    refine history.quiet (by simp) rfl rfl rfl ?_
    have wider := Writes.Spans.snoc history.window a 0
    rwa [← List.map_singleton (f := (·, (0 : UInt8))), ← List.map_append] at wider
  | emit | emitWord | emitAll | emitWords => exact history.emission rfl

theorem run_concat (steps : List Step) (s : Step) : run (steps ++ [s]) = s.apply (run steps) := by
  simp [run]

theorem run_history (steps : List Step) : History (run steps) steps := by
  induction steps using List.reverseRecOn with
  | nil => exact ⟨rfl, rfl, .empty⟩
  | append_singleton steps s ih =>
    rw [run_concat]
    exact ih.step s

/-! ### Reading an image -/

theorem History.byteAt {b : Image} {steps : List Step} (history : History b steps) (a : UInt16) :
    b.byteAt a = ((storesFrom none steps).lastAt a).getD 0 := by
  rw [Image.byteAt, history.writes, Writes.lastAt]

/-- The bytes of the window in the order of their addresses. -/
theorem output_eq_map {b : Image} {lo hi : UInt16} (window : b.window = some (lo, hi))
    (ordered : lo ≤ hi) :
    b.output = (List.range (hi.toNat - lo.toNat + 1)).map fun i =>
      b.byteAt (UInt16.ofNat (lo.toNat + i)) := by
  have length := length_output window
  rw [UInt16.le_iff_toNat_le] at ordered
  have top := hi.toNat_lt
  apply List.ext_getElem?
  intro i
  by_cases inside : i < hi.toNat - lo.toNat + 1
  · have place : (UInt16.ofNat (lo.toNat + i)).toNat = lo.toNat + i := by
      rw [UInt16.toNat_ofNat']
      omega
    have low : lo ≤ UInt16.ofNat (lo.toNat + i) := by
      rw [UInt16.le_iff_toNat_le, place]
      omega
    have high : UInt16.ofNat (lo.toNat + i) ≤ hi := by
      rw [UInt16.le_iff_toNat_le, place]
      omega
    have byte := getElem?_output window low high
    rw [place, Nat.add_sub_cancel_left] at byte
    rw [byte]
    simp [inside]
  · rw [List.getElem?_eq_none (by omega), List.getElem?_eq_none (by simp; omega)]

/-- Without an address, operations that go on from it change nothing. -/
theorem Step.perform_of_none {b : Image} (undefined : b.address = none) {s : Step}
    (relative : s.isRelative = true) (out : Bytes) : s.perform (b, out) = (b, out) := by
  rw [perform_eq]
  by_cases emits : s.emits = true
  · rw [s.apply_emits emits, emitAll_of_none undefined]
    simp [emitted, undefined]
  · cases s with
    | skip n =>
      obtain ⟨writes, address, window⟩ := b
      subst undefined
      simp [apply, Image.skip, emitted]
    | _ => simp_all [isRelative, Step.emits]

theorem Step.perform_of_some {b : Image} {a : UInt16} (defined : b.address = some a) {s : Step}
    (emits : s.emits = true) (out : Bytes) :
    (s.perform (b, out)).2 = out ++ s.data ∧
      ∃ next, (s.perform (b, out)).1.address = some next ∧
        next.toNat = (a.toNat + s.data.length) % 65536 := by
  rw [perform_eq, s.apply_emits emits]
  refine ⟨by simp [emitted, defined], _, address_emitAll defined s.data, ?_⟩
  rw [UInt16.toNat_add, UInt16.toNat_ofNat']
  omega

end Image

/-- An image after any operations on a new one. It has a window if addresses were used since the last
reset, from the lowest to the highest of them. An address holds the last byte ever stored there, and
zero before the first. The output is the bytes of the window in order, of which there are no more than
addresses. Operations that go on from the address do nothing without one; an emission with one collects
its bytes, the low byte of a word first, and moves the address past them, around the end of memory. -/
theorem image_follows_history (steps : List Image.Step) :
    let b := Image.run steps
    (b.window.isSome = true ↔ Image.used steps ≠ []) ∧
    (∀ lo hi, b.window = some (lo, hi) →
      IsLeast {a | a ∈ Image.used steps} lo ∧ IsGreatest {a | a ∈ Image.used steps} hi ∧
      b.output = (List.range (hi.toNat - lo.toNat + 1)).map
        (fun i => b.byteAt (UInt16.ofNat (lo.toNat + i))) ∧
      b.output.length ≤ 65536 ∧ ∀ i < b.output.length, lo.toNat + i ≤ hi.toNat) ∧
    (b.window = none → b.output = []) ∧
    (∀ a, b.byteAt a = ((Image.storesFrom none steps).lastAt a).getD 0) ∧
    (b.address = none → ∀ (s : Image.Step) (out : Bytes), s.isRelative = true →
      s.perform (b, out) = (b, out)) ∧
    ∀ a, b.address = some a → ∀ (s : Image.Step) (out : Bytes), s.emits = true →
      (s.perform (b, out)).2 = out ++ s.data ∧
        ∃ next, (s.perform (b, out)).1.address = some next ∧
          next.toNat = (a.toNat + s.data.length) % 65536 := by
  intro b
  have history : Image.History b steps := Image.run_history steps
  refine ⟨history.window.isSome_iff, fun lo hi window => ?_, fun windowless => ?_, history.byteAt,
    fun undefined s out relative => Image.Step.perform_of_none undefined relative out,
    fun a defined s out emits => Image.Step.perform_of_some defined emits out⟩
  · have covers := history.window
    rw [window] at covers
    obtain ⟨least, greatest⟩ := covers.bounds
    have ordered : lo ≤ hi := least.2 greatest.1
    have length := Image.length_output window
    have top := hi.toNat_lt
    rw [UInt16.le_iff_toNat_le] at ordered
    exact ⟨least, greatest, Image.output_eq_map window (UInt16.le_iff_toNat_le.mpr ordered),
      by omega, fun i inside => by omega⟩
  · rw [Image.output, windowless]

/-- A word at the highest address goes around the end of memory, and the window takes it all. After a
reset its bytes are still there, though the window is that of a later mark. -/
example :
    let steps : List Image.Step := [.setAddress 0xFFFF, .emitWord 0x1234]
    (Image.run steps).window = some (0, 0xFFFF) ∧ (Image.run steps).address = some 1 ∧
      (Image.run (steps ++ [.reset, .markUsed 0])).output = [0x12] := by
  decide +kernel

end Assembler8080
