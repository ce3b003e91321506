import Mathlib.Order.Bounds.Basic
import Assembler8080.Proofs.Layout

/-! What the image holds. Each line stores its bytes from its address upward, and what a pass does to
the image is the sequence of these writes (`Image.Records`). So the window of an assembly is that of
the writes of its final pass, and an address in it holds the last byte written there
(`Assembly.byteAt?_run`): by the final pass, or else by an earlier one, since passes do not clear the
image. -/
namespace Assembler8080

/-- Bytes with the addresses where they are stored, in the order of storing. -/
abbrev Writes := List (UInt16 × UInt8)

namespace Writes

/-- Bytes stored from an address upward. After the highest address comes address zero. -/
def layOut (start : UInt16) : Bytes → Writes
  | [] => []
  | first :: rest => (start, first) :: layOut (start + 1) rest

def lastAt (w : Writes) (a : UInt16) : Option UInt8 := w.reverse.lookup a

def addresses (w : Writes) : List UInt16 := w.map Prod.fst

/-- Addresses depend on where bytes start and on how many there are. -/
theorem addresses_layOut_congr {start : UInt16} {data data' : Bytes}
    (size : data.length = data'.length) :
    (layOut start data).addresses = (layOut start data').addresses := by
  induction data generalizing start data' with
  | nil =>
    obtain rfl := List.length_eq_zero_iff.mp size.symm
    rfl
  | cons first rest ih =>
    cases data' with
    | nil => simp at size
    | cons first' rest' =>
      have tails : (layOut (start + 1) rest).addresses = (layOut (start + 1) rest').addresses :=
        ih (by simpa using size)
      simpa [layOut, addresses] using tails

theorem lastAt_eq_none_iff {w : Writes} {a : UInt16} : w.lastAt a = none ↔ a ∉ w.addresses := by
  simp only [lastAt, addresses, List.lookup_eq_none_iff, List.mem_reverse, bne_iff_ne, List.mem_map,
    not_exists, not_and]
  exact ⟨fun apart x member same => apart x member same.symm,
    fun apart x member same => apart x member same.symm⟩

theorem lastAt_isSome_iff {w : Writes} {a : UInt16} :
    (w.lastAt a).isSome = true ↔ a ∈ w.addresses := by
  rw [Option.isSome_iff_ne_none, ne_eq, lastAt_eq_none_iff, not_not]

/-- A window reaches from the lowest to the highest address of writes. -/
inductive Spans : Option (UInt16 × UInt16) → Writes → Prop where
  | empty : Spans none []
  | full {lo hi : UInt16} {w : Writes} (least : IsLeast {a | a ∈ w.addresses} lo)
      (greatest : IsGreatest {a | a ∈ w.addresses} hi) : Spans (some (lo, hi)) w

theorem Spans.eq_none_iff {window : Option (UInt16 × UInt16)} {w : Writes}
    (spans : Spans window w) : window = none ↔ w = [] := by
  cases spans with
  | empty => simp
  | full least greatest =>
    refine ⟨fun windowless => by contradiction, ?_⟩
    rintro rfl
    exact absurd least.1 List.not_mem_nil

theorem lower_spec (a lo : UInt16) :
    ((if a < lo then a else lo) = a ∨ (if a < lo then a else lo) = lo) ∧
      (if a < lo then a else lo) ≤ a ∧ (if a < lo then a else lo) ≤ lo := by
  simp only [UInt16.lt_iff_toNat_lt, UInt16.le_iff_toNat_le]
  split
  · exact ⟨.inl rfl, le_rfl, by omega⟩
  · exact ⟨.inr rfl, by omega, le_rfl⟩

theorem upper_spec (a hi : UInt16) :
    ((if hi < a then a else hi) = a ∨ (if hi < a then a else hi) = hi) ∧
      a ≤ (if hi < a then a else hi) ∧ hi ≤ (if hi < a then a else hi) := by
  simp only [UInt16.lt_iff_toNat_lt, UInt16.le_iff_toNat_le]
  split
  · exact ⟨.inl rfl, le_rfl, by omega⟩
  · exact ⟨.inr rfl, by omega, le_rfl⟩

theorem Spans.snoc {window : Option (UInt16 × UInt16)} {w : Writes} (spans : Spans window w)
    (a : UInt16) (byte : UInt8) : Spans (some (Image.widen window a)) (w ++ [(a, byte)]) := by
  have last : (w ++ [(a, byte)]).addresses = w.addresses ++ [a] := by simp [addresses]
  cases spans with
  | empty =>
    have self : IsLeast {x | x ∈ [a]} a ∧ IsGreatest {x | x ∈ [a]} a := by
      simp [IsLeast, IsGreatest, lowerBounds, upperBounds]
    exact .full (last ▸ self.1) (last ▸ self.2)
  | @full lo hi _ least greatest =>
    obtain ⟨lower, belowNew, belowOld⟩ := lower_spec a lo
    obtain ⟨upper, aboveNew, aboveOld⟩ := upper_spec a hi
    have split (x : UInt16) : x ∈ (w ++ [(a, byte)]).addresses ↔ x ∈ w.addresses ∨ x = a := by
      simp [last]
    refine .full ⟨(split _).mpr ?_, fun x inside => ?_⟩ ⟨(split _).mpr ?_, fun x inside => ?_⟩
    · exact lower.symm.imp_left fun same => by rw [same]; exact least.1
    · rcases (split x).mp inside with old | rfl
      · exact UInt16.le_trans belowOld (least.2 old)
      · exact belowNew
    · exact upper.symm.imp_left fun same => by rw [same]; exact greatest.1
    · rcases (split x).mp inside with old | rfl
      · exact UInt16.le_trans (greatest.2 old) aboveOld
      · exact aboveNew

end Writes

/-! ### What emitting records -/

namespace Image

/-- An image after further writes: they come before the older ones in its log, and its window spans
them together with what it spanned before. -/
structure Records (b : Image) (w : Writes) (b' : Image) : Prop where
  log : b'.writes = w.reverse ++ b.writes
  window : ∀ {before : Writes}, Writes.Spans b.window before →
    Writes.Spans b'.window (before ++ w)

namespace Records

theorem of_same {b b' : Image} (writes : b'.writes = b.writes) (window : b'.window = b.window) :
    Records b [] b' where
  log := by simp [writes]
  window spans := by simpa [window] using spans

theorem refl (b : Image) : Records b [] b := of_same rfl rfl

theorem trans {b c d : Image} {first second : Writes} (left : Records b first c)
    (right : Records c second d) : Records b (first ++ second) d where
  log := by simp [right.log, left.log]
  window spans := by
    rw [← List.append_assoc]
    exact right.window (left.window spans)

end Records

theorem records_emit {b : Image} {a : UInt16} (defined : b.address = some a) (data : UInt8) :
    Records b [(a, data)] (b.emit data) where
  log := by simp [emit, defined]
  window spans := by
    simp only [emit, defined]
    exact spans.snoc a data

theorem records_emitAll {b : Image} {a : UInt16} (defined : b.address = some a) (data : Bytes) :
    Records b (Writes.layOut a data) (b.emitAll data) := by
  induction data generalizing b a with
  | nil => exact .refl b
  | cons first rest ih => exact (records_emit defined first).trans (ih (address_emit defined first))

end Image

def Line.writes (l : Line) : Writes :=
  match l.start with
  | some a => .layOut a l.bytes
  | none => []

def lineWrites (lines : List Line) : Writes := lines.flatMap Line.writes

namespace Command

theorem nothing_records {code code' : Image} (faults : List LineFault)
    (writes : code'.writes = code.writes) (window : code'.window = code.window) :
    code.Records (code.address.elim [] (.layOut · (nothing code' faults).bytes))
      (nothing code' faults).code := by
  have silent : code.address.elim [] (Writes.layOut · (nothing code' faults).bytes) = [] := by
    cases code.address <;> rfl
  rw [silent]
  exact .of_same writes window

theorem emitEncoding_records (i : Instruction) (operands : List Operand) (right : Bool)
    (code : Image) :
    code.Records (code.address.elim [] (.layOut · (emitEncoding i operands right code).bytes))
      (emitEncoding i operands right code).code := by
  cases defined : code.address with
  | none => simpa [emitEncoding, defined, nothing] using Image.Records.refl code
  | some a => simpa [emitEncoding, defined] using Image.records_emitAll defined _

/-- Of all commands only those with an encoding store bytes. -/
theorem emit_records (i : Instruction) (operands : List Operand) (right : Bool) (code : Image) :
    code.Records (code.address.elim [] (.layOut · (emit i operands right code).bytes))
      (emit i operands right code).code := by
  obtain ⟨mnemonic, shape, operation⟩ := i
  cases operation with
  | machine opcode => exact emitEncoding_records ..
  | directive d =>
    cases d with
    | db | dw => exact emitEncoding_records ..
    | finish => exact nothing_records [] rfl rfl
    | org | equ =>
      dsimp only [emit]
      split <;> exact nothing_records _ rfl rfl
    | ds =>
      dsimp only [emit]
      split
      · split <;> exact nothing_records _ rfl rfl
      · exact nothing_records _ rfl rfl

end Command

theorem Statement.assemble_records (final : Bool) (state : State) (s : Statement) :
    state.code.Records (s.assemble final state).1.writes (s.assemble final state).2.code := by
  have writes : (s.assemble final state).1.writes =
      state.code.address.elim [] (Writes.layOut · (s.assemble final state).1.bytes) := by
    simp only [Line.writes, start_assemble]
    cases state.code.address <;> rfl
  rw [writes]
  dsimp only [assemble, emit]
  cases s.command with
  | none => exact Command.nothing_records [] rfl rfl
  | some c => exact Command.emit_records ..

theorem Statement.bytes_of_no_address (final : Bool) {state : State}
    (undefined : state.code.address = none) (s : Statement) :
    (s.assemble final state).1.bytes = [] := by
  apply List.eq_nil_of_length_eq_zero
  rw [bytes_assemble]
  cases s.command with
  | none => rfl
  | some c =>
    dsimp only [Command.emittedSize]
    rw [undefined]
    split <;> rfl

/-! ### What passes record -/

section Passes

variable {final : Bool} {statements : List Statement} {state : State}

theorem passAt_records {i : Nat} (bound : i ≤ statements.length) :
    state.code.reset.Records (lineWrites ((pass final statements state).1.take i))
      (passAt final statements state i).code := by
  induction i with
  | zero => exact .refl _
  | succ i ih =>
    have line : statements[i]? = some statements[i] := List.getElem?_eq_getElem (by omega)
    have taken : (pass final statements state).1.take (i + 1) =
        (pass final statements state).1.take i ++
          [(statements[i].assemble final (passAt final statements state i)).1] := by
      rw [List.take_add_one, pass_lines, List.getElem?_mapIdx, line]
      rfl
    rw [taken, passAt_succ line, lineWrites, List.flatMap_append, List.flatMap_singleton]
    exact (ih (by omega)).trans (statements[i].assemble_records final _)

theorem bytes_of_start {l : Line} (member : l ∈ (pass final statements state).1)
    (undefined : l.start = none) : l.bytes = [] := by
  rw [pass_lines] at member
  obtain ⟨i, bound, rfl⟩ := List.mem_mapIdx.mp member
  exact statements[i].bytes_of_no_address final undefined

/-- A pass starts with an empty window and keeps what was written before it. -/
theorem pass_records :
    (pass final statements state).2.code.writes =
        (lineWrites (pass final statements state).1).reverse ++ state.code.writes ∧
      Writes.Spans (pass final statements state).2.code.window
        (lineWrites (pass final statements state).1) := by
  have length : (pass final statements state).1.length = statements.length := by
    rw [pass_lines, List.length_mapIdx]
  have records : state.code.reset.Records _ (passAt final statements state statements.length).code :=
    passAt_records le_rfl
  rw [← pass_state, ← length, List.take_length] at records
  exact ⟨records.log, records.window .empty⟩

def passesWrites (statements : List Statement) (state : State) (n : Nat) : Writes :=
  (List.range n).flatMap fun k =>
    lineWrites (pass false statements (afterPasses statements state k)).1

theorem afterPasses_writes (n : Nat) :
    (afterPasses statements state n).code.writes =
      (passesWrites statements state n).reverse ++ state.code.writes := by
  induction n with
  | zero => rfl
  | succ n ih =>
    have written : passesWrites statements state (n + 1) = passesWrites statements state n ++
        lineWrites (pass false statements (afterPasses statements state n)).1 := by
      rw [passesWrites, List.range_succ, List.flatMap_append, List.flatMap_singleton]
      rfl
    rw [afterPasses, pass_records.1, ih, written, List.reverse_append, List.append_assoc]

end Passes

/-! ### Reading the image -/

namespace Image

/-- The window of bytes from the address `lo`, with the writes of a log stored in it. -/
def filled (lo : UInt16) (size : Nat) (log : Writes) : Array UInt8 :=
  log.foldr (fun write window => store lo window write) (Array.replicate size 0)

theorem size_filled (lo : UInt16) (size : Nat) (log : Writes) : (filled lo size log).size = size := by
  induction log with
  | nil => simp [filled]
  | cons write rest ih =>
    have step : filled lo size (write :: rest) = store lo (filled lo size rest) write := rfl
    rw [step, store]
    split
    · rw [Array.size_setIfInBounds, ih]
    · exact ih

/-- The newest write to an address is what it holds. -/
theorem getElem?_filled {lo a : UInt16} {size : Nat} (low : lo ≤ a)
    (high : a.toNat - lo.toNat < size) (log : Writes) :
    (filled lo size log)[a.toNat - lo.toNat]? = some ((log.lookup a).getD 0) := by
  induction log with
  | nil => simp [filled, high]
  | cons write rest ih =>
    obtain ⟨x, byte⟩ := write
    have step : filled lo size ((x, byte) :: rest) = store lo (filled lo size rest) (x, byte) := rfl
    rw [step, store, List.lookup_cons]
    by_cases same : a = x
    · subst same
      simp [low, size_filled, high]
    · have other : (a == x) = false := beq_false_of_ne same
      rw [other]
      by_cases above : lo ≤ x
      · have apart : x.toNat - lo.toNat ≠ a.toNat - lo.toNat := by
          intro index
          rw [UInt16.le_iff_toNat_le] at low above
          exact same (UInt16.toNat_inj.mp (by omega))
        rw [if_pos above, Array.getElem?_setIfInBounds, if_neg apart]
        exact ih
      · rw [if_neg above]
        exact ih

theorem length_output {b : Image} {lo hi : UInt16} (window : b.window = some (lo, hi)) :
    b.output.length = hi.toNat - lo.toNat + 1 := by
  simp only [output, window]
  exact (Array.length_toList ..).trans (size_filled ..)

theorem getElem?_output {b : Image} {lo hi a : UInt16} (window : b.window = some (lo, hi))
    (low : lo ≤ a) (high : a ≤ hi) : b.output[a.toNat - lo.toNat]? = some (b.byteAt a) := by
  have room : a.toNat - lo.toNat < hi.toNat - lo.toNat + 1 := by
    rw [UInt16.le_iff_toNat_le] at high
    omega
  simp only [output, window, Array.getElem?_toList]
  exact getElem?_filled low room b.writes

end Image

namespace Assembly

def writes (a : Assembly) : Writes := lineWrites a.lines

def byteAt? (a : Assembly) (address : UInt16) : Option UInt8 :=
  if a.origin ≤ address then a.image[address.toNat - a.origin.toNat]? else none

theorem writes_run (files : List SourceFile) (state : State) :
    (run files state).state.code.writes =
      (run files state).writes.reverse ++ (settle (program files) state).2.code.writes :=
  pass_records.1

theorem spans_run (files : List SourceFile) (state : State) :
    Writes.Spans (run files state).state.code.window (run files state).writes := pass_records.2

/-- The last byte that the final pass writes to an address is in the image. -/
theorem byteAt_of_write (files : List SourceFile) (state : State) {x : UInt16}
    (inside : x ∈ (run files state).writes.addresses) :
    (run files state).writes.lastAt x = some ((run files state).state.code.byteAt x) := by
  obtain ⟨byte, last⟩ := Option.isSome_iff_exists.mp (Writes.lastAt_isSome_iff.mpr inside)
  have newest : (run files state).writes.reverse.lookup x = some byte := last
  rw [last, Image.byteAt, writes_run, List.lookup_append, newest]
  rfl

theorem image_eq_nil_iff (a : Assembly) :
    (a.image = [] ∧ a.origin = 0) ↔ a.state.code.window = none := by
  cases window : a.state.code.window with
  | none => simp [image, origin, Image.output, window]
  | some bounds =>
    have size : a.image.length = _ := Image.length_output window
    simp only [reduceCtorEq, iff_false, not_and]
    intro empty
    simp [empty] at size

theorem origin_of_some {a : Assembly} {lo hi : UInt16} (window : a.state.code.window = some (lo, hi)) :
    a.origin = lo := by
  simp [origin, window]

theorem window_ordered {w : Writes} {lo hi : UInt16} (spans : Writes.Spans (some (lo, hi)) w) :
    lo ≤ hi := by
  cases spans with
  | full least greatest => exact least.2 greatest.1

/-- The image has the last write to each address of the window, from whichever pass. -/
theorem byteAt?_run {files : List SourceFile} {state : State} {address : UInt16} {byte : UInt8}
    (inside : (run files state).byteAt? address = some byte) :
    byte = (run files state).state.code.byteAt address := by
  have spans := spans_run files state
  generalize run files state = a at inside spans ⊢
  rw [byteAt?] at inside
  split at inside
  next low =>
    cases window : a.state.code.window with
    | none =>
      rw [(a.image_eq_nil_iff.mpr window).1] at inside
      contradiction
    | some bounds =>
      obtain ⟨lo, hi⟩ := bounds
      rw [window] at spans
      rw [origin_of_some window] at low inside
      have high : address ≤ hi := by
        have bound := (List.getElem?_eq_some_iff.mp inside).1
        have ordered := window_ordered spans
        rw [image, Image.length_output window] at bound
        rw [UInt16.le_iff_toNat_le] at low ordered ⊢
        omega
      rw [image, Image.getElem?_output window low high] at inside
      exact (Option.some.inj inside).symm
  next => contradiction

end Assembly

/-- The image of an assembly is what the lines of its final pass say. A line without an address has no
bytes. The image is empty if the lines write nothing, and else it reaches from the lowest to the
highest address that they write to and has the last byte written to each. -/
theorem image_eq_writes (files : List SourceFile) (state : State) :
    let a := Assembly.run files state
    (∀ l ∈ a.lines, l.start = none → l.bytes = []) ∧
    ((a.image = [] ∧ a.origin = 0) ↔ a.writes = []) ∧
    (a.writes ≠ [] → IsLeast {x | x ∈ a.writes.addresses} a.origin ∧
      ∃ highest, IsGreatest {x | x ∈ a.writes.addresses} highest ∧
        a.image.length = highest.toNat - a.origin.toNat + 1 ∧
        ∀ x ∈ a.writes.addresses, ∃ byte, a.writes.lastAt x = some byte ∧
          a.image[x.toNat - a.origin.toNat]? = some byte) := by
  intro a
  have spans : Writes.Spans a.state.code.window a.writes := Assembly.spans_run files state
  refine ⟨fun l member => bytes_of_start member, a.image_eq_nil_iff.trans spans.eq_none_iff, ?_⟩
  intro written
  cases window : a.state.code.window with
  | none => exact absurd (spans.eq_none_iff.mp window) written
  | some bounds =>
    obtain ⟨lo, hi⟩ := bounds
    rw [window] at spans
    rw [Assembly.origin_of_some window]
    cases spans with
    | full least greatest =>
      refine ⟨least, hi, greatest, Image.length_output window, fun x inside => ?_⟩
      exact ⟨_, Assembly.byteAt_of_write files state inside,
        Image.getElem?_output window (least.2 inside) (greatest.2 inside)⟩

/-- A line that goes back over the middle of an earlier one. -/
def overlapSources : List (Bytes × Bytes) :=
  [(ascii "t.asm", ascii "ORG 10H\nDB 1,2,3\nORG 11H\nDB 9\n")]

theorem image_eq_writes_overlapSources :
    let a := Assembly.run (sourceFiles overlapSources) .empty
    a.writes = [(0x10, 1), (0x11, 2), (0x12, 3), (0x11, 9)] ∧
    IsLeast {x | x ∈ a.writes.addresses} a.origin ∧
      ∃ highest, IsGreatest {x | x ∈ a.writes.addresses} highest ∧
        a.image.length = highest.toNat - a.origin.toNat + 1 ∧
        ∀ x ∈ a.writes.addresses, ∃ byte, a.writes.lastAt x = some byte ∧
          a.image[x.toNat - a.origin.toNat]? = some byte := by
  intro a
  have written : a.writes = [(0x10, 1), (0x11, 2), (0x12, 3), (0x11, 9)] := by decide +kernel
  have filled : a.writes ≠ [] := by simp [written]
  exact ⟨written, (image_eq_writes (sourceFiles overlapSources) .empty).2.2 filled⟩

/-! ### Addresses that the final pass leaves out -/

def extentAddresses (extent : Value × Nat) : List UInt16 :=
  match extent.1 with
  | some a => (Writes.layOut a (List.replicate extent.2 0)).addresses
  | none => []

theorem addresses_lineWrites (lines : List Line) :
    (lineWrites lines).addresses = (lines.map Line.extent).flatMap extentAddresses := by
  rw [lineWrites, Writes.addresses, List.map_flatMap, List.flatMap_map]
  refine List.flatMap_congr fun l _ => ?_
  simp only [Line.writes, Line.extent, extentAddresses]
  split
  · exact Writes.addresses_layOut_congr (by simp)
  · rfl

/-- Where the layout is free of labels, all passes write to the same addresses. -/
theorem mem_passesWrites {statements : List Statement} (proper : ∀ s ∈ statements, s.Proper)
    (free : ∀ s ∈ statements, s.LayoutFree) {state : State} {n : Nat} {a : UInt16}
    (written : a ∈ (passesWrites statements state n).addresses) (final : Bool) (other : State) :
    a ∈ (lineWrites (pass final statements other).1).addresses := by
  rw [passesWrites, Writes.addresses, List.map_flatMap] at written
  obtain ⟨k, -, inside⟩ := List.mem_flatMap.mp written
  have same := extents_pass proper free false final (afterPasses statements state k) other
  rw [addresses_lineWrites, ← same, ← addresses_lineWrites]
  exact inside

def earlierWrites (files : List SourceFile) : Writes :=
  passesWrites (program files) .empty (Assembly.ofFiles files).history.length

/-- An address of the image that the final pass does not write to holds the last byte that an earlier
pass wrote there, and zero if none did. Where neither ORG nor DS uses a label it holds zero. -/
theorem gap_byte (files : List SourceFile) {address : UInt16} {byte : UInt8}
    (inside : (Assembly.ofFiles files).byteAt? address = some byte)
    (gap : address ∉ (Assembly.ofFiles files).writes.addresses) :
    byte = ((earlierWrites files).lastAt address).getD 0 ∧
      ((∀ s ∈ program files, s.LayoutFree) → byte = 0) := by
  have before : (settle (program files) .empty).2.code.writes = (earlierWrites files).reverse := by
    rw [(settle_eq (program files) .empty).2, afterPasses_writes, earlierWrites]
    exact List.append_nil _
  have last : byte = ((earlierWrites files).lastAt address).getD 0 := by
    have unwritten := Writes.lastAt_eq_none_iff.mpr gap
    rw [Assembly.byteAt?_run inside, Image.byteAt, Assembly.writes_run, before, List.lookup_append,
      show (Assembly.run files .empty).writes.reverse.lookup address = none from unwritten]
    rfl
  refine ⟨last, fun free => ?_⟩
  have never : address ∉ (earlierWrites files).addresses := fun written =>
    gap (mem_passesWrites (program_proper files) free written true (finalStart files))
  rw [last, Writes.lastAt_eq_none_iff.mpr never]
  rfl

/-- The first pass does not know the size of the block, and stores the byte after it in the block. -/
def blockSources : List (Bytes × Bytes) :=
  [(ascii "t.asm", ascii "ORG 0\nDB 1\nDS N\nDB 255\nN EQU 3\n")]

/-- The same program with the size of the block given as a number. -/
def plainBlockSources : List (Bytes × Bytes) :=
  [(ascii "t.asm", ascii "ORG 0\nDB 1\nDS 3\nDB 255\nN EQU 3\n")]

theorem gap_byte_blockSources :
    ((Assembly.ofFiles (sourceFiles blockSources)).byteAt? 1 = some 255 ∧
      1 ∉ (Assembly.ofFiles (sourceFiles blockSources)).writes.addresses ∧
      255 = ((earlierWrites (sourceFiles blockSources)).lastAt 1).getD 0) ∧
    ∃ byte, (Assembly.ofFiles (sourceFiles plainBlockSources)).byteAt? 1 = some byte ∧
      1 ∉ (Assembly.ofFiles (sourceFiles plainBlockSources)).writes.addresses ∧
      (∀ s ∈ program (sourceFiles plainBlockSources), s.LayoutFree) ∧ byte = 0 := by
  have stale : (Assembly.ofFiles (sourceFiles blockSources)).byteAt? 1 = some 255 ∧
      1 ∉ (Assembly.ofFiles (sourceFiles blockSources)).writes.addresses := by decide +kernel
  have zero : (Assembly.ofFiles (sourceFiles plainBlockSources)).byteAt? 1 = some 0 ∧
      1 ∉ (Assembly.ofFiles (sourceFiles plainBlockSources)).writes.addresses ∧
      ∀ s ∈ program (sourceFiles plainBlockSources), s.LayoutFree := by decide +kernel
  obtain ⟨inside, gap, free⟩ := zero
  exact ⟨⟨stale.1, stale.2, (gap_byte (sourceFiles blockSources) stale.1 stale.2).1⟩,
    0, inside, gap, free, (gap_byte (sourceFiles plainBlockSources) inside gap).2 free⟩

/-- An assembly without faults whose image has a byte other than zero where the final pass writes
nothing. -/
theorem gap_byte_ne_zero :
    (Assembly.ofFiles (sourceFiles blockSources)).fault none = none ∧
      (Assembly.ofFiles (sourceFiles blockSources)).diagnostics = [] ∧
      ∃ address byte, (Assembly.ofFiles (sourceFiles blockSources)).byteAt? address = some byte ∧
        address ∉ (Assembly.ofFiles (sourceFiles blockSources)).writes.addresses ∧ byte ≠ 0 := by
  have run : (Assembly.ofFiles (sourceFiles blockSources)).fault none = none ∧
      (Assembly.ofFiles (sourceFiles blockSources)).diagnostics = [] ∧
      (Assembly.ofFiles (sourceFiles blockSources)).byteAt? 1 = some 255 ∧
      1 ∉ (Assembly.ofFiles (sourceFiles blockSources)).writes.addresses := by decide +kernel
  obtain ⟨fault, diagnostics, inside, gap⟩ := run
  exact ⟨fault, diagnostics, 1, 255, inside, gap, by decide⟩

end Assembler8080
