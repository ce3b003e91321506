import Assembler8080.Listing
import Assembler8080.Proofs.Contents
import Assembler8080.Proofs.Leaves

/-! A listing is read back. The rows of an entry are found again at the line feeds (`rowsOf_text`); the
columns of a row start after the number on the first row and after six blanks on the others
(`columns_rowText`), and each column has a width of its own, so whatever the text of the line looks
like, it is not taken for one. -/
namespace Assembler8080.Listing

/-! ### Reading numbers -/

/-- The number of hexadecimal digits, where nothing else stands. -/
def readHex? (ds : Bytes) : Option Nat :=
  if ds.all Byte.isHexDigit then some (NumberLiteral.positional 16 ds) else none

def readInteger : Bytes → Int
  | Byte.minus :: ds => -(NumberLiteral.positional 10 ds : Int)
  | ds => NumberLiteral.positional 10 ds

theorem hexDigit_spec : ∀ n < 16, Byte.isHexDigit (Byte.hexDigit n) = true ∧
    Byte.digitValue (Byte.hexDigit n) = n := by
  decide +kernel

theorem readHex?_hexByte (b : UInt8) : readHex? (hexByte b) = some b.toNat := by
  have bound := b.toNat_lt
  obtain ⟨high, highValue⟩ := hexDigit_spec (b.toNat / 16) (by omega)
  obtain ⟨low, lowValue⟩ := hexDigit_spec (b.toNat % 16) (by omega)
  simp [readHex?, hexByte, high, low, NumberLiteral.positional, highValue, lowValue]
  omega

theorem readHex?_hexWord (w : UInt16) : readHex? (hexWord w) = some w.toNat := by
  have bound := w.toNat_lt
  obtain ⟨first, firstValue⟩ := hexDigit_spec (w.toNat / 4096) (by omega)
  obtain ⟨second, secondValue⟩ := hexDigit_spec (w.toNat / 256 % 16) (by omega)
  obtain ⟨third, thirdValue⟩ := hexDigit_spec (w.toNat / 16 % 16) (by omega)
  obtain ⟨fourth, fourthValue⟩ := hexDigit_spec (w.toNat % 16) (by omega)
  simp [readHex?, hexWord, first, second, third, fourth, NumberLiteral.positional, firstValue,
    secondValue, thirdValue, fourthValue]
  omega

theorem decimalDigit_spec : ∀ n < 10, Byte.isDigit (UInt8.ofNat (0x30 + n)) = true ∧
    Byte.digitValue (UInt8.ofNat (0x30 + n)) = n := by
  decide +kernel

theorem decimal_digits (n : Nat) : ∀ b ∈ decimal n, Byte.isDigit b = true := by
  induction n using Nat.strong_induction_on with
  | _ n ih =>
    rw [decimal]
    split
    next small => exact List.forall_mem_singleton.mpr (decimalDigit_spec n small).1
    next large =>
      intro b member
      rcases List.mem_append.mp member with before | last
      · exact ih (n / 10) (by omega) b before
      · rw [List.mem_singleton.mp last]
        exact (decimalDigit_spec (n % 10) (by omega)).1

theorem decimal_ne_nil (n : Nat) : decimal n ≠ [] := by
  rw [decimal]
  split <;> simp

theorem positional_concat (base : Nat) (ds : Bytes) (d : UInt8) :
    NumberLiteral.positional base (ds ++ [d]) =
      NumberLiteral.positional base ds * base + Byte.digitValue d := by
  simp [NumberLiteral.positional]

theorem positional_decimal (n : Nat) : NumberLiteral.positional 10 (decimal n) = n := by
  induction n using Nat.strong_induction_on with
  | _ n ih =>
    rw [decimal]
    split
    next small =>
      have last := positional_concat 10 [] (UInt8.ofNat (0x30 + n))
      rw [(decimalDigit_spec n small).2] at last
      exact last.trans (Nat.zero_add n)
    next large =>
      rw [positional_concat, ih (n / 10) (by omega), (decimalDigit_spec (n % 10) (by omega)).2]
      omega

/-- The bytes of a number: digits, or a minus sign and digits. -/
theorem signedDecimal_bytes (n : Int) :
    ∀ b ∈ signedDecimal n, Byte.isDigit b = true ∨ b = Byte.minus := by
  cases n with
  | ofNat n => exact fun b member => .inl (decimal_digits n b member)
  | negSucc n =>
    intro b member
    rcases List.mem_cons.mp member with rfl | digit
    · exact .inr rfl
    · exact .inl (decimal_digits (n + 1) b digit)

theorem readInteger_signedDecimal (n : Int) : readInteger (signedDecimal n) = n := by
  cases n with
  | ofNat n =>
    have digits := decimal_digits n
    have number := positional_decimal n
    rw [signedDecimal]
    cases first : decimal n with
    | nil => exact absurd first (decimal_ne_nil n)
    | cons b rest =>
      rw [first] at digits number
      have unsigned : b ≠ Byte.minus := by
        rintro rfl
        exact absurd (digits _ List.mem_cons_self) (by decide)
      unfold readInteger
      split
      next same => exact absurd (List.cons.inj same).1 unsigned
      next => rw [number]; rfl
  | negSucc n =>
    change -(NumberLiteral.positional 10 (decimal (n + 1)) : Int) = Int.negSucc n
    rw [positional_decimal]
    rfl

/-! ### Groups of bytes -/

theorem groupsFrom_eq : (seen : List Bytes) → (bytes : Bytes) →
    groupsFrom seen bytes = seen.reverse ++ groups bytes
  | seen, [] | seen, [_] | seen, [_, _] => by simp [groups, groupsFrom]
  | seen, a :: b :: c :: rest => by
    rw [groups, groupsFrom, groupsFrom, groupsFrom_eq _ rest, groupsFrom_eq [[a, b, c]] rest]
    simp

theorem groups_cons (a b c : UInt8) (rest : Bytes) :
    groups (a :: b :: c :: rest) = [a, b, c] :: groups rest :=
  groupsFrom_eq [[a, b, c]] rest

theorem flatten_groups : (bytes : Bytes) → (groups bytes).flatten = bytes
  | [] | [_] | [_, _] => rfl
  | a :: b :: c :: rest => by simp [groups_cons, flatten_groups rest]

theorem length_groups : (bytes : Bytes) → (groups bytes).length = (bytes.length + 2) / 3
  | [] | [_] | [_, _] => by simp [groups, groupsFrom]
  | a :: b :: c :: rest => by
    rw [groups_cons, List.length_cons, length_groups rest]
    simp only [List.length_cons]
    omega

theorem width_groups : (bytes : Bytes) → ∀ group ∈ groups bytes, group.length ≤ 3
  | [] | [_] | [_, _] => by simp [groups, groupsFrom]
  | a :: b :: c :: rest => by
    rw [groups_cons]
    exact List.forall_mem_cons.mpr ⟨by simp, width_groups rest⟩

/-- The groups of the code rows. A line without bytes has one row with none. -/
def rowGroups (bytes : Bytes) : List Bytes := if bytes.isEmpty then [[]] else groups bytes

theorem length_rowGroups (bytes : Bytes) :
    (rowGroups bytes).length = max 1 ((bytes.length + 2) / 3) := by
  unfold rowGroups
  cases bytes with
  | nil => rfl
  | cons b rest =>
    simp only [List.isEmpty_cons, Bool.false_eq_true, if_false, length_groups, List.length_cons]
    omega

theorem flatten_rowGroups (bytes : Bytes) : (rowGroups bytes).flatten = bytes := by
  unfold rowGroups
  split
  next empty => simpa using (List.isEmpty_iff.mp empty).symm
  next => exact flatten_groups bytes

theorem width_rowGroups (bytes : Bytes) : ∀ group ∈ rowGroups bytes, group.length ≤ 3 := by
  unfold rowGroups
  split
  · simp
  · exact width_groups bytes

/-! ### Rows -/

def rowAddress (e : Entry) (index : Nat) : Bytes :=
  if index = 0 then addressColumn e.start
  else hexWord (e.start.getD 0 + UInt16.ofNat (3 * index))

def rowColumns (e : Entry) (index : Nat) (group : Bytes) : Bytes :=
  rowAddress e index ++ (byteColumns group ++ if index = 0 then Byte.blank :: e.text else [])

def rowText (e : Entry) (index : Nat) (group : Bytes) : Bytes :=
  (if index = 0 then alignRight 5 (signedDecimal e.number) ++ [Byte.blank] else blanks 6)
    ++ rowColumns e index group

def faultText (d : Diagnostic) : Bytes := ascii "***** " ++ d.text

theorem codeRow_eq (e : Entry) (group : Bytes) (index : Nat) :
    codeRow e group index = rowText e index group ++ [Byte.lineFeed] := by
  unfold codeRow rowText rowColumns rowAddress firstColumns
  split <;> simp

theorem codeRows_eq (e : Entry) :
    codeRows e = ((rowGroups e.bytes).mapIdx (rowText e)).map (· ++ [Byte.lineFeed]) := by
  unfold codeRows rowGroups
  cases e.bytes with
  | nil =>
    have empty : byteColumns [] ++ [Byte.blank] = blanks 10 := rfl
    simp [rowText, rowColumns, rowAddress, firstColumns, ← empty]
  | cons b rest =>
    rw [List.mapIdx_eq_zipIdx_map]
    simp [codeRow_eq]

def rowTexts (e : Entry) : List Bytes :=
  (rowGroups e.bytes).mapIdx (rowText e) ++ e.diagnostics.map faultText

theorem rows_eq (e : Entry) : rows e = (rowTexts e).map (· ++ [Byte.lineFeed]) := by
  rw [rows, codeRows_eq, rowTexts, List.map_append, List.map_map]
  rfl

/-- The rows of a text in which each row ends in a line feed. -/
def rowsOf (s : Bytes) : List Bytes := (s.splitOn Byte.lineFeed).dropLast

theorem rowsOf_ended {pieces : List Bytes} (single : ∀ piece ∈ pieces, Byte.lineFeed ∉ piece) :
    rowsOf (pieces.map (· ++ [Byte.lineFeed])).flatten = pieces := by
  have whole : ∀ piece ∈ pieces ++ [[]], Byte.lineFeed ∉ piece := by
    simpa [or_imp, forall_and] using single
  have joined : (pieces.map (· ++ [Byte.lineFeed])).flatten =
      [Byte.lineFeed].intercalate (pieces ++ [[]]) := by
    rw [intercalate_concat, List.append_nil, List.flatMap_def]
  rw [rowsOf, joined, List.splitOn_intercalate Byte.lineFeed whole (by simp), List.dropLast_concat]

/-- Neither the text of the line nor that of a fault has a line feed. -/
structure Entry.SingleLine (e : Entry) : Prop where
  text : Byte.lineFeed ∉ e.text
  faults : ∀ d ∈ e.diagnostics, Byte.lineFeed ∉ d.text

theorem lineFeed_notMem_hex : ∀ n < 16, Byte.lineFeed ≠ Byte.hexDigit n := by decide +kernel

theorem lineFeed_notMem_hexByte (b : UInt8) : Byte.lineFeed ∉ hexByte b := by
  have bound := b.toNat_lt
  simp only [hexByte, List.mem_cons, List.not_mem_nil, or_false, not_or]
  exact ⟨lineFeed_notMem_hex _ (by omega), lineFeed_notMem_hex _ (by omega)⟩

theorem lineFeed_notMem_hexWord (w : UInt16) : Byte.lineFeed ∉ hexWord w := by
  have bound := w.toNat_lt
  simp only [hexWord, List.mem_cons, List.not_mem_nil, or_false, not_or]
  exact ⟨lineFeed_notMem_hex _ (by omega), lineFeed_notMem_hex _ (by omega),
    lineFeed_notMem_hex _ (by omega), lineFeed_notMem_hex _ (by omega)⟩

theorem lineFeed_notMem_blanks (n : Nat) : Byte.lineFeed ∉ blanks n :=
  fun member => absurd (List.eq_of_mem_replicate member) (by decide)

theorem lineFeed_notMem_signedDecimal (n : Int) : Byte.lineFeed ∉ signedDecimal n := fun member =>
  (signedDecimal_bytes n _ member).elim (by decide) (by decide)

theorem lineFeed_notMem_rowAddress (e : Entry) (index : Nat) :
    Byte.lineFeed ∉ rowAddress e index := by
  unfold rowAddress addressColumn
  split
  · split
    · exact lineFeed_notMem_hexWord _
    · exact lineFeed_notMem_blanks 4
  · exact lineFeed_notMem_hexWord _

theorem lineFeed_notMem_rowText {e : Entry} (single : Byte.lineFeed ∉ e.text) (index : Nat)
    (group : Bytes) : Byte.lineFeed ∉ rowText e index group := by
  have feed : Byte.lineFeed ≠ Byte.blank := by decide
  unfold rowText rowColumns
  split <;>
    simp [alignRight, byteColumns, single, feed, lineFeed_notMem_blanks,
      lineFeed_notMem_signedDecimal, lineFeed_notMem_rowAddress, lineFeed_notMem_hexByte]

theorem lineFeed_notMem_rowTexts {e : Entry} (single : e.SingleLine) :
    ∀ row ∈ rowTexts e, Byte.lineFeed ∉ row := by
  intro row member
  rcases List.mem_append.mp member with code | fault
  · obtain ⟨index, bound, rfl⟩ := List.mem_mapIdx.mp code
    exact lineFeed_notMem_rowText single.text index _
  · obtain ⟨d, diagnostic, rfl⟩ := List.mem_map.mp fault
    have mark : Byte.lineFeed ∉ ascii "***** " := by decide
    simp [faultText, mark, single.faults d diagnostic]

theorem rowsOf_text {e : Entry} (single : e.SingleLine) : rowsOf (text e) = rowTexts e := by
  rw [text, rows_eq, rowsOf_ended (lineFeed_notMem_rowTexts single)]

/-! ### Columns -/

/-- A code row without the blanks that align its number. -/
def fromNumber (row : Bytes) : Bytes := row.dropWhile (· == Byte.blank)

def shownNumber (row : Bytes) : Int := readInteger ((fromNumber row).takeWhile (· != Byte.blank))

def columns (index : Nat) (row : Bytes) : Bytes :=
  if index = 0 then ((fromNumber row).dropWhile (· != Byte.blank)).drop 1 else row.drop 6

def shownAddress (columns : Bytes) : Value := (readHex? (columns.take 4)).map UInt16.ofNat

/-- The bytes in the three columns after the address. -/
def shownBytes (columns : Bytes) : Bytes :=
  [5, 8, 11].filterMap fun i => (readHex? ((columns.drop i).take 2)).map UInt8.ofNat

def shownText (columns : Bytes) : Bytes := columns.drop 14

theorem signedDecimal_unblank (n : Int) : ∀ b ∈ signedDecimal n, (b != Byte.blank) = true := by
  intro b member
  rcases signedDecimal_bytes n b member with digit | rfl
  · by_contra blank
    rw [show b = Byte.blank by simpa using blank] at digit
    exact absurd digit (by decide)
  · decide

theorem signedDecimal_ne_nil (n : Int) : signedDecimal n ≠ [] := by
  cases n with
  | ofNat n => exact decimal_ne_nil n
  | negSucc n => simp [signedDecimal]

theorem fromNumber_aligned (width : Nat) (n : Int) (rest : Bytes) :
    fromNumber (alignRight width (signedDecimal n) ++ rest) = signedDecimal n ++ rest := by
  have unblank := signedDecimal_unblank n
  rw [fromNumber, alignRight, List.append_assoc, List.dropWhile_append_of_pos (by simp [blanks])]
  cases digits : signedDecimal n with
  | nil => exact absurd digits (signedDecimal_ne_nil n)
  | cons b more =>
    rw [digits] at unblank
    have first : (b == Byte.blank) = false := by simpa using unblank b List.mem_cons_self
    simp [first]

theorem shownNumber_rowText (e : Entry) (group : Bytes) :
    shownNumber (rowText e 0 group) = e.number := by
  rw [shownNumber, rowText, if_pos rfl, List.append_assoc, fromNumber_aligned,
    List.takeWhile_append_of_pos (signedDecimal_unblank e.number)]
  simp [readInteger_signedDecimal]

theorem columns_rowText (e : Entry) (index : Nat) (group : Bytes) :
    columns index (rowText e index group) = rowColumns e index group := by
  unfold columns rowText
  split
  next =>
    rw [List.append_assoc, fromNumber_aligned,
      List.dropWhile_append_of_pos (signedDecimal_unblank e.number)]
    simp
  next => simp [blanks]

theorem length_rowAddress (e : Entry) (index : Nat) : (rowAddress e index).length = 4 := by
  unfold rowAddress addressColumn
  split
  · split <;> simp [hexWord, blanks]
  · simp [hexWord]

theorem length_byteColumns {group : Bytes} (width : group.length ≤ 3) :
    (byteColumns group).length = 9 := by
  have hex (b : UInt8) : (Byte.blank :: hexByte b).length = 3 := rfl
  simp only [byteColumns, blanks, List.length_append, List.length_flatMap, hex,
    List.length_replicate, List.map_const', List.sum_replicate_nat]
  omega

theorem shownAddress_addressColumn (start : Value) (rest : Bytes) :
    shownAddress (addressColumn start ++ rest) = start := by
  cases start with
  | none => rfl
  | some a =>
    have front : (addressColumn (some a) ++ rest).take 4 = hexWord a := rfl
    rw [shownAddress, front, readHex?_hexWord]
    simp

theorem shownAddress_rowColumns (e : Entry) {a : UInt16} (defined : e.start = some a) (index : Nat)
    (group : Bytes) :
    shownAddress (rowColumns e index group) = some (a + UInt16.ofNat (3 * index)) := by
  have column : rowAddress e index = addressColumn (some (a + UInt16.ofNat (3 * index))) := by
    unfold rowAddress
    split
    next first => simp [first, defined]
    next => simp [defined, addressColumn]
  rw [rowColumns, column, shownAddress_addressColumn]

theorem shownBytes_byteColumns {address group : Bytes} (four : address.length = 4)
    (width : group.length ≤ 3) (rest : Bytes) :
    shownBytes (address ++ (byteColumns group ++ rest)) = group := by
  have read (b : UInt8) : readHex? (hexByte b) = some b.toNat := readHex?_hexByte b
  have blank : readHex? [Byte.blank, Byte.blank] = none := rfl
  unfold hexByte at read
  rcases address with _ | ⟨w, _ | ⟨x, _ | ⟨y, _ | ⟨z, _ | _⟩⟩⟩⟩ <;> simp at four
  rcases group with _ | ⟨a, _ | ⟨b, _ | ⟨c, _ | ⟨d, more⟩⟩⟩⟩
  case cons.cons.cons.cons =>
    simp only [List.length_cons] at width
    omega
  all_goals simp [shownBytes, byteColumns, hexByte, blanks, List.replicate_succ, read, blank]

theorem shownText_rowColumns (e : Entry) {group : Bytes} (width : group.length ≤ 3) :
    shownText (rowColumns e 0 group) = e.text := by
  have front : (rowAddress e 0 ++ byteColumns group).length = 13 := by
    rw [List.length_append, length_rowAddress, length_byteColumns width]
  have behind : (rowAddress e 0 ++ byteColumns group).drop 14 = [] :=
    List.drop_eq_nil_of_le (by omega)
  rw [shownText, rowColumns, ← List.append_assoc, List.drop_append, front, behind]
  rfl

/-! ### Reading an entry back -/

/-- What a listing shows of a line apart from its faults. -/
structure Shown where
  number : Int
  start : Value
  bytes : Bytes
  text : Bytes
  deriving DecidableEq

/-- The code rows of a line, read column by column. -/
def readRows (rows : List Bytes) : Shown where
  number := shownNumber (rows.headD [])
  start := shownAddress (columns 0 (rows.headD []))
  bytes := (rows.mapIdx fun index row => shownBytes (columns index row)).flatten
  text := shownText (columns 0 (rows.headD []))

/-- An entry with some number of faults, read from its text. -/
def readBack (faults : Nat) (s : Bytes) : Shown :=
  readRows ((rowsOf s).take ((rowsOf s).length - faults))

theorem rowGroups_eq_cons (bytes : Bytes) :
    ∃ rest, rowGroups bytes = bytes.take 3 :: rest := by
  rcases bytes with _ | ⟨a, _ | ⟨b, _ | ⟨c, rest⟩⟩⟩
  · exact ⟨[], rfl⟩
  · exact ⟨[], rfl⟩
  · exact ⟨[], rfl⟩
  · exact ⟨groups rest, groups_cons a b c rest⟩

theorem shownBytes_rowText (e : Entry) (index : Nat) {group : Bytes} (width : group.length ≤ 3) :
    shownBytes (columns index (rowText e index group)) = group := by
  rw [columns_rowText]
  exact shownBytes_byteColumns (length_rowAddress e index) width _

theorem shownBytes_rows (e : Entry) :
    (((rowGroups e.bytes).mapIdx (rowText e)).mapIdx fun index row =>
      shownBytes (columns index row)).flatten = e.bytes := by
  have each : ((rowGroups e.bytes).mapIdx (rowText e)).mapIdx
      (fun index row => shownBytes (columns index row)) = rowGroups e.bytes := by
    apply List.ext_getElem
    · simp
    · intro index bound _
      have width : (rowGroups e.bytes)[index].length ≤ 3 :=
        width_rowGroups e.bytes _ (List.getElem_mem _)
      simpa using shownBytes_rowText e index width
  rw [each, flatten_rowGroups]

theorem readRows_rowTexts (e : Entry) :
    readRows ((rowGroups e.bytes).mapIdx (rowText e)) = ⟨e.number, e.start, e.bytes, e.text⟩ := by
  obtain ⟨rest, groups⟩ := rowGroups_eq_cons e.bytes
  have first : ((rowGroups e.bytes).mapIdx (rowText e)).headD [] = rowText e 0 (e.bytes.take 3) := by
    simp [groups]
  have start : shownAddress (rowColumns e 0 (e.bytes.take 3)) = e.start :=
    shownAddress_addressColumn e.start _
  rw [readRows, first, shownNumber_rowText, columns_rowText, start,
    shownText_rowColumns e (List.length_take_le 3 e.bytes), shownBytes_rows]

theorem readBack_text {e : Entry} (single : e.SingleLine) :
    readBack e.diagnostics.length (text e) = ⟨e.number, e.start, e.bytes, e.text⟩ := by
  have count : (rowTexts e).length - e.diagnostics.length =
      ((rowGroups e.bytes).mapIdx (rowText e)).length := by
    simp [rowTexts]
  rw [readBack, rowsOf_text single, count, rowTexts, List.take_left, readRows_rowTexts]

theorem addressColumn_eq_blanks_iff {start : Value} :
    addressColumn start = blanks 4 ↔ start = none := by
  constructor
  · intro same
    have read := shownAddress_addressColumn start []
    rw [same] at read
    exact read.symm
  · rintro rfl
    rfl

end Assembler8080.Listing

namespace Assembler8080.Writes

theorem getElem?_layOut (start : UInt16) (data : Bytes) (i : Nat) :
    (layOut start data)[i]? = data[i]?.map ((start + UInt16.ofNat i, ·)) := by
  induction data generalizing start i with
  | nil => rfl
  | cons first rest ih =>
    cases i with
    | zero => simp [layOut]
    | succ i =>
      have next : start + 1 + UInt16.ofNat i = start + UInt16.ofNat (i + 1) := by
        rw [UInt16.ofNat_add, UInt16.add_assoc, UInt16.add_comm 1]
        rfl
      simp [layOut, ih, next]

end Assembler8080.Writes

namespace Assembler8080

/-- The write that an emission makes for one of its bytes. -/
theorem Image.stored_emitAll {b : Image} {a : UInt16} (defined : b.address = some a) (data : Bytes)
    (i : Nat) : ((b.emitAll data).writes.reverse)[b.writes.length + i]? =
      data[i]?.map ((a + UInt16.ofNat i, ·)) := by
  rw [(records_emitAll defined data).log, List.reverse_append, List.reverse_reverse,
    List.getElem?_append_right (by simp), List.length_reverse, Nat.add_sub_cancel_left,
    Writes.getElem?_layOut]

open Listing in
/-- The rows of an entry determine its number, its address, its bytes and its text. Row `r` shows the
address at which an emission of the bytes stores the one with index `3 * r`. -/
theorem listing_reads_back (e : Entry) (single : e.SingleLine) :
    let shown := rowsOf (text e)
    let count := max 1 ((e.bytes.length + 2) / 3)
    shown.length = count + e.diagnostics.length ∧
    shown.drop count = e.diagnostics.map (ascii "***** " ++ ·.text) ∧
    shown.head? = some (alignRight 5 (signedDecimal e.number) ++ [Byte.blank]
      ++ addressColumn e.start ++ byteColumns (e.bytes.take 3) ++ [Byte.blank] ++ e.text) ∧
    (addressColumn e.start = blanks 4 ↔ e.start = none) ∧
    ((shown.take count).mapIdx fun r row => shownBytes (columns r row)).flatten = e.bytes ∧
    (∀ a, e.start = some a → ∀ r < count, ∃ row address, shown[r]? = some row ∧
      shownAddress (columns r row) = some address ∧ address = a + UInt16.ofNat (3 * r) ∧
      ∀ image : Image, image.address = some a →
        ((image.emitAll e.bytes).writes.reverse)[image.writes.length + 3 * r]? =
          e.bytes[3 * r]?.map ((address, ·))) ∧
    readBack e.diagnostics.length (text e) = ⟨e.number, e.start, e.bytes, e.text⟩ ∧
    ∀ other : Entry, other.SingleLine → text other = text e →
      other.diagnostics.length = e.diagnostics.length →
      other.number = e.number ∧ other.start = e.start ∧ other.bytes = e.bytes ∧
        other.text = e.text := by
  intro shown count
  have rows : shown = rowTexts e := rowsOf_text single
  have codeRows : ((rowGroups e.bytes).mapIdx (rowText e)).length = count := by
    rw [List.length_mapIdx, length_rowGroups]
  refine ⟨?_, ?_, ?_, addressColumn_eq_blanks_iff, ?_, ?_, readBack_text single, ?_⟩
  · rw [rows, rowTexts, List.length_append, codeRows, List.length_map]
  · rw [rows, rowTexts, ← codeRows, List.drop_left]
    rfl
  · obtain ⟨rest, groups⟩ := rowGroups_eq_cons e.bytes
    rw [rows, rowTexts, groups]
    simp [rowText, rowColumns, rowAddress]
  · rw [rows, rowTexts, ← codeRows, List.take_left, shownBytes_rows]
  · intro a defined r bound
    have inside : r < (rowGroups e.bytes).length := by
      rw [length_rowGroups]
      exact bound
    refine ⟨rowText e r (rowGroups e.bytes)[r], _, ?_, ?_, rfl, ?_⟩
    · rw [rows, rowTexts, List.getElem?_append_left (by simpa using inside)]
      simp [inside]
    · rw [columns_rowText, shownAddress_rowColumns e defined]
    · intro image address
      exact Image.stored_emitAll address e.bytes (3 * r)
  · intro other otherSingle sameText sameFaults
    have same := readBack_text otherSingle
    rw [sameText, sameFaults, readBack_text single] at same
    injection same with number start bytes line
    exact ⟨number.symm, start.symm, bytes.symm, line.symm⟩

/-- The bytes of the entry go past the end of memory, and its text looks like columns. -/
def wrappedEntry : Listing.Entry :=
  ⟨123456, some 0xFFFE, [1, 2, 3, 4], ascii "0001 04 05 06",
    [⟨.duplicateLabel, ⟨ascii "a.asm", 7⟩, 1, ascii "x"⟩]⟩

theorem listing_reads_back_wrappedEntry :
    wrappedEntry.SingleLine ∧ (Listing.rowsOf (Listing.text wrappedEntry)).length = 3 ∧
      Listing.readBack 1 (Listing.text wrappedEntry) =
        ⟨123456, some 0xFFFE, [1, 2, 3, 4], ascii "0001 04 05 06"⟩ := by
  have single : wrappedEntry.SingleLine := ⟨by decide +kernel, by decide +kernel⟩
  obtain ⟨length, -, -, -, -, -, read, -⟩ := listing_reads_back wrappedEntry single
  exact ⟨single, length, read⟩

end Assembler8080
