import Mathlib.Algebra.GroupWithZero.Nat
import Assembler8080.Proofs.Continuation
import Assembler8080.Proofs.Paths

/-! Logical lines divide the physical lines among them. The number of a logical line says where it
starts and the number of the next one where it stops, so nothing else is needed to find its physical
lines again (`span`). Its text is what is left of these when one backslash goes for every line that
was joined (`Unslashed`): `lines_partition`. -/
namespace Assembler8080

/-- A text without some of its backslashes: the bytes that are kept keep their order, and the others
are as many backslashes as counted. -/
structure Unslashed (count : Nat) (whole text : Bytes) : Prop where
  sublist : text.Sublist whole
  perm : whole.Perm (text ++ List.replicate count Byte.backslash)

namespace Unslashed

theorem refl (text : Bytes) : Unslashed 0 text text := ⟨.refl text, by simp⟩

theorem length {count : Nat} {whole text : Bytes} (unslashed : Unslashed count whole text) :
    text.length + count = whole.length := by
  simpa using unslashed.perm.length_eq.symm

/-- The backslash at the end of a text gives way to the line after it. -/
theorem splice {count : Nat} {whole text : Bytes}
    (unslashed : Unslashed count whole (text ++ [Byte.backslash])) (next : Bytes) :
    Unslashed (count + 1) (whole ++ next) (text ++ next) where
  sublist := by
    have kept : (text ++ next).Sublist ((text ++ [Byte.backslash]) ++ next) :=
      (List.sublist_append_left text [Byte.backslash]).append (.refl next)
    exact kept.trans (unslashed.sublist.append (.refl next))
  perm := by
    have moved : (List.replicate (count + 1) Byte.backslash ++ next).Perm
        (next ++ List.replicate (count + 1) Byte.backslash) := List.perm_append_comm
    calc whole ++ next
      _ |>.Perm (text ++ [Byte.backslash] ++ List.replicate count Byte.backslash ++ next) :=
        unslashed.perm.append_right next
      _ = text ++ (List.replicate (count + 1) Byte.backslash ++ next) := by
        simp [List.replicate_succ]
      _ |>.Perm (text ++ (next ++ List.replicate (count + 1) Byte.backslash)) :=
        moved.append_left text
      _ = text ++ next ++ List.replicate (count + 1) Byte.backslash := by simp

end Unslashed

namespace SourceFile

/-! ### Physical lines -/

theorem lineFeed_notMem_split {text line : Bytes} (member : line ∈ split text) :
    Byte.lineFeed ∉ line := by
  apply notMem_of_mem_splitOn (s := text)
  simp only [split] at member
  split at member
  · exact List.dropLast_subset _ member
  · exact member

/-- The physical lines, each with a line feed after it, are the text, with a line feed after its
last line where it has none. -/
theorem flatMap_split (text : Bytes) :
    (split text).flatMap (· ++ [Byte.lineFeed]) =
      if text.getLast?.all (· == Byte.lineFeed) then text else text ++ [Byte.lineFeed] := by
  obtain ⟨before, last, pieces⟩ := List.eq_nil_or_concat (text.splitOn Byte.lineFeed)
    |>.resolve_left (List.splitOn_ne_nil _ _)
  rw [List.concat_eq_append] at pieces
  have joined : text = before.flatMap (· ++ [Byte.lineFeed]) ++ last := by
    rw [← intercalate_concat, ← pieces, List.intercalate_splitOn]
  simp only [split, pieces]
  by_cases empty : last = []
  · -- The text is empty or ends in a line feed: nothing stands after the last one.
    have ended : text.getLast?.all (· == Byte.lineFeed) = true := by
      cases before using List.reverseRecOn with
      | nil => simp [joined, empty]
      | append_singleton before line => simp [joined, empty]
    rw [if_pos ended]
    simp [empty, joined]
  · have unended : text.getLast?.all (· == Byte.lineFeed) = false := by
      have feedless : Byte.lineFeed ∉ last := notMem_of_mem_splitOn (s := text) (by simp [pieces])
      have apart : last.getLast empty ≠ Byte.lineFeed := by
        intro same
        exact feedless (same ▸ List.getLast_mem empty)
      simp [joined, List.getLast?_append, List.getLast?_eq_some_getLast empty, apart]
    rw [unended]
    simp [empty, joined]

theorem lines_of_read {name text : Bytes} {file : SourceFile}
    (accepted : read name text = .ok file) :
    physicalLines? text = some ((split text).map trimReturns) ∧
      file.lines = join ((split text).map trimReturns) := by
  simp only [read, physicalLines?] at accepted ⊢
  by_cases short : (split text).all (·.length < lineLimit) = true
  · simp only [short, if_true, Except.ok.injEq] at accepted ⊢
    exact ⟨trivial, by rw [← accepted]⟩
  · simp [short] at accepted

/-! ### Spans -/

/-- The number of the logical line after the `j`th, or of the line after the last physical one. -/
def nextNumber (physical : List Bytes) (lines : List LogicalLine) (j : Nat) : Int :=
  (lines[j + 1]?).elim (physical.length + 1) (·.number)

/-- The physical lines from the number of the `j`th logical line up to the number of the next. -/
def span (physical : List Bytes) (lines : List LogicalLine) (j : Nat) : List Bytes :=
  let first : Int := (lines[j]?).elim (physical.length + 1) (·.number)
  (physical.drop (first - 1).toNat).take (nextNumber physical lines j - first).toNat

theorem numberFrom_getElem? (text : List Bytes → Bytes) (number : Int) (gs : List (List Bytes))
    (j : Nat) :
    (numberFrom text number gs)[j]? =
      gs[j]?.map fun g => ⟨number + (gs.take j).flatten.length, text g⟩ := by
  induction gs generalizing number j with
  | nil => simp [numberFrom]
  | cons g gs ih =>
    cases j with
    | zero => simp [numberFrom]
    | succ j => simp [numberFrom, ih, Int.add_assoc]

theorem number_of_mem {text : List Bytes → Bytes} {number : Int} {gs : List (List Bytes)}
    {line : LogicalLine} (full : [] ∉ gs) (member : line ∈ numberFrom text number gs) :
    number ≤ line.number ∧ line.number < number + gs.flatten.length := by
  induction gs generalizing number with
  | nil => simp [numberFrom] at member
  | cons g gs ih =>
    have positive : 0 < g.length := List.length_pos_iff.mpr fun empty => full (by simp [empty])
    rw [List.flatten_cons, List.length_append]
    rcases List.mem_cons.mp member with rfl | later
    · exact ⟨Int.le_refl _, by dsimp only; omega⟩
    · have bounds := ih (fun inside => full (List.mem_cons_of_mem g inside)) later
      omega

theorem numberFrom_pairwise (text : List Bytes → Bytes) (number : Int) {gs : List (List Bytes)}
    (full : [] ∉ gs) : (numberFrom text number gs).Pairwise (·.number < ·.number) := by
  induction gs generalizing number with
  | nil => exact .nil
  | cons g gs ih =>
    have positive : 0 < g.length := List.length_pos_iff.mpr fun empty => full (by simp [empty])
    have rest : [] ∉ gs := fun inside => full (List.mem_cons_of_mem g inside)
    apply List.pairwise_cons.mpr
    refine ⟨fun line later => ?_, ih _ rest⟩
    have bounds := number_of_mem rest later
    dsimp only
    omega

/-- Where a group stops, the next one starts, also after the last. -/
theorem nextNumber_numberFrom (text : List Bytes → Bytes) {gs : List (List Bytes)} {j : Nat}
    (inside : j < gs.length) :
    nextNumber gs.flatten (numberFrom text 1 gs) j = 1 + (gs.take (j + 1)).flatten.length := by
  rw [nextNumber, numberFrom_getElem?]
  by_cases more : j + 1 < gs.length
  · simp [List.getElem?_eq_getElem more]
  · have last : gs.take (j + 1) = gs := List.take_of_length_le (by omega)
    rw [List.getElem?_eq_none (by omega), last]
    exact Int.add_comm ..

/-- The numbers of the logical lines find the groups again. -/
theorem span_numberFrom (text : List Bytes → Bytes) {gs : List (List Bytes)} {j : Nat}
    {g : List Bytes} (group : gs[j]? = some g) :
    nextNumber gs.flatten (numberFrom text 1 gs) j = 1 + (gs.take j).flatten.length + g.length ∧
      span gs.flatten (numberFrom text 1 gs) j = g := by
  obtain ⟨inside, same⟩ := List.getElem?_eq_some_iff.mp group
  have next := nextNumber_numberFrom text inside
  rw [List.take_add_one, group] at next
  simp only [Option.toList_some, List.flatten_append, List.flatten_singleton, List.length_append,
    Int.natCast_add, ← Int.add_assoc] at next
  refine ⟨next, ?_⟩
  have apart : gs.flatten = (gs.take j).flatten ++ (g ++ (gs.drop (j + 1)).flatten) := by
    conv => lhs; rw [← List.take_append_drop j gs, List.drop_eq_getElem_cons inside, same]
    simp
  have width : (1 + (gs.take j).flatten.length + g.length -
      (1 + (gs.take j).flatten.length) : Int).toNat = g.length := by omega
  have start : (1 + (gs.take j).flatten.length - 1 : Int).toNat = (gs.take j).flatten.length := by
    omega
  simp only [span, next, numberFrom_getElem?, group, Option.map_some, Option.elim_some, width, start]
  rw [apart, List.drop_left, List.take_left]

/-! ### Texts -/

theorem Running.front {group : List Bytes} {next : Bytes} (running : Running (group ++ [next])) :
    Running group := by
  rintro start rest rfl nonempty remains
  exact running start (rest ++ [next]) (List.append_assoc ..) nonempty (by simp)

/-- One backslash goes for every line that is joined. -/
theorem Running.unslashed {group : List Bytes} (running : Running group) (nonempty : group ≠ []) :
    Unslashed (group.length - 1) group.flatten (spliced group) := by
  induction group using List.reverseRecOn with
  | nil => contradiction
  | append_singleton group next ih =>
    by_cases alone : group = []
    · subst alone
      simpa [spliced] using Unslashed.refl next
    · have more : continues (spliced group) = true := running group [next] rfl alone (by simp)
      obtain ⟨before, joined⟩ := List.getLast?_eq_some_iff.mp (beq_iff_eq.mp more)
      have shorter := ih running.front alone
      rw [joined] at shorter
      have positive := List.length_pos_iff.mpr alone
      have count : (group ++ [next]).length - 1 = group.length - 1 + 1 := by
        rw [List.length_append, List.length_singleton]
        omega
      rw [spliced_concat alone, joined, splice, List.dropLast_concat, List.flatten_append,
        List.flatten_singleton, count]
      exact shorter.splice next

theorem Joined.line {gs : List (List Bytes)} (joined : Joined gs) {j : Nat} {line : LogicalLine}
    (at_ : (numberFrom spliced 1 gs)[j]? = some line) :
    ∃ g, gs[j]? = some g ∧ g ≠ [] ∧ line.number = 1 + (gs.take j).flatten.length ∧
      Unslashed (g.length - 1) g.flatten line.text ∧
      (j + 1 < gs.length → continues line.text = false) := by
  rw [numberFrom_getElem?] at at_
  obtain ⟨g, group, rfl⟩ := Option.map_eq_some_iff.mp at_
  have member : g ∈ gs := List.mem_of_getElem? group
  have nonempty : g ≠ [] := fun empty => joined.nonempty (empty ▸ member)
  refine ⟨g, group, nonempty, rfl, (joined.running g member).unslashed nonempty, fun more => ?_⟩
  apply joined.ends g
  have early : gs.dropLast[j]? = some g := by
    rw [List.getElem?_dropLast, if_pos (by omega), group]
  exact List.mem_of_getElem? early

/-- The spans of all logical lines, one after the other, are the physical lines. -/
theorem spans_flatten (text : List Bytes → Bytes) (gs : List (List Bytes)) :
    (List.range gs.length).flatMap (span gs.flatten (numberFrom text 1 gs)) = gs.flatten := by
  have each : (List.range gs.length).map (span gs.flatten (numberFrom text 1 gs)) = gs := by
    apply List.ext_getElem
    · simp
    · intro j _ inside
      simpa using (span_numberFrom text (List.getElem?_eq_getElem inside)).2
  rw [List.flatMap_def, each]

/-- Logical lines divide the physical lines among them. The physical lines are the lines of the
text, without the carriage returns at their ends. The numbers of the logical lines start at one,
grow from line to line and stay within the physical lines, and the spans between them are all the
physical lines. A logical line over `k` physical lines has their bytes in their order, less `k - 1`
backslashes, and none but the last ends in one. -/
theorem lines_partition (name : Bytes) {text : Bytes} {file : SourceFile}
    (accepted : read name text = .ok file) :
    ∃ physical : List Bytes,
      physicalLines? text = some physical ∧ physical = (split text).map trimReturns ∧
      (∀ line ∈ split text, Byte.lineFeed ∉ line) ∧
      (split text).flatMap (· ++ [Byte.lineFeed]) =
        (if text.getLast?.all (· == Byte.lineFeed) then text else text ++ [Byte.lineFeed]) ∧
      (0 < physical.length → file.lines.head?.map (·.number) = some 1) ∧
      file.lines.Pairwise (·.number < ·.number) ∧
      (∀ line ∈ file.lines, 1 ≤ line.number ∧ line.number ≤ physical.length) ∧
      (List.range file.lines.length).flatMap (span physical file.lines) = physical ∧
      ∀ j line, file.lines[j]? = some line →
        ∃ k : Nat, 1 ≤ k ∧ nextNumber physical file.lines j = line.number + k ∧
          (span physical file.lines j).length = k ∧
          line.text.length + (k - 1) = ((span physical file.lines j).map List.length).sum ∧
          Unslashed (k - 1) (span physical file.lines j).flatten line.text ∧
          (j + 1 < file.lines.length → continues line.text = false) := by
  obtain ⟨lines, read⟩ := lines_of_read accepted
  refine ⟨_, lines, rfl, fun _ => lineFeed_notMem_split, flatMap_split text, ?_⟩
  obtain ⟨gs, flat, joined, numbered⟩ := join_groups ((split text).map trimReturns)
  have count : (numberFrom spliced 1 gs).length = gs.length := by
    simpa using congrArg List.length (texts_numberFrom spliced 1 gs)
  rw [read, numbered, ← flat, count]
  refine ⟨fun nonempty => ?_, numberFrom_pairwise spliced 1 joined.nonempty, fun line member => ?_,
    spans_flatten spliced gs, fun j line at_ => ?_⟩
  · cases gs with
    | nil => simp at nonempty
    | cons g gs => rfl
  · have bounds := number_of_mem joined.nonempty member
    omega
  · obtain ⟨g, group, nonempty, number, unslashed, ends⟩ := joined.line at_
    obtain ⟨next, spanned⟩ := span_numberFrom spliced group
    have positive := List.length_pos_iff.mpr nonempty
    rw [spanned, next, number]
    refine ⟨g.length, positive, rfl, rfl, ?_, unslashed, ends⟩
    rw [unslashed.length, List.length_flatten]

/-- The table over three physical lines loses two backslashes; the one at the very end stays. -/
theorem lines_partition_continuedTable :
    (∃ file, read (ascii "t.asm") continuedTable = .ok file ∧
      file.lines.map (·.number) = [1, 4, 5]) ∧
    ∃ physical, physicalLines? continuedTable = some physical ∧ physical.length = 5 ∧
      Unslashed 2 (physical.take 3).flatten (ascii "DB 1, 2,\\ 3") := by
  have accepted : read (ascii "t.asm") continuedTable = .ok ⟨ascii "t.asm",
      [⟨1, ascii "DB 1, 2,\\ 3"⟩, ⟨4, ascii "NOP"⟩, ⟨5, ascii "LAST \\"⟩]⟩ := rfl
  obtain ⟨physical, lines, -, -, -, -, -, -, -, each⟩ := lines_partition (ascii "t.asm") accepted
  obtain ⟨k, -, next, spanned, -, unslashed, -⟩ := each 0 ⟨1, ascii "DB 1, 2,\\ 3"⟩ rfl
  have next : (4 : Int) = 1 + k := next
  obtain rfl : k = 3 := by omega
  have five : physical.length = 5 := by
    have same : physicalLines? continuedTable = some
        [ascii "DB 1,\\", ascii " 2,\\\\", ascii " 3", ascii "NOP", ascii "LAST \\"] := by
      decide +kernel
    rw [← Option.some.inj (same.symm.trans lines)]
    rfl
  exact ⟨⟨_, accepted, rfl⟩, physical, lines, five, unslashed⟩

end SourceFile

end Assembler8080
