import Mathlib.Data.List.SplitBy
import Assembler8080.Source

/-! Continuation lines. As a rule a physical line is joined to the one before it if that one ends in
a backslash (`groups`, `groupText`). The reader asks this of the text it has joined so far instead
(`Joined`), so an empty line after two backslashes does not end the logical line.
`continuations_joined` says what is read from every text, and that the rule holds exactly where no
logical line of the rule but the last would end in a backslash. -/
namespace Assembler8080.SourceFile

def continues (line : Bytes) : Bool := line.getLast? == some Byte.backslash

/-! ### The rule -/

/-- The physical lines in groups: the next line belongs to the group of a line that ends in a
backslash, and starts a new one otherwise. -/
def groups (physical : List Bytes) : List (List Bytes) := physical.splitBy fun line _ => continues line

/-- The text of a group: its lines, each but the last without the backslash at its end. -/
def groupText (group : List Bytes) : Bytes :=
  (group.dropLast.map List.dropLast).flatten ++ group.getLastD []

/-- The logical lines of groups, of which the first starts at the physical line `number`. -/
def numberFrom (text : List Bytes → Bytes) (number : Int) : List (List Bytes) → List LogicalLine
  | [] => []
  | group :: rest => ⟨number, text group⟩ :: numberFrom text (number + group.length) rest

def ruled (physical : List Bytes) : List LogicalLine := numberFrom groupText 1 (groups physical)

theorem texts_numberFrom (text : List Bytes → Bytes) (number : Int) (gs : List (List Bytes)) :
    (numberFrom text number gs).map (·.text) = gs.map text := by
  induction gs generalizing number with
  | nil => rfl
  | cons g gs ih => simp [numberFrom, ih]

theorem numberFrom_congr {text text' : List Bytes → Bytes} (number : Int) {gs : List (List Bytes)}
    (same : ∀ g ∈ gs, text g = text' g) : numberFrom text number gs = numberFrom text' number gs := by
  induction gs generalizing number with
  | nil => rfl
  | cons g gs ih =>
    simp only [numberFrom, same g List.mem_cons_self,
      ih (number + g.length) fun h member => same h (List.mem_cons_of_mem g member)]

/-! ### What is joined -/

/-- A text with the next physical line after it, which takes the place of its last byte. -/
def splice (text next : Bytes) : Bytes := text.dropLast ++ next

def spliced : List Bytes → Bytes
  | [] => []
  | line :: rest => rest.foldl splice line

/-- Up to its last line, the text joined so far always ends in a backslash. -/
def Running (group : List Bytes) : Prop :=
  ∀ start rest, group = start ++ rest → start ≠ [] → rest ≠ [] → continues (spliced start) = true

/-- Groups that end where the text joined so far does not end in a backslash, and only there. -/
structure Joined (gs : List (List Bytes)) : Prop where
  nonempty : [] ∉ gs
  running : ∀ g ∈ gs, Running g
  ends : ∀ g ∈ gs.dropLast, continues (spliced g) = false

theorem spliced_concat {group : List Bytes} (nonempty : group ≠ []) (next : Bytes) :
    spliced (group ++ [next]) = splice (spliced group) next := by
  cases group with
  | nil => contradiction
  | cons line rest => simp [spliced]

theorem running_singleton (line : Bytes) : Running [line] := by
  intro start rest split nonempty more
  have lengths := congrArg List.length split
  have positive := List.length_pos_iff.mpr nonempty
  have positive' := List.length_pos_iff.mpr more
  simp at lengths
  omega

theorem Running.concat {group : List Bytes} (running : Running group)
    (more : continues (spliced group) = true) (next : Bytes) : Running (group ++ [next]) := by
  intro start rest split nonempty remains
  obtain ⟨before, last, rfl⟩ := List.eq_nil_or_concat rest |>.resolve_left remains
  rw [List.concat_eq_append, ← List.append_assoc] at split
  obtain ⟨rfl, -⟩ := List.append_inj' split rfl
  by_cases empty : before = []
  · simpa [empty] using more
  · exact running start before rfl nonempty empty

theorem Joined.cons {group : List Bytes} {gs : List (List Bytes)} (joined : Joined gs)
    (nonempty : group ≠ []) (running : Running group)
    (ends : gs ≠ [] → continues (spliced group) = false) : Joined (group :: gs) := by
  refine ⟨?_, ?_, ?_⟩
  · simpa [joined.nonempty] using nonempty.symm
  · simpa using ⟨running, joined.running⟩
  · cases gs with
    | nil => simp
    | cons h gs =>
      rw [List.dropLast_cons_of_ne_nil (by simp)]
      intro g member
      rcases List.mem_cons.mp member with rfl | inside
      · exact ends (by simp)
      · exact joined.ends g inside

theorem Joined.tail {group : List Bytes} {gs : List (List Bytes)} (joined : Joined (group :: gs)) :
    Joined gs where
  nonempty member := joined.nonempty (List.mem_cons_of_mem group member)
  running g member := joined.running g (List.mem_cons_of_mem group member)
  ends g member := by
    have later : gs ≠ [] := List.ne_nil_of_mem (List.dropLast_subset gs member)
    apply joined.ends g
    rw [List.dropLast_cons_of_ne_nil later]
    exact List.mem_cons_of_mem group member

/-- A group does not stop within another one that starts at the same line. -/
theorem Joined.nil_of_append {group more : List Bytes} {gs hs : List (List Bytes)}
    (left : Joined (group :: gs)) (right : Joined ((group ++ more) :: hs))
    (same : gs.flatten = more ++ hs.flatten) : more = [] := by
  by_contra remains
  have nonempty : group ≠ [] := fun empty => left.nonempty (by simp [empty])
  have later : gs ≠ [] := by
    rintro rfl
    simp [remains] at same
  have running := right.running _ List.mem_cons_self group more rfl nonempty remains
  have ends := left.ends group (by simp [List.dropLast_cons_of_ne_nil later])
  simp [running] at ends

/-- Physical lines are joined in one way only. -/
theorem Joined.unique {gs hs : List (List Bytes)} (left : Joined gs) (right : Joined hs)
    (same : gs.flatten = hs.flatten) : gs = hs := by
  induction gs generalizing hs with
  | nil =>
    cases hs with
    | nil => rfl
    | cons h hs =>
      have empty : h = [] := (List.append_eq_nil_iff.mp same.symm).1
      exact absurd (by simp [empty]) right.nonempty
  | cons g gs ih =>
    cases hs with
    | nil =>
      have empty : g = [] := (List.append_eq_nil_iff.mp same).1
      exact absurd (by simp [empty]) left.nonempty
    | cons h hs =>
      rcases List.append_eq_append_iff.mp same with ⟨more, rfl, rest⟩ | ⟨more, rfl, rest⟩
      · obtain rfl := left.nil_of_append right rest
        simpa using ih left.tail right.tail rest
      · obtain rfl := right.nil_of_append left rest
        simpa using ih left.tail right.tail rest.symm

/-! ### The reader -/

theorem joinFrom_seen (seen : List LogicalLine) (first : Int) (current : Bytes) (number : Int)
    (rest : List Bytes) :
    joinFrom seen first current number rest =
      seen.reverse ++ joinFrom [] first current number rest := by
  induction rest generalizing seen first current number with
  | nil => simp [joinFrom]
  | cons next rest ih =>
    unfold joinFrom
    split
    · exact ih ..
    · rw [ih (_ :: seen), ih [_]]
      simp

theorem joinFrom_continues {text : Bytes} (more : continues text = true) (first number : Int)
    (next : Bytes) (rest : List Bytes) :
    joinFrom [] first text.reverse number (next :: rest) =
      joinFrom [] first (splice text next).reverse (number + 1) rest := by
  obtain ⟨before, rfl⟩ := List.getLast?_eq_some_iff.mp (beq_iff_eq.mp more)
  simp only [joinFrom, splice, List.reverse_append, List.dropLast_concat]
  rfl

theorem joinFrom_ends {text : Bytes} (ends : continues text = false) (first number : Int)
    (next : Bytes) (rest : List Bytes) :
    joinFrom [] first text.reverse number (next :: rest) =
      ⟨first, text⟩ :: joinFrom [] (number + 1) next.reverse (number + 1) rest := by
  have other : ∀ before, text.reverse ≠ Byte.backslash :: before := by
    intro before reversed
    have whole := congrArg List.reverse reversed
    rw [List.reverse_reverse, List.reverse_cons] at whole
    simp [continues, whole] at ends
  rw [joinFrom, joinFrom_seen]
  · simp
  · exact other

/-- The reader goes on from a group of which it has joined `line :: start` by joining what remains. -/
theorem joinFrom_groups (line : Bytes) (start rest : List Bytes) (first : Int)
    (running : Running (line :: start)) :
    ∃ gs, gs.flatten = line :: start ++ rest ∧ Joined gs ∧
      joinFrom [] first (spliced (line :: start)).reverse (first + start.length) rest =
        numberFrom spliced first gs := by
  induction rest generalizing line start first with
  | nil =>
    refine ⟨[line :: start], by simp, ⟨by simp, by simpa using running, by simp⟩, ?_⟩
    simp [joinFrom, numberFrom]
  | cons next rest ih =>
    cases more : continues (spliced (line :: start)) with
    | true =>
      obtain ⟨gs, flat, joined, read⟩ := ih line (start ++ [next]) first
        (running.concat more next)
      refine ⟨gs, by simpa using flat, joined, ?_⟩
      rw [joinFrom_continues more, ← spliced_concat (by simp), ← read]
      simp [Int.add_assoc]
    | false =>
      obtain ⟨gs, flat, joined, read⟩ := ih next [] (first + start.length + 1)
        (running_singleton next)
      refine ⟨(line :: start) :: gs, by simp [flat],
        joined.cons (by simp) running fun _ => more, ?_⟩
      rw [joinFrom_ends more, numberFrom, List.length_cons, Int.natCast_succ, ← Int.add_assoc,
        ← read]
      simp [spliced]

theorem join_groups (physical : List Bytes) :
    ∃ gs, gs.flatten = physical ∧ Joined gs ∧ join physical = numberFrom spliced 1 gs := by
  cases physical with
  | nil => exact ⟨[], rfl, ⟨by simp, by simp, by simp⟩, rfl⟩
  | cons line rest =>
    obtain ⟨gs, flat, joined, read⟩ := joinFrom_groups line [] rest 1 (running_singleton line)
    exact ⟨gs, flat, joined, read⟩

/-! ### Where the rule holds -/

/-- A chain whose relation looks at the left side only speaks of all members but the last. -/
theorem isChain_left_iff {α : Type} {holds : α → Prop} (members : List α) :
    members.IsChain (fun a _ => holds a) ↔ ∀ a ∈ members.dropLast, holds a := by
  induction members with
  | nil => simp
  | cons a rest ih => cases rest <;> simp_all

theorem groupText_concat (before : List Bytes) (line : Bytes) :
    groupText (before ++ [line]) = (before.map List.dropLast).flatten ++ line := by
  simp [groupText]

/-- The last line of a group, unless it is empty, ends the text of the group. -/
theorem continues_groupText (before : List Bytes) {line : Bytes} (full : line ≠ []) :
    continues (groupText (before ++ [line])) = continues line := by
  simp [groupText_concat, continues, List.getLast?_append, List.getLast?_eq_some_getLast full]

theorem ne_nil_of_continues {line : Bytes} (more : continues line = true) : line ≠ [] := by
  rintro rfl
  contradiction

/-- Where each line but the last ends in a backslash, joining takes one backslash off each. -/
theorem spliced_eq_groupText {group : List Bytes}
    (all : ∀ line ∈ group.dropLast, continues line = true) : spliced group = groupText group := by
  induction group using List.reverseRecOn with
  | nil => rfl
  | append_singleton group next ih =>
    rw [List.dropLast_concat] at all
    cases group using List.reverseRecOn with
    | nil => simp [spliced, groupText]
    | append_singleton before line =>
      have same := ih fun l member => all l (List.dropLast_subset _ member)
      have full := ne_nil_of_continues (all line (by simp))
      rw [spliced_concat (by simp), same, groupText_concat, groupText_concat, splice,
        List.dropLast_append_of_ne_nil full]
      simp

theorem running_of_continues {group : List Bytes}
    (all : ∀ line ∈ group.dropLast, continues line = true) : Running group := by
  rintro start rest rfl nonempty remains
  rw [List.dropLast_append_of_ne_nil remains] at all
  have inside : ∀ line ∈ start, continues line = true := fun line member =>
    all line (List.mem_append_left _ member)
  rw [spliced_eq_groupText fun line member => inside line (List.dropLast_subset _ member)]
  cases start using List.reverseRecOn with
  | nil => contradiction
  | append_singleton before line =>
    have more := inside line (by simp)
    rw [continues_groupText before (ne_nil_of_continues more), more]

/-- In a group of the rule each line but the last ends in a backslash. -/
theorem continues_of_mem_groups {physical group : List Bytes} (member : group ∈ groups physical) :
    ∀ line ∈ group.dropLast, continues line = true :=
  (isChain_left_iff group).mp (List.isChain_of_mem_splitBy member)

theorem texts_groups (physical : List Bytes) :
    ∀ group ∈ groups physical, spliced group = groupText group := fun _ member =>
  spliced_eq_groupText (continues_of_mem_groups member)

/-- The reader keeps to the rule exactly where no group of the rule but the last has a text that
ends in a backslash. -/
theorem join_eq_ruled_iff (physical : List Bytes) :
    join physical = ruled physical ↔
      ∀ group ∈ (groups physical).dropLast, continues (groupText group) = false := by
  obtain ⟨gs, flat, joined, read⟩ := join_groups physical
  constructor
  · intro same group member
    have texts : gs.map spliced = (groups physical).map groupText := by
      rw [← texts_numberFrom spliced 1, ← read, same, ruled, texts_numberFrom]
    have inside : groupText group ∈ gs.dropLast.map spliced := by
      rw [List.map_dropLast, texts, ← List.map_dropLast]
      exact List.mem_map_of_mem member
    obtain ⟨g, before, equal⟩ := List.mem_map.mp inside
    rw [← equal]
    exact joined.ends g before
  · intro ends
    have texts := texts_groups physical
    have ruledJoined : Joined (groups physical) := by
      refine ⟨List.nil_notMem_splitBy _ physical, fun g member => ?_, fun g member => ?_⟩
      · exact running_of_continues (continues_of_mem_groups member)
      · rw [texts g (List.dropLast_subset _ member)]
        exact ends g member
    have same : gs = groups physical := joined.unique ruledJoined (by
      rw [flat, groups, List.flatten_splitBy])
    rw [read, same, ruled]
    exact numberFrom_congr 1 texts

/-- No group but the last ends with a line that ends in a backslash. -/
theorem last_of_mem_groups {physical before : List Bytes} {line : Bytes}
    (member : before ++ [line] ∈ (groups physical).dropLast) : continues line = false := by
  have chain : (groups physical).IsChain fun g _ => ∃ nonempty, continues (g.getLast nonempty) = false :=
    (List.isChain_getLast_head_splitBy _ physical).imp fun _ _ ⟨nonempty, _, ends⟩ => ⟨nonempty, ends⟩
  obtain ⟨_, ends⟩ := (isChain_left_iff (groups physical)).mp chain _ member
  simpa using ends

/-- A group whose text ends in a backslash, although its last line does not, has an empty last
line, and before it a line that ends in two backslashes. -/
theorem exists_two_backslashes {before : List Bytes} {line : Bytes}
    (all : ∀ l ∈ before, continues l = true) (ends : continues line = false)
    (more : continues (groupText (before ++ [line])) = true) :
    line = [] ∧ ∃ l ∈ before, [Byte.backslash, Byte.backslash] <:+ l := by
  have empty : line = [] := by
    by_contra full
    rw [continues_groupText before full, ends] at more
    contradiction
  refine ⟨empty, ?_⟩
  have last : (before.map List.dropLast).flatten.getLast? = some Byte.backslash := by
    simpa [groupText_concat, continues, empty] using more
  rw [List.getLast?_flatten] at last
  obtain ⟨short, member, first⟩ := List.exists_of_findSome?_eq_some last
  obtain ⟨l, inside, rfl⟩ := List.mem_map.mp (List.mem_reverse.mp member)
  obtain ⟨start, shorter⟩ := List.getLast?_eq_some_iff.mp first
  obtain ⟨start', whole⟩ := List.getLast?_eq_some_iff.mp (beq_iff_eq.mp (all l inside))
  have same : start' = start ++ [Byte.backslash] := by
    rw [← shorter, whole, List.dropLast_concat]
  exact ⟨l, inside, start, by rw [whole, same]; simp⟩

/-- Where a group of the rule ends in a backslash and is not the last, an empty line and one that
ends in two backslashes are to blame. -/
theorem mem_of_continues_groupText {physical group : List Bytes}
    (member : group ∈ (groups physical).dropLast) (more : continues (groupText group) = true) :
    [] ∈ physical ∧ ∃ line ∈ physical, [Byte.backslash, Byte.backslash] <:+ line := by
  have listed : group ∈ groups physical := List.dropLast_subset _ member
  have inside : ∀ line ∈ group, line ∈ physical := by
    intro line within
    rw [← List.flatten_splitBy (fun line _ => continues line) physical]
    exact List.mem_flatten_of_mem listed within
  cases group using List.reverseRecOn with
  | nil => contradiction
  | append_singleton before line =>
    have all := continues_of_mem_groups listed
    rw [List.dropLast_concat] at all
    obtain ⟨rfl, l, among, two⟩ := exists_two_backslashes all (last_of_mem_groups member) more
    exact ⟨inside [] (by simp), l, inside l (by simp [among]), two⟩

/-- Whatever text is accepted, its physical lines are joined in one way: a logical line ends where
the text joined so far does not end in a backslash, and only there. This is the rule exactly where
no group of the rule but the last has a text that ends in a backslash; so it is wherever no physical
line is empty, and wherever none ends in two backslashes. -/
theorem continuations_joined (name : Bytes) {text : Bytes} {physical : List Bytes}
    (accepted : physicalLines? text = some physical) :
    ∃ lines, read name text = .ok ⟨name, lines⟩ ∧
      (∃! gs : List (List Bytes), gs.flatten = physical ∧ Joined gs ∧
        lines = numberFrom spliced 1 gs) ∧
      (lines = ruled physical ↔
        ∀ group ∈ (groups physical).dropLast, continues (groupText group) = false) ∧
      ((∀ line ∈ physical, line ≠ []) → lines = ruled physical) ∧
      ((∀ line ∈ physical, ¬ [Byte.backslash, Byte.backslash] <:+ line) →
        lines = ruled physical) := by
  have exact_rule := join_eq_ruled_iff physical
  refine ⟨join physical, by simp [read, accepted], ?_, exact_rule, ?_, ?_⟩
  · obtain ⟨gs, flat, joined, same⟩ := join_groups physical
    refine ⟨gs, ⟨flat, joined, same⟩, fun hs ⟨flat', joined', _⟩ => ?_⟩
    exact joined'.unique joined (flat'.trans flat.symm)
  · intro full
    refine exact_rule.mpr fun group member => ?_
    by_contra more
    exact full [] (mem_of_continues_groupText member (by simpa using more)).1 rfl
  · intro single
    refine exact_rule.mpr fun group member => ?_
    by_contra more
    obtain ⟨line, among, two⟩ := (mem_of_continues_groupText member (by simpa using more)).2
    exact single line among two

/-- A table over three physical lines, the second of which ends in two backslashes; the last line
ends in one. -/
def continuedTable : Bytes := ascii "DB 1,\\\n 2,\\\\\n 3\r\nNOP\nLAST \\"

theorem continuations_joined_continuedTable :
    physicalLines? continuedTable = some
        [ascii "DB 1,\\", ascii " 2,\\\\", ascii " 3", ascii "NOP", ascii "LAST \\"] ∧
      read (ascii "t.asm") continuedTable = .ok ⟨ascii "t.asm",
        [⟨1, ascii "DB 1, 2,\\ 3"⟩, ⟨4, ascii "NOP"⟩, ⟨5, ascii "LAST \\"⟩]⟩ := by
  have accepted : physicalLines? continuedTable = some
      [ascii "DB 1,\\", ascii " 2,\\\\", ascii " 3", ascii "NOP", ascii "LAST \\"] := by
    decide +kernel
  obtain ⟨lines, read, -, -, full, -⟩ := continuations_joined (ascii "t.asm") accepted
  refine ⟨accepted, ?_⟩
  rw [read, full (by decide +kernel)]
  rfl

/-- Three physical lines, of which the first ends in two backslashes and the second is empty. -/
def emptyContinued : Bytes := ascii "A\\\\\n\nB\n"

/-- The empty line does not end in a backslash, and still the third line is joined to it. -/
theorem empty_line_continued :
    physicalLines? emptyContinued = some [ascii "A\\\\", [], ascii "B"] ∧
      ruled [ascii "A\\\\", [], ascii "B"] = [⟨1, ascii "A\\"⟩, ⟨3, ascii "B"⟩] ∧
      read (ascii "t.asm") emptyContinued = .ok ⟨ascii "t.asm", [⟨1, ascii "AB"⟩]⟩ := by
  exact ⟨by decide +kernel, by decide +kernel, rfl⟩

end Assembler8080.SourceFile
