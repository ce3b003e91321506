import Assembler8080.Assembly

/-! The passes of an assembly, line by line. `passAt` is the state before a line of a pass and
`afterPasses` the state after a number of passes; `settle_eq` says that the passes before the final
one are the first so many of these, and `settle_counts` why they end. `passAt_invariant` and
`afterPasses_invariant` carry what one line keeps over whole passes. -/
namespace Assembler8080

/-- The state before the line of index `i` of a pass. -/
def passAt (final : Bool) (statements : List Statement) (state : State) (i : Nat) : State :=
  (statements.take i).foldl (fun before s => (s.assemble final before).2)
    { state with code := state.code.reset }

section Pass

variable {final : Bool} {statements : List Statement} {state : State}

theorem passAt_succ {i : Nat} {s : Statement} (line : statements[i]? = some s) :
    passAt final statements state (i + 1) =
      (s.assemble final (passAt final statements state i)).2 := by
  unfold passAt
  rw [List.take_add_one, line, List.foldl_append]
  rfl

/-- What holds at the start of a pass and is kept by every line holds throughout it. -/
theorem passAt_invariant (holds : Nat → State → Prop)
    (start : holds 0 { state with code := state.code.reset })
    (step : ∀ {i s before}, statements[i]? = some s → holds i before →
      holds (i + 1) (s.assemble final before).2) {i : Nat} (bound : i ≤ statements.length) :
    holds i (passAt final statements state i) := by
  induction i with
  | zero => exact start
  | succ i ih =>
    have line : statements[i]? = some statements[i] := List.getElem?_eq_getElem (by omega)
    rw [passAt_succ line]
    exact step line (ih (by omega))

/-- The lines that a pass collects, last one first, and the state that it carries. -/
theorem foldl_passStep (rest : List Statement) (lines : List Line) (before : State) :
    rest.foldl (passStep final) (lines, before) =
      ((rest.mapIdx fun i s => (s.assemble final
        ((rest.take i).foldl (fun before s => (s.assemble final before).2) before)).1).reverse
          ++ lines,
        rest.foldl (fun before s => (s.assemble final before).2) before) := by
  induction rest generalizing lines before with
  | nil => rfl
  | cons s rest ih =>
    rw [List.foldl_cons, passStep, ih, List.mapIdx_cons, List.reverse_cons, List.append_assoc]
    rfl

theorem pass_lines : (pass final statements state).1 =
    statements.mapIdx fun i s => (s.assemble final (passAt final statements state i)).1 := by
  unfold pass
  rw [foldl_passStep]
  simp only [List.append_nil, List.reverse_reverse]
  rfl

theorem pass_state :
    (pass final statements state).2 = passAt final statements state statements.length := by
  unfold pass passAt
  rw [foldl_passStep, List.take_length]

end Pass

theorem getElem?_pass (final : Bool) (statements : List Statement) (state : State) (i : Nat) :
    (pass final statements state).1[i]? =
      statements[i]?.map fun s => (s.assemble final (passAt final statements state i)).1 := by
  rw [pass_lines, List.getElem?_mapIdx]

/-! ### The passes before the final one -/

/-- The state after `n` passes that are not final. -/
def afterPasses (statements : List Statement) (state : State) : Nat → State
  | 0 => state
  | n + 1 => (pass false statements (afterPasses statements state n)).2

theorem afterPasses_succ (statements : List Statement) (state : State) (n : Nat) :
    afterPasses statements state (n + 1) =
      passAt false statements (afterPasses statements state n) statements.length := pass_state

theorem afterPasses_invariant {statements : List Statement} {state : State} (holds : State → Prop)
    (start : holds state)
    (step : ∀ {before}, holds before → holds (passAt false statements before statements.length))
    (n : Nat) : holds (afterPasses statements state n) := by
  induction n with
  | zero => exact start
  | succ n ih =>
    rw [afterPasses_succ]
    exact step ih

theorem settleFrom_eq (statements : List Statement) (start : State) (counts : List Nat)
    (prior : Nat) :
    let settled := settleFrom statements counts prior
      (afterPasses statements start counts.length)
    counts.length < settled.1.length ∧
      settled.2 = afterPasses statements start settled.1.length := by
  induction prior using Nat.strongRecOn generalizing counts with
  | ind prior ih =>
    unfold settleFrom
    dsimp only
    split
    next => simp [afterPasses]
    next more =>
      have fewer := Nat.lt_of_not_le fun le => more (.inr le)
      obtain ⟨longer, state⟩ := ih _ fewer (_ :: counts)
      exact ⟨Nat.lt_of_succ_lt longer, state⟩

/-- The passes before the final one are as many as the counts that they leave, and at least two. -/
theorem settle_eq (statements : List Statement) (state : State) :
    2 ≤ (settle statements state).1.length ∧
      (settle statements state).2 =
        afterPasses statements state (settle statements state).1.length :=
  settleFrom_eq statements state [_] _

def unresolvedAfter (statements : List Statement) (state : State) (n : Nat) : Nat :=
  (afterPasses statements state n).symbols.unresolved

def passCounts (statements : List Statement) (state : State) (passes : Nat) : List Nat :=
  (List.range passes).map fun n => unresolvedAfter statements state (n + 1)

@[simp] theorem length_passCounts (statements : List Statement) (state : State) (n : Nat) :
    (passCounts statements state n).length = n := by
  simp [passCounts]

theorem passCounts_succ (statements : List Statement) (state : State) (n : Nat) :
    passCounts statements state (n + 1) =
      passCounts statements state n ++ [unresolvedAfter statements state (n + 1)] := by
  rw [passCounts, List.range_succ, List.map_append]
  rfl

/-- The passes end with one that leaves no symbol without a value, or no fewer than the one before
it; those before it leave fewer each, and some. -/
theorem settleFrom_counts (statements : List Statement) (start : State) (counts : List Nat)
    (prior : Nat) (counted : counts.reverse = passCounts statements start counts.length)
    (last : unresolvedAfter statements start counts.length = prior) :
    ∃ n, counts.length ≤ n ∧
      (settleFrom statements counts prior (afterPasses statements start counts.length)).1 =
        passCounts statements start (n + 1) ∧
      (unresolvedAfter statements start (n + 1) = 0 ∨
        unresolvedAfter statements start n ≤ unresolvedAfter statements start (n + 1)) ∧
      ∀ m, counts.length ≤ m → m < n →
        0 < unresolvedAfter statements start (m + 1) ∧
          unresolvedAfter statements start (m + 1) < unresolvedAfter statements start m := by
  induction prior using Nat.strongRecOn generalizing counts with
  | ind prior ih =>
    have more : (unresolvedAfter statements start (counts.length + 1) :: counts).reverse =
        passCounts statements start (counts.length + 1) := by
      rw [List.reverse_cons, counted, passCounts_succ]
    unfold settleFrom
    dsimp only
    split
    next stop =>
      exact ⟨counts.length, Nat.le_refl _, more, last ▸ stop, fun m after below => by omega⟩
    next go =>
      have fewer := Nat.lt_of_not_le fun le => go (.inr le)
      obtain ⟨n, longer, counted', stop, falls⟩ := ih _ fewer (_ :: counts) more rfl
      refine ⟨n, Nat.le_of_succ_le longer, counted', stop, fun m after below => ?_⟩
      rcases Nat.eq_or_lt_of_le after with rfl | later
      · exact ⟨Nat.pos_of_ne_zero fun resolved => go (.inl resolved), last ▸ fewer⟩
      · exact falls m later below

/-- The counts of the passes before the final one, and why these passes end. -/
theorem settle_counts (statements : List Statement) (state : State) :
    ∃ n, (settle statements state).1 = passCounts statements state (n + 2) ∧
      (unresolvedAfter statements state (n + 2) = 0 ∨
        unresolvedAfter statements state (n + 1) ≤ unresolvedAfter statements state (n + 2)) ∧
      ∀ m < n, 0 < unresolvedAfter statements state (m + 2) ∧
        unresolvedAfter statements state (m + 2) < unresolvedAfter statements state (m + 1) := by
  obtain ⟨n, longer, counts, stop, falls⟩ := settleFrom_counts statements state [_] _ rfl rfl
  obtain ⟨m, rfl⟩ : ∃ m, n = m + 1 := ⟨n - 1, (Nat.sub_add_cancel longer).symm⟩
  exact ⟨m, counts, stop, fun k below => falls (k + 1) (Nat.succ_pos k) (Nat.succ_lt_succ below)⟩

theorem Assembly.history_run (files : List SourceFile) (state : State) :
    let history := (Assembly.run files state).history
    ∃ n, history.length = n + 2 ∧ history = passCounts (program files) state (n + 2) ∧
      (unresolvedAfter (program files) state (n + 2) = 0 ∨
        unresolvedAfter (program files) state (n + 1) ≤
          unresolvedAfter (program files) state (n + 2)) := by
  obtain ⟨n, counts, stop, -⟩ := settle_counts (program files) state
  exact ⟨n, (congrArg List.length counts).trans (length_passCounts ..), counts, stop⟩

theorem Assembly.getLast?_history (files : List SourceFile) (state : State) :
    (Assembly.run files state).history.getLast? =
      some (unresolvedAfter (program files) state (Assembly.run files state).history.length) := by
  obtain ⟨n, length, history, -⟩ := history_run files state
  rw [length, history, passCounts_succ, List.getLast?_concat]

/-! ### The final pass -/

/-- The state in which a pass starts: the final one forgets the uses of before. -/
def State.forPass (final : Bool) (state : State) : State :=
  if final then { state with symbols := state.symbols.clearReferences } else state

def nextPass (statements : List Statement) (state : State) (final : Bool) : State :=
  (pass final statements (state.forPass final)).2

theorem nextPass_eq (statements : List Statement) (state : State) (final : Bool) :
    nextPass statements state final =
      passAt final statements (state.forPass final) statements.length := pass_state

theorem Assembly.state_run (files : List SourceFile) (state : State) :
    (Assembly.run files state).state =
      nextPass (program files)
        (afterPasses (program files) state (Assembly.run files state).history.length) true := by
  have settled := (settle_eq (program files) state).2
  exact congrArg (nextPass (program files) · true) settled

theorem Assembly.lines_run (files : List SourceFile) (state : State) :
    (Assembly.run files state).lines =
      (pass true (program files) (State.forPass true
        (afterPasses (program files) state (Assembly.run files state).history.length))).1 := by
  have settled := (settle_eq (program files) state).2
  exact congrArg (fun before => (pass true (program files) (State.forPass true before)).1) settled

def finalStart (files : List SourceFile) : State :=
  let settled := (settle (program files) .empty).2
  { settled with symbols := settled.symbols.clearReferences }

/-- The passes of an assembly in order: whether a pass is the final one, and the state in which it
starts. -/
def passStarts (files : List SourceFile) : List (Bool × State) :=
  (List.range (Assembly.ofFiles files).history.length).map
      (fun n => (false, afterPasses (program files) .empty n))
    ++ [(true, finalStart files)]

theorem finalStart_eq (files : List SourceFile) :
    finalStart files =
      let settled := afterPasses (program files) .empty (Assembly.ofFiles files).history.length
      { settled with symbols := settled.symbols.clearReferences } := by
  unfold finalStart
  rw [(settle_eq (program files) .empty).2]
  rfl

theorem Assembly.lines_ofFiles (files : List SourceFile) :
    (Assembly.ofFiles files).lines = (pass true (program files) (finalStart files)).1 := rfl

theorem Assembly.state_ofFiles (files : List SourceFile) :
    (Assembly.ofFiles files).state =
      passAt true (program files) (finalStart files) (program files).length := pass_state

end Assembler8080
