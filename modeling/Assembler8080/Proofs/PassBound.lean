import Mathlib.Order.Bounds.Basic
import Assembler8080.Proofs.Passes

/-! How many passes there are. No counter limits them. They end because each pass but the last leaves
fewer symbols without a value than the one before it, and some (`settle_counts`); so the count after
the first pass bounds their number (`falling_le`), in whatever state the assembly starts. -/
namespace Assembler8080

section Counts

variable {statements : List Statement} {state : State}

/-- A pass with which the passes before the final one may end: not the first, and one that leaves no
symbol without a value or no fewer than the pass before it. -/
def MayBeLast (statements : List Statement) (state : State) (n : Nat) : Prop :=
  2 ≤ n ∧ (unresolvedAfter statements state n = 0 ∨
    unresolvedAfter statements state (n - 1) ≤ unresolvedAfter statements state n)

theorem getElem?_passCounts {n i : Nat} (inside : i < n) :
    (passCounts statements state n)[i]? = some (unresolvedAfter statements state (i + 1)) := by
  rw [passCounts, List.getElem?_map, List.getElem?_range inside]
  rfl

/-- The first pass that may be the last is the last. -/
theorem isLeast_mayBeLast {n : Nat}
    (stop : unresolvedAfter statements state (n + 2) = 0 ∨
      unresolvedAfter statements state (n + 1) ≤ unresolvedAfter statements state (n + 2))
    (falls : ∀ m < n, 0 < unresolvedAfter statements state (m + 2) ∧
      unresolvedAfter statements state (m + 2) < unresolvedAfter statements state (m + 1)) :
    IsLeast {k | MayBeLast statements state k} (n + 2) := by
  refine ⟨⟨Nat.le_add_left 2 n, stop⟩, fun k ⟨second, early⟩ => ?_⟩
  by_contra below
  obtain ⟨m, rfl⟩ : ∃ m, k = m + 2 := ⟨k - 2, (Nat.sub_add_cancel second).symm⟩
  obtain ⟨positive, fewer⟩ := falls m (by omega)
  rcases early with resolved | stalled
  · omega
  · exact absurd fewer (Nat.not_lt_of_le stalled)

theorem falling_le {n : Nat}
    (falls : ∀ m < n, unresolvedAfter statements state (m + 2) <
      unresolvedAfter statements state (m + 1)) :
    unresolvedAfter statements state (n + 1) + n ≤ unresolvedAfter statements state 1 := by
  induction n with
  | zero => exact Nat.le_refl _
  | succ n ih =>
    have last : unresolvedAfter statements state (n + 1 + 1) < _ := falls n (Nat.lt_succ_self n)
    have before := ih fun m below => falls m (Nat.lt_succ_of_lt below)
    omega

end Counts

/-- The passes end, in any state: with the first one, after the first of all, that leaves no symbol
without a value or no fewer than the one before it. Until then the counts in the history are positive
and fall, so that there are at most two passes more than the first count, and three if it is zero. -/
theorem passes_bounded (files : List SourceFile) (state : State) :
    let a := Assembly.run files state
    let n := a.history.length
    IsLeast {k | MayBeLast (program files) state k} n ∧
      a.history = passCounts (program files) state n ∧
      2 ≤ n ∧
      (∀ i, 1 ≤ i → i < n - 1 →
        ∃ x y, a.history[i - 1]? = some x ∧ a.history[i]? = some y ∧ 0 < y ∧ y < x) ∧
      (∃ x y, a.history[n - 2]? = some x ∧ a.history[n - 1]? = some y ∧ (y = 0 ∨ x ≤ y)) ∧
      a.passes = n + 1 ∧
      ∃ first, a.history[0]? = some first ∧ a.passes ≤ max 1 first + 2 := by
  intro a n
  obtain ⟨m, counts, stop, falls⟩ := settle_counts (program files) state
  have history : a.history = passCounts (program files) state (m + 2) := counts
  have length : n = m + 2 := (congrArg List.length history).trans (length_passCounts ..)
  have passes : a.passes = n + 1 := rfl
  have bound : unresolvedAfter (program files) state (m + 1) + m ≤
      unresolvedAfter (program files) state (0 + 1) := falling_le fun k below => (falls k below).2
  have entry {i : Nat} (inside : i < m + 2) :
      a.history[i]? = some (unresolvedAfter (program files) state (i + 1)) := by
    rw [history, getElem?_passCounts inside]
  refine ⟨length ▸ isLeast_mayBeLast stop falls, length ▸ history, by omega, ?_, ?_, passes, ?_⟩
  · intro i positive below
    obtain ⟨k, rfl⟩ : ∃ k, i = k + 1 := ⟨i - 1, (Nat.sub_add_cancel positive).symm⟩
    obtain ⟨positive, fewer⟩ := falls k (by omega)
    exact ⟨_, _, entry (by omega), entry (by omega), positive, fewer⟩
  · rw [length]
    exact ⟨_, _, entry (by omega), entry (by omega), stop⟩
  · refine ⟨_, entry (by omega), ?_⟩
    cases m with
    | zero => omega
    | succ k =>
      -- The last pass but one leaves some symbol without a value.
      have positive : 0 < unresolvedAfter (program files) state (k + 1 + 1) :=
        (falls k (Nat.lt_succ_self k)).1
      omega

end Assembler8080
