import Mathlib.Order.Basic
import Mathlib.Tactic.Push

/-!
# Binary search for a partition point

`lowerBound before first len` is the halving search of `std::lower_bound` over the positions
`first, …, first + len - 1`: it probes the middle and keeps the half that can hold the first
position where `before` fails. On positions partitioned by `before` it returns that position
(`lowerBound_spec`).
-/

namespace Search

/-- The first position of `[first, first + len)` where `before` fails, by halving. -/
def lowerBound (before : Nat → Bool) (first len : Nat) : Nat :=
  if len = 0 then first
  else
    let half := len / 2
    let middle := first + half
    if before middle then lowerBound before (middle + 1) (len - half - 1)
    else lowerBound before first half
termination_by len

/-- `before` holds below the result and fails from it on. -/
theorem lowerBound_spec {before : Nat → Bool} {first len : Nat}
    (h : ∀ i j, first ≤ i → i ≤ j → j < first + len → before j = true → before i = true) :
    (∀ i, first ≤ i → i < lowerBound before first len → before i = true) ∧
      ∀ i, lowerBound before first len ≤ i → i < first + len → before i = false := by
  fun_induction lowerBound before first len with
  | case1 first => exact ⟨fun i h1 h2 => absurd h2 (by omega), fun i h1 h2 => absurd h2 (by omega)⟩
  | case2 first len hlen half middle hb ih =>
    obtain ⟨h1, h2⟩ := ih fun i j hi hij hj => h i j (by omega) hij (by omega)
    refine ⟨fun i hi hlt => ?_, fun i hi hlt => h2 i hi (by omega)⟩
    by_cases hm : i ≤ middle
    · exact h i middle hi hm (by omega) hb
    · exact h1 i (by omega) hlt
  | case3 first len hlen half middle hb ih =>
    obtain ⟨h1, h2⟩ := ih fun i j hi hij hj => h i j hi hij (by omega)
    refine ⟨h1, fun i hi hlt => ?_⟩
    by_cases hm : i < middle
    · exact h2 i hi hm
    · -- past the probe: were `before i` true, the probe would be before too
      have := h middle i (by omega) (by omega) hlt
      cases hbi : before i
      · rfl
      · exact absurd (this hbi) hb

end Search
