import Mathlib.Data.Prod.Lex
import TinyKv.Lib.Run

/-!
# Endless runs

A machine that is fed an endless sequence of inputs goes through the states of a `trace`. If a rank
`r` in a well-founded order is raised by no step, and lowered again and again until a goal `G` is met,
the goal is met (`exists_of_descent`).
-/

namespace Machine

variable {σ ι ο : Type}

/-- The state in front of the input with the number `n`. -/
def trace (step : σ → ι → ο × σ) (s : σ) (inputs : Nat → ι) : Nat → σ
  | 0 => s
  | n + 1 => (step (trace step s inputs n) (inputs n)).2

variable {step : σ → ι → ο × σ} {s : σ} {inputs : Nat → ι}

theorem trace_eq_run (n : Nat) :
    trace step s inputs n = (run step s ((List.range n).map inputs)).2 := by
  induction n with
  | zero => rfl
  | succ n ih =>
    rw [List.range_succ, List.map_append, List.map_singleton, run_snoc, trace, ih]

theorem trace_le {α : Type} [Preorder α] {r : σ → α}
    (hstep : ∀ n, r (trace step s inputs (n + 1)) ≤ r (trace step s inputs n)) {m n : Nat}
    (h : n ≤ m) : r (trace step s inputs m) ≤ r (trace step s inputs n) := by
  induction m, h using Nat.le_induction with
  | base => exact le_rfl
  | succ m _ ih => exact (hstep m).trans ih

/-- **Descent**: what is lowered again and again, as long as the goal is not met, ends at the goal. -/
theorem exists_of_descent {α : Type} [Preorder α] [WellFoundedLT α] {r : σ → α} {G : σ → Prop}
    (hstep : ∀ n, r (trace step s inputs (n + 1)) ≤ r (trace step s inputs n))
    (hfair : ∀ n, ¬ G (trace step s inputs n) →
      ∃ m, n ≤ m ∧ r (trace step s inputs (m + 1)) < r (trace step s inputs m)) :
    ∃ n, G (trace step s inputs n) := by
  suffices h : ∀ (a : α) (n : Nat), r (trace step s inputs n) = a →
      ∃ m, G (trace step s inputs m) from h _ 0 rfl
  intro a
  induction a using WellFoundedLT.induction with
  | ind a ih =>
    intro n hn
    by_cases hgoal : G (trace step s inputs n)
    · exact ⟨n, hgoal⟩
    · obtain ⟨m, hm, hlt⟩ := hfair n hgoal
      exact ih _ (hn ▸ hlt.trans_le (trace_le hstep hm)) (m + 1) rfl

end Machine
