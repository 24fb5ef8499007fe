import TinyKv.Lib.Run
import TinyKv.Lib.SortedMap

/-!
# A cursor on a list

A cursor stands on a position of a list of keyed values, or behind the last one. A machine whose
states stand on positions and that moves and reads as the cursor does gives the answers of the
cursor on every sequence of calls that starts with a seek (`run_eq`); walking from the first position
reads the list (`run_walk`).
-/

namespace Cursor

open Machine

variable {α κ : Type} [LinearOrder κ]

inductive Call (κ : Type) where
  | seekToFirst
  | seekToLast
  | seek (k : κ)
  | next
  deriving DecidableEq

/-- A call that leads to a position of its own, wherever the cursor stood. -/
def Call.IsSeek : Call κ → Prop
  | .next => False
  | _ => True

variable (key : α → κ) (l : List α)

/-- The position after a call. -/
def move : Call κ → Nat → Nat
  | .seekToFirst, _ => 0
  | .seekToLast, _ => l.length - 1
  | .seek k, _ => Keyed.position key l k
  | .next, i => if i < l.length then i + 1 else i

/-- A call, and what the cursor is on after it. -/
def step (i : Nat) (c : Call κ) : Option α × Nat := (l[move key l c i]?, move key l c i)

variable {key l}

theorem move_of_isSeek {c : Call κ} (h : c.IsSeek) (i j : Nat) : move key l c i = move key l c j := by
  cases c with
  | next => exact h.elim
  | seekToFirst => rfl
  | seekToLast => rfl
  | seek k => rfl

/-- **A machine that moves like the cursor answers like it.** `L` are the states over the list, and
`P s i` those that stand on the position `i`. -/
theorem run_eq {σ ο : Type} {step' : σ → Call κ → ο × σ} {out : Option α → ο} {L : σ → Prop}
    {P : σ → Nat → Prop}
    (hseek : ∀ s c, L s → c.IsSeek → P (step' s c).2 (move key l c 0))
    (hnext : ∀ s i, P s i → P (step' s .next).2 (move key l .next i))
    (hon : ∀ s i, P s i → L s)
    (hout : ∀ s c i, L s → P (step' s c).2 i → (step' s c).1 = out l[i]?)
    {s : σ} (hs : L s) {c : Call κ} (hc : c.IsSeek) (cs : List (Call κ)) :
    (run step' s (c :: cs)).1 = ((run (step key l) 0 (c :: cs)).1).map out := by
  have hfirst := hseek s c hs hc
  have hstep : ∀ s i d d', d = d' → P s i → True →
      (step' s d).1 = out (step key l i d').1 ∧ P (step' s d).2 (step key l i d').2 := by
    rintro s i d _ rfl h -
    have hmoved : P (step' s d).2 (move key l d i) := by
      cases d with
      | next => exact hnext s i h
      | seekToFirst => exact hseek s _ (hon s i h) trivial
      | seekToLast => exact hseek s _ (hon s i h) trivial
      | seek k => exact hseek s _ (hon s i h) trivial
    exact ⟨hout s d _ (hon s i h) hmoved, hmoved⟩
  have hrest := (run_sim (O := fun o o' => o = out o') (G := fun _ => True) (fun _ _ _ => trivial)
    hstep hfirst (List.forall₂_same.2 fun d _ => rfl : List.Forall₂ _ cs cs) trivial).1
  rw [run_cons, run_cons, List.map_cons]
  have htail : (run step' (step' s c).2 cs).1 =
      ((run (step key l) (move key l c 0) cs).1).map out := by
    have hmap := List.forall₂_map_right_iff.2 hrest
    rwa [List.forall₂_eq_eq_eq] at hmap
  exact congrArg₂ List.cons (hout s c _ hs hfirst) htail

/-- **Walking** from a position reads the values behind it, and nothing behind the last one. -/
theorem run_next (i n : Nat) :
    (run (step key l) i (List.replicate n .next)).1 = (List.range n).map fun j => l[i + 1 + j]? := by
  induction n generalizing i with
  | zero => rfl
  | succ n ih =>
    rw [List.replicate_succ, run_cons, ih, List.range_succ_eq_map, List.map_cons, List.map_map]
    by_cases hi : i < l.length
    · simp only [step, move, if_pos hi, Nat.add_zero]
      congr 1
      refine List.map_congr_left fun j _ => ?_
      rw [Function.comp_apply, Nat.succ_eq_add_one, Nat.add_right_comm, ← Nat.add_assoc]
    · have hend : ∀ j, i ≤ j → l[j]? = none := fun j hj => List.getElem?_eq_none (by omega)
      simp only [step, move, if_neg hi, Nat.add_zero]
      rw [hend i (le_refl i), hend (i + 1) (by omega)]
      congr 1
      refine List.map_congr_left fun j _ => ?_
      rw [Function.comp_apply, hend _ (by omega), hend _ (by omega)]

theorem run_walk (i n : Nat) :
    (run (step key l) i (.seekToFirst :: List.replicate n .next)).1 =
      (List.range (n + 1)).map fun j => l[j]? := by
  rw [run_cons, run_next, List.range_succ_eq_map, List.map_cons, List.map_map]
  refine congrArg (List.cons _) (List.map_congr_left fun j _ => ?_)
  rw [Function.comp_apply, Nat.succ_eq_add_one, Nat.add_comm j 1]
  simp only [step, move, Nat.zero_add]

end Cursor
