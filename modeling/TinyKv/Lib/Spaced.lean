import Mathlib.Data.List.Infix
import Mathlib.Tactic.Common

/-!
# Texts that are never far apart

A list in which texts (lists without the item `z`, longer than `j`) follow each other with at most
`gap` other items between two of them, before the first and behind the last. A window that has a `z`
among any `j + 1` items in a row has room for a part of one text at either end and one gap, so it is
no longer than `gap + 2 * j` (`Spaced.length_le_of_window`).

`Spaced z j gap a l`: `l` is such a list behind `a` items that belong to a gap.
-/

variable {α : Type} {z : α} {j gap : Nat}

inductive Spaced (z : α) (j gap : Nat) : Nat → List α → Prop
  | nil {a : Nat} (le : a ≤ gap) : Spaced z j gap a []
  | item {a : Nat} {l : List α} (x : α) (tail : Spaced z j gap (a + 1) l) : Spaced z j gap a (x :: l)
  | text {a : Nat} {t l : List α} (long : j < t.length) (plain : z ∉ t) (le : a ≤ gap)
      (tail : Spaced z j gap 0 l) : Spaced z j gap a (t ++ l)

namespace Spaced

variable {a : Nat} {l w : List α}

/-- A `z` is among any `j + 1` items in a row. -/
def Broken (z : α) (j : Nat) (w : List α) : Prop := ∀ t, t <:+: w → j < t.length → z ∈ t

theorem Broken.part {w' : List α} (h : Broken z j w) (hw : w' <:+: w) : Broken z j w' :=
  fun t ht => h t (ht.trans hw)

theorem Broken.length_le (h : Broken z j w) (hz : z ∉ w) : w.length ≤ j :=
  not_lt.1 fun hlt => hz (h w List.infix_rfl hlt)

theorem le (h : Spaced z j gap a l) : a ≤ gap := by
  induction h with
  | nil le => exact le
  | item _ _ ih => exact Nat.le_of_succ_le ih
  | text _ _ le _ _ => exact le

theorem Broken.of_length_le (h : w.length ≤ j) : Broken z j w :=
  fun _ ht hlong => absurd (ht.length_le.trans h) (not_le.2 hlong)

theorem Broken.append_cons {r : List α} (hl : Broken z j l) (hr : Broken z j r) :
    Broken z j (l ++ z :: r) := by
  intro t ht hlong
  obtain ⟨u, v, huv⟩ := ht
  by_contra hz
  rw [List.append_assoc] at huv
  rcases List.append_eq_append_iff.1 huv with ⟨l', rfl, hrest⟩ | ⟨u', rfl, hrest⟩
  · rcases List.append_eq_append_iff.1 hrest with ⟨v', rfl, -⟩ | ⟨t', rfl, hcons⟩
    · exact hz (hl t ⟨u, v', by rw [List.append_assoc]⟩ hlong)
    · cases t' with
      | nil => exact hz (hl _ ⟨u, [], by simp⟩ hlong)
      | cons x t' =>
        obtain ⟨rfl, -⟩ := List.cons.inj hcons
        exact hz (by simp)
  · cases u' with
    | nil =>
      cases t with
      | nil => exact absurd hlong (Nat.not_lt_zero j)
      | cons x t =>
        obtain ⟨rfl, -⟩ := List.cons.inj hrest
        exact hz List.mem_cons_self
    | cons x u' =>
      obtain ⟨-, rfl⟩ := List.cons.inj hrest
      exact hz (hr t ⟨u', v, List.append_assoc u' t v⟩ hlong)

theorem Broken.replicate_append {r : List α} (n : Nat) (h : Broken z j r) :
    Broken z j (List.replicate n z ++ r) := by
  have hnil : Broken z j [] := .of_length_le (Nat.zero_le j)
  induction n with
  | zero => exact h
  | succ n ih => exact hnil.append_cons ih

/-! ## Building -/

theorem mono (h : Spaced z j gap a l) {b : Nat} (hb : b ≤ a) : Spaced z j gap b l := by
  induction h generalizing b with
  | nil le => exact .nil (hb.trans le)
  | item x _ ih => exact .item x (ih (Nat.succ_le_succ hb))
  | text long plain le tail _ => exact .text long plain (hb.trans le) tail

theorem items (g : List α) (h : Spaced z j gap (a + g.length) l) : Spaced z j gap a (g ++ l) := by
  induction g generalizing a with
  | nil => exact h
  | cons x g ih =>
    rw [List.length_cons, Nat.add_comm g.length, ← Nat.add_assoc] at h
    exact .item x (ih h)

theorem plain {t : List α} (hz : z ∉ t) (h : Spaced z j gap (a + j) l) :
    Spaced z j gap a (t ++ l) := by
  by_cases hlong : j < t.length
  · exact .text hlong hz ((Nat.le_add_right a j).trans h.le) (h.mono (Nat.zero_le _))
  · exact items t (h.mono (Nat.add_le_add_left (not_lt.1 hlong) a))

/-! ## Windows -/

theorem length_le_of_start (h : Spaced z j gap a l) (hw : w <+: l) (hb : Broken z j w) :
    a + w.length ≤ gap + j := by
  induction h generalizing w with
  | nil le =>
    rw [List.prefix_nil.1 hw, List.length_nil]
    omega
  | @item a l x tail ih =>
    cases w with
    | nil =>
      have := tail.le
      rw [List.length_nil]
      omega
    | cons y w =>
      have hw' := (List.cons_prefix_cons.1 hw).2
      have := ih hw' (hb.part (List.infix_cons List.infix_rfl))
      rw [List.length_cons]
      omega
  | @text a t l long plain le tail ih =>
    -- the window starts in the text, and ends in it
    have hle : w.length ≤ j := by
      by_contra hlong
      have htake : w.take (j + 1) <+: t :=
        List.prefix_of_prefix_length_le ((List.take_prefix _ w).trans hw) (List.prefix_append t l)
          ((List.length_take_le _ _).trans long)
      have hmem := hb _ (List.take_prefix (j + 1) w).isInfix (by rw [List.length_take]; omega)
      exact plain (htake.subset hmem)
    omega

/-- **A window between texts** is short. -/
theorem length_le_of_window (h : Spaced z j gap a l) (hw : w <:+: l) (hb : Broken z j w) :
    w.length ≤ gap + 2 * j := by
  induction h generalizing w with
  | nil le =>
    rw [List.infix_nil.1 hw, List.length_nil]
    omega
  | @item a l x tail ih =>
    rcases List.infix_cons_iff.1 hw with hp | hi
    · have := (Spaced.item x tail).length_le_of_start hp hb
      omega
    · exact ih hi hb
  | @text a t l long plain le tail ih =>
    obtain ⟨u, v, huv⟩ := hw
    rw [List.append_assoc] at huv
    rcases List.append_eq_append_iff.1 huv with ⟨t', rfl, hrest⟩ | ⟨l', rfl, hrest⟩
    · -- it starts in the text, and may go on behind it
      rcases List.append_eq_append_iff.1 hrest with ⟨t'', rfl, -⟩ | ⟨w', rfl, hl⟩
      · have := hb.length_le fun hz => plain (by simp [hz])
        omega
      · have hstart := (hb.part (List.prefix_append t' w').isInfix).length_le
          fun hz => plain (by simp [hz])
        have hend := tail.length_le_of_start ⟨v, hl.symm⟩
          (hb.part (List.suffix_append t' w').isInfix)
        rw [List.length_append]
        omega
    · exact ih ⟨l', v, by rw [List.append_assoc, hrest]⟩ hb

end Spaced
