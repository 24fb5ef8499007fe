import Mathlib.Data.List.Basic

/-!
# Lines of a stream

A delimiter ends a line; what stands behind the last one is no line. The lines of a stream are
taken one by one from its front (`terminated_append_cons`), and a list of lines that are free of the
delimiter comes back from the stream it makes (`terminated_flatMap`). A separator only stands between
pieces (`mem_splitOnP`).
-/

namespace Lines

variable {α : Type} {d : α}

theorem append_cons_inj {line line' rest rest' : List α} (h : d ∉ line) (h' : d ∉ line')
    (heq : line ++ d :: rest = line' ++ d :: rest') : line = line' ∧ rest = rest' := by
  induction line generalizing line' with
  | nil =>
    cases line' with
    | nil => exact ⟨rfl, (List.cons.inj heq).2⟩
    | cons b line' => exact absurd ((List.cons.inj heq).1 ▸ List.mem_cons_self) h'
  | cons a line ih =>
    cases line' with
    | nil => exact absurd ((List.cons.inj heq).1 ▸ List.mem_cons_self) h
    | cons b line' =>
      obtain ⟨rfl, htail⟩ := List.cons.inj heq
      obtain ⟨rfl, hrest⟩ := ih (fun hm => h (List.mem_cons_of_mem _ hm))
        (fun hm => h' (List.mem_cons_of_mem _ hm)) htail
      exact ⟨rfl, hrest⟩

theorem mem_splitOnP {p : α → Bool} {s piece : List α} (h : piece ∈ s.splitOnP p) :
    (∀ a ∈ piece, p a = false) ∧ piece.length ≤ s.length := by
  induction s generalizing piece with
  | nil =>
    rw [List.splitOnP_nil, List.mem_singleton] at h
    subst h
    exact ⟨List.forall_mem_nil _, Nat.le_refl _⟩
  | cons a s ih =>
    rw [List.splitOnP_cons_eq_if_modifyHead] at h
    split at h
    · rcases List.mem_cons.1 h with rfl | h
      · exact ⟨List.forall_mem_nil _, Nat.zero_le _⟩
      · exact ⟨(ih h).1, Nat.le_trans (ih h).2 (Nat.le_succ _)⟩
    · rename_i ha
      obtain ⟨q, qs, hq⟩ := List.exists_cons_of_ne_nil (List.splitOnP_ne_nil p s)
      rw [hq] at h ih
      rcases List.mem_cons.1 h with rfl | h
      · obtain ⟨hsep, hlen⟩ := ih List.mem_cons_self
        refine ⟨fun b hb => ?_, Nat.succ_le_succ hlen⟩
        rcases List.mem_cons.1 hb with rfl | hb
        · exact Bool.eq_false_iff.2 ha
        · exact hsep b hb
      · have := ih (List.mem_cons_of_mem q h)
        exact ⟨this.1, Nat.le_trans this.2 (Nat.le_succ _)⟩

variable [DecidableEq α]

/-- The pieces of the stream in front of a delimiter. -/
def terminated (d : α) (s : List α) : List (List α) := (s.splitOn d).dropLast

theorem terminated_of_not_mem {s : List α} (h : d ∉ s) : terminated d s = [] := by
  rw [terminated, List.splitOn_eq_singleton h]
  rfl

/-- **The first line** of a stream. -/
theorem terminated_append_cons {line : List α} (h : d ∉ line) (rest : List α) :
    terminated d (line ++ d :: rest) = line :: terminated d rest := by
  rw [terminated, List.splitOn_append_cons_self, List.splitOn_eq_singleton h, List.singleton_append,
    List.dropLast_cons_of_ne_nil (List.splitOn_ne_nil d rest)]
  rfl

/-- **Lines come back** from the stream they make. -/
theorem terminated_flatMap {lines : List (List α)} (h : ∀ line ∈ lines, d ∉ line) :
    terminated d (lines.flatMap fun line => line ++ [d]) = lines := by
  induction lines with
  | nil => rfl
  | cons line lines ih =>
    rw [List.flatMap_cons, List.append_assoc, List.singleton_append,
      terminated_append_cons (h line List.mem_cons_self),
      ih fun l hl => h l (List.mem_cons_of_mem _ hl)]

end Lines
