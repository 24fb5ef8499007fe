import Mathlib.Data.List.Induction

/-!
# Runs of a deterministic machine

A machine takes an input in a state, answers and moves on (`step : σ → ι → ο × σ`). `run` feeds it
a list of inputs. The rules here turn facts about one step into facts about every run:

* `run_induction`: a property of the history and the state it leads to, kept by every step.
* `run_rel`: a preorder on the states that every step moves up in.
* `run_take_induction`, `run_take_rel`: the same for the states in the middle of one run.
* `run_sim`: two machines whose states stay related and whose answers agree step by step, as far as
  the first one stays within bounds that no later step can restore.
* `run_forall_iff`, `run_forall_iff_of_inv`: every answer of a run is good iff every step of it meets
  the condition that makes its answer good.
-/

namespace Machine

variable {σ ι ο : Type} (step : σ → ι → ο × σ)

/-- The answers to the inputs `is` from `s`, and the state after them. -/
def run : σ → List ι → List ο × σ
  | s, [] => ([], s)
  | s, i :: is =>
    let (o, s') := step s i
    let (os, s'') := run s' is
    (o :: os, s'')

@[simp] theorem run_nil (s : σ) : run step s [] = ([], s) := rfl

theorem run_cons (s : σ) (i : ι) (is : List ι) :
    run step s (i :: is) =
      ((step s i).1 :: (run step (step s i).2 is).1, (run step (step s i).2 is).2) := rfl

theorem run_append (s : σ) (is js : List ι) :
    run step s (is ++ js) =
      ((run step s is).1 ++ (run step (run step s is).2 js).1,
        (run step (run step s is).2 js).2) := by
  induction is generalizing s with
  | nil => simp
  | cons i is ih => simp only [List.cons_append, run_cons, ih]

theorem run_snoc (s : σ) (is : List ι) (i : ι) :
    run step s (is ++ [i]) =
      ((run step s is).1 ++ [(step (run step s is).2 i).1], (step (run step s is).2 i).2) := by
  rw [run_append, run_cons, run_nil]

theorem length_run (s : σ) (is : List ι) : (run step s is).1.length = is.length := by
  induction is generalizing s with
  | nil => rfl
  | cons i is ih => simp [run_cons, ih]

variable {step}

/-- What holds of the empty history and is kept by every further step holds of every history. -/
theorem run_induction {s : σ} {P : List ι → σ → Prop} (nil : P [] s)
    (snoc : ∀ is i, P is (run step s is).2 →
      P (is ++ [i]) (step (run step s is).2 i).2) (is : List ι) : P is (run step s is).2 := by
  induction is using List.reverseRecOn with
  | nil => exact nil
  | append_singleton is i ih =>
    rw [run_snoc]
    exact snoc is i ih

/-- What every step does to the state, a run does, if it can be done any number of times. -/
theorem run_rel {R : σ → σ → Prop} (refl : ∀ s, R s s) (trans : ∀ {a b c}, R a b → R b c → R a c)
    (h : ∀ s i, R s (step s i).2) (s : σ) (is : List ι) : R s (run step s is).2 := by
  induction is generalizing s with
  | nil => exact refl s
  | cons i is ih => exact trans (h s i) (ih _)

theorem run_take_succ {s : σ} {is : List ι} {n : Nat} {i : ι} (h : is[n]? = some i) :
    run step s (is.take (n + 1)) =
      ((run step s (is.take n)).1 ++ [(step (run step s (is.take n)).2 i).1],
        (step (run step s (is.take n)).2 i).2) := by
  rw [List.take_add_one, h, Option.toList_some, run_snoc]

/-- What holds at the start of a run and is kept by each of its steps holds all along. -/
theorem run_take_induction {s : σ} {is : List ι} {P : List ο × σ → Prop} (zero : P ([], s))
    (succ : ∀ n i, is[n]? = some i → P (run step s (is.take n)) →
      P (run step s (is.take (n + 1)))) (n : Nat) : P (run step s (is.take n)) := by
  induction n with
  | zero => exact zero
  | succ n ih =>
    cases hn : is[n]? with
    | none => rwa [List.take_add_one, hn, Option.toList_none, List.append_nil]
    | some i => exact succ n i hn ih

theorem run_take_rel {R : σ → σ → Prop} (refl : ∀ s, R s s)
    (trans : ∀ {a b c}, R a b → R b c → R a c) (h : ∀ s i, R s (step s i).2) (s : σ) (is : List ι)
    (n : Nat) : R (run step s (is.take n)).2 (run step s is).2 := by
  have hsplit : run step s is = run step s (is.take n ++ is.drop n) := by
    rw [List.take_append_drop]
  rw [hsplit, run_append]
  exact run_rel refl trans h _ _

/-- If the answer to each step of a run is good exactly when the step meets `C` in the state it
finds, all answers are good exactly when all steps meet `C`. -/
theorem run_forall_iff {Q : ο → Prop} {C : σ → ι → Prop} {s : σ} {is : List ι}
    (h : ∀ pre i post, is = pre ++ i :: post →
      (Q (step (run step s pre).2 i).1 ↔ C (run step s pre).2 i)) :
    (∀ o ∈ (run step s is).1, Q o) ↔
      ∀ pre i post, is = pre ++ i :: post → C (run step s pre).2 i := by
  refine ⟨fun hall pre i post hsplit => ?_, fun hall => ?_⟩
  · apply (h pre i post hsplit).1
    apply hall
    rw [hsplit, run_append, run_cons]
    exact List.mem_append_right _ List.mem_cons_self
  · induction is using List.reverseRecOn with
    | nil => exact fun o ho => by cases ho
    | append_singleton is i ih =>
      have hpre : ∀ pre j post, is = pre ++ j :: post →
          is ++ [i] = pre ++ j :: (post ++ [i]) := fun pre j post he => by simp [he]
      intro o ho
      rw [run_snoc] at ho
      rcases List.mem_append.1 ho with ho | ho
      · exact ih (fun pre j post he => h pre j _ (hpre pre j post he))
          (fun pre j post he => hall pre j _ (hpre pre j post he)) o ho
      · rw [List.mem_singleton.1 ho]
        exact (h is i [] rfl).2 (hall is i [] rfl)

/-- The same for answers that are decided only in states that satisfy `I`, which good answers
keep. -/
theorem run_forall_iff_of_inv {Q : ο → Prop} {C : σ → ι → Prop} {I : σ → Prop}
    (hiff : ∀ s i, I s → (Q (step s i).1 ↔ C s i))
    (hinv : ∀ s i, I s → Q (step s i).1 → I (step s i).2) {s : σ} (h : I s) (is : List ι) :
    (∀ o ∈ (run step s is).1, Q o) ↔
      ∀ pre i post, is = pre ++ i :: post → C (run step s pre).2 i := by
  induction is generalizing s with
  | nil => simp
  | cons i is ih =>
    rw [run_cons, List.forall_mem_cons]
    constructor
    · intro ⟨hq, hrest⟩ pre j post hsplit
      cases pre with
      | nil =>
        cases hsplit
        exact (hiff s i h).1 hq
      | cons i' pre =>
        obtain ⟨rfl, htail⟩ := List.cons.inj hsplit
        rw [run_cons]
        exact (ih (hinv s i h hq)).1 hrest pre j post htail
    · intro hall
      have hq := (hiff s i h).2 (hall [] i is rfl)
      refine ⟨hq, (ih (hinv s i h hq)).2 fun pre j post hsplit => ?_⟩
      have := hall (i :: pre) j post (by rw [hsplit, List.cons_append])
      rwa [run_cons] at this

/-- Two machines on inputs that correspond. Their states stay related and their answers agree while
the first machine is within `G`, which holds of a state whenever it holds of a later one. -/
theorem run_sim {σ' ι' ο' : Type} {step' : σ' → ι' → ο' × σ'} {I : ι → ι' → Prop}
    {O : ο → ο' → Prop} {R : σ → σ' → Prop} {G : σ → Prop}
    (hG : ∀ s i, G (step s i).2 → G s)
    (hstep : ∀ s s' i i', I i i' → R s s' → G (step s i).2 →
      O (step s i).1 (step' s' i').1 ∧ R (step s i).2 (step' s' i').2)
    {s : σ} {s' : σ'} (h : R s s') {is : List ι} {is' : List ι'} (hI : List.Forall₂ I is is')
    (hfin : G (run step s is).2) :
    List.Forall₂ O (run step s is).1 (run step' s' is').1 ∧
      R (run step s is).2 (run step' s' is').2 := by
  have hback : ∀ (s : σ) (is : List ι), G (run step s is).2 → G s :=
    run_rel (R := fun s s' => G s' → G s) (fun _ h => h) (fun h h' hc => h (h' hc)) hG
  induction hI generalizing s s' with
  | nil => exact ⟨.nil, h⟩
  | @cons i i' is is' hi _ ih =>
    rw [run_cons] at hfin
    obtain ⟨ho, hr⟩ := hstep s s' i i' hi h (hback _ is hfin)
    obtain ⟨hos, hrs⟩ := ih hr hfin
    exact ⟨.cons ho hos, hrs⟩

end Machine
