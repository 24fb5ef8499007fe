import TinyKv.Lib.Bytes

/-!
# Readers that accept exactly the encodings of their results

A reader walks over the bytes of a file: its state is the position, and it may fail.
`Parses x Enc` says that `x` succeeds exactly where the file goes on with an encoding of the result
(`Enc a bs`: the bytes `bs` encode `a`) and then stands behind it, and that all its failures are of
one kind. Readers made of such readers are such readers (`Parses.bind`), so what a whole reader
accepts is read off from its parts.

`FailsMore bad x y` says that `x` does what `y` does or fails with `bad`, for a reader that asks for
something which `y` is given.
-/

/-- A fallible reader over the bytes of a file. -/
abbrev FileReader (ε α : Type) := ReaderT Bytes (StateT Nat (Except ε)) α

namespace FileReader

variable {ε α β : Type}

theorem run_bind (x : FileReader ε α) (f : α → FileReader ε β) (file : Bytes) (pos : Nat) :
    (x >>= f) file pos = match x file pos with
      | .ok (a, pos) => f a file pos
      | .error e => .error e := by
  show Except.bind (x file pos) _ = _
  cases x file pos <;> rfl

/-- The reader accepts the encodings of its results, and fails in no other way than `Bad`. -/
structure Parses (Bad : ε → Prop) (x : FileReader ε α) (Enc : α → Bytes → Prop) : Prop where
  ok_iff : ∀ file pos a pos', x file pos = .ok (a, pos') ↔
    ∃ bs, Enc a bs ∧ bs <+: file.drop pos ∧ pos' = pos + bs.length
  bad : ∀ file pos e, x file pos = .error e → Bad e

namespace Parses

variable {Bad : ε → Prop} {x : FileReader ε α} {Enc Enc' : α → Bytes → Prop}

theorem congr (h : Parses Bad x Enc) (he : ∀ a bs, Enc a bs ↔ Enc' a bs) : Parses Bad x Enc' := by
  refine ⟨fun file pos a pos' => ?_, h.bad⟩
  rw [h.ok_iff]
  simp only [he]

theorem pure (Bad : ε → Prop) (a : α) :
    Parses Bad (Pure.pure a : FileReader ε α) fun b bs => b = a ∧ bs = [] := by
  have hrun : ∀ file pos, (Pure.pure a : FileReader ε α) file pos = .ok (a, pos) :=
    fun _ _ => rfl
  refine ⟨fun file pos b pos' => ?_, fun file pos e h => ?_⟩
  · rw [hrun]
    refine ⟨fun h => ?_, fun henc => ?_⟩
    · cases h
      exact ⟨[], ⟨rfl, rfl⟩, List.nil_prefix, rfl⟩
    · obtain ⟨bs, ⟨rfl, rfl⟩, -, rfl⟩ := henc
      rfl
  · rw [hrun] at h
    cases h

/-- **One reader after the other.** -/
theorem bind {f : α → FileReader ε β} {Enc' : α → β → Bytes → Prop} (h : Parses Bad x Enc)
    (hf : ∀ a, Parses Bad (f a) (Enc' a)) :
    Parses Bad (x >>= f) fun b bs => ∃ a bs₁ bs₂, Enc a bs₁ ∧ Enc' a b bs₂ ∧ bs = bs₁ ++ bs₂ := by
  refine ⟨fun file pos b pos' => ?_, fun file pos e he => ?_⟩
  · rw [run_bind]
    refine ⟨fun hrun => ?_, fun henc => ?_⟩
    · split at hrun
      · rename_i a pos₁ hx
        obtain ⟨bs₁, he₁, hp₁, rfl⟩ := (h.ok_iff ..).1 hx
        obtain ⟨bs₂, he₂, hp₂, rfl⟩ := ((hf a).ok_iff ..).1 hrun
        exact ⟨bs₁ ++ bs₂, ⟨a, bs₁, bs₂, he₁, he₂, rfl⟩, Bytes.append_prefix_drop.2 ⟨hp₁, hp₂⟩,
          by rw [List.length_append, Nat.add_assoc]⟩
      · cases hrun
    · obtain ⟨bs, ⟨a, bs₁, bs₂, he₁, he₂, rfl⟩, hp, rfl⟩ := henc
      obtain ⟨hp₁, hp₂⟩ := Bytes.append_prefix_drop.1 hp
      have hx := (h.ok_iff file pos a _).2 ⟨bs₁, he₁, hp₁, rfl⟩
      have hy := ((hf a).ok_iff file _ b _).2 ⟨bs₂, he₂, hp₂, rfl⟩
      rw [hx]
      dsimp only
      rw [hy, List.length_append, Nat.add_assoc]
  · rw [run_bind] at he
    split at he
    · exact (hf _).bad _ _ _ he
    · rename_i e' hx
      cases he
      exact h.bad _ _ _ hx

theorem bind_pure {g : α → β} (h : Parses Bad x Enc) :
    Parses Bad (x >>= fun a => Pure.pure (g a)) fun b bs => ∃ a, Enc a bs ∧ b = g a := by
  refine (h.bind fun a => pure Bad (g a)).congr fun b bs => ?_
  refine ⟨fun henc => ?_, fun henc => ?_⟩
  · obtain ⟨a, bs₁, bs₂, he, ⟨rfl, rfl⟩, rfl⟩ := henc
    exact ⟨a, by rwa [List.append_nil], rfl⟩
  · obtain ⟨a, he, rfl⟩ := henc
    exact ⟨a, bs, [], he, ⟨rfl, rfl⟩, (List.append_nil bs).symm⟩

end Parses

/-- `x` does what `y` does, or fails with `bad`. -/
def FailsMore (bad : ε) (x y : FileReader ε α) : Prop :=
  ∀ file pos, x file pos = y file pos ∨ x file pos = .error bad

namespace FailsMore

variable {bad : ε} {x y : FileReader ε α}

theorem refl (bad : ε) (x : FileReader ε α) : FailsMore bad x x := fun _ _ => .inl rfl

theorem bind {f g : α → FileReader ε β} (h : FailsMore bad x y)
    (hf : ∀ a, FailsMore bad (f a) (g a)) : FailsMore bad (x >>= f) (y >>= g) := by
  intro file pos
  simp only [run_bind]
  obtain heq | hbad := h file pos
  · rw [heq]
    cases y file pos with
    | error e => exact .inl rfl
    | ok r => exact hf r.1 file r.2
  · rw [hbad]
    exact .inr rfl

end FailsMore

end FileReader
