import TinyKv.Lib.Bytes

/-!
# Bits of a byte string

The bit `i` of a byte string is the bit `i % 8` of its byte `i / 8`. Setting a bit sets that one and
no other (`isSet_setBit_iff`). It keeps the ones that are set (`IsSet.setBit`), so a bit that one step
of a fold sets is set at the end (`foldl_reaches`).
-/

namespace Bytes

/-- `1 << (i % 8)`. -/
def bitMask (i : Nat) : UInt8 := UInt8.ofNat (1 <<< (i % 8))

/-- The bit `i` lies inside the byte string and is set. -/
def IsSet (bs : Bytes) (i : Nat) : Prop := ∃ b, bs[i / 8]? = some b ∧ b &&& bitMask i ≠ 0

/-- `bs[i / 8] |= 1 << (i % 8)`. -/
def setBit (bs : Bytes) (i : Nat) : Bytes := bs.modify (i / 8) fun b => b ||| bitMask i

theorem bitMask_ne_zero (i : Nat) : bitMask i ≠ 0 := by
  have hlt : i % 8 < 8 := Nat.mod_lt _ (by decide)
  unfold bitMask
  generalize i % 8 = j at hlt
  revert j
  decide

theorem or_and_ne_zero_of_left {a b m : UInt8} (h : a &&& m ≠ 0) : (a ||| b) &&& m ≠ 0 := by
  have hdistrib : (a ||| b) &&& m = (a &&& m) ||| (b &&& m) :=
    UInt8.toBitVec_inj.1 BitVec.and_or_distrib_right
  rw [hdistrib]
  exact fun hz => h (UInt8.or_eq_zero_iff.1 hz).1

theorem isSet_setBit {bs : Bytes} {i : Nat} (h : i / 8 < bs.length) : IsSet (setBit bs i) i := by
  refine ⟨bs[i / 8] ||| bitMask i, ?_, ?_⟩
  · rw [setBit, List.getElem?_modify_eq, List.getElem?_eq_getElem h]
    rfl
  · rw [UInt8.or_comm]
    apply or_and_ne_zero_of_left
    rw [UInt8.and_self]
    exact bitMask_ne_zero i

theorem IsSet.setBit {bs : Bytes} {i : Nat} (h : IsSet bs i) (j : Nat) : IsSet (setBit bs j) i := by
  obtain ⟨b, hb, hset⟩ := h
  by_cases hij : j / 8 = i / 8
  · refine ⟨b ||| bitMask j, ?_, or_and_ne_zero_of_left hset⟩
    rw [Bytes.setBit, hij, List.getElem?_modify_eq, hb]
    rfl
  · refine ⟨b, ?_, hset⟩
    rw [Bytes.setBit, List.getElem?_modify_ne _ _ hij, hb]

theorem bitMask_and_bitMask {i j : Nat} (h : i % 8 ≠ j % 8) : bitMask j &&& bitMask i = 0 := by
  have hi : i % 8 < 8 := Nat.mod_lt _ (by decide)
  have hj : j % 8 < 8 := Nat.mod_lt _ (by decide)
  have hmasks : ∀ a < 8, ∀ b < 8, a ≠ b → UInt8.ofNat (1 <<< b) &&& UInt8.ofNat (1 <<< a) = 0 := by
    decide
  exact hmasks _ hi _ hj h

theorem IsSet.of_setBit {bs : Bytes} {i j : Nat} (h : IsSet (Bytes.setBit bs j) i) (hij : i ≠ j) :
    IsSet bs i := by
  obtain ⟨b, hb, hset⟩ := h
  by_cases hbyte : j / 8 = i / 8
  · rw [Bytes.setBit, hbyte, List.getElem?_modify_eq, Option.map_eq_map,
      Option.map_eq_some_iff] at hb
    obtain ⟨a, ha, rfl⟩ := hb
    have hdistrib : (a ||| bitMask j) &&& bitMask i = (a &&& bitMask i) ||| (bitMask j &&& bitMask i) :=
      UInt8.toBitVec_inj.1 BitVec.and_or_distrib_right
    rw [hdistrib, bitMask_and_bitMask (by omega), UInt8.or_zero] at hset
    exact ⟨a, ha, hset⟩
  · rw [Bytes.setBit, List.getElem?_modify_ne _ _ hbyte] at hb
    exact ⟨b, hb, hset⟩

/-- **One bit more**, and only that one. -/
theorem isSet_setBit_iff {bs : Bytes} {i j : Nat} (h : j / 8 < bs.length) :
    IsSet (Bytes.setBit bs j) i ↔ i = j ∨ IsSet bs i := by
  refine ⟨fun hset => ?_, fun hor => ?_⟩
  · by_cases hij : i = j
    · exact .inl hij
    · exact .inr (hset.of_setBit hij)
  · rcases hor with rfl | hset
    · exact isSet_setBit h
    · exact hset.setBit j

theorem not_isSet_replicate (n i : Nat) : ¬ IsSet (List.replicate n 0) i := by
  intro h
  obtain ⟨b, hb, hset⟩ := h
  rw [List.getElem?_replicate] at hb
  split at hb
  · cases hb
    exact hset UInt8.zero_and
  · cases hb

@[simp] theorem length_setBit (bs : Bytes) (i : Nat) : (setBit bs i).length = bs.length :=
  List.length_modify ..

/-- What one step of a fold brings about and every step keeps holds at the end. -/
theorem foldl_reaches {α β : Type} {P : β → Prop} {f : β → α → β} {l : List α} {a : α}
    (ha : a ∈ l) (reach : ∀ b, P (f b a)) (keep : ∀ b x, P b → P (f b x)) (b : β) :
    P (l.foldl f b) := by
  have hkeep : ∀ (l : List α) b, P b → P (l.foldl f b) := by
    intro l
    induction l with
    | nil => exact fun _ h => h
    | cons x l ih => exact fun b h => ih _ (keep b x h)
  induction l generalizing b with
  | nil => cases ha
  | cons x l ih =>
    rcases List.mem_cons.1 ha with rfl | ha
    · exact hkeep l _ (reach b)
    · exact ih ha _

end Bytes
