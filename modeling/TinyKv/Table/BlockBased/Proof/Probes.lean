import TinyKv.Lib.Words
import TinyKv.Table.BlockBased.Proof.Filter
import Mathlib.Data.Set.Card

/-!
# Seven bits for every key

The seeds of `hashKeyWithSeed` differ in the low bits of the first state, and no byte of the key makes
two states agree there: xor with the byte and multiplication by an odd number lose nothing of the low
bits (`hashFrom_mod_inj`). So the seven probes for a key are seven different bits (`seven_bits`).
-/

namespace TinyKv

open Bytes

namespace BlockBasedTableFormat

/-- What the loop of `hashKeyWithSeed` does with a byte. -/
def hashByte (hash : UInt64) (byte : UInt8) : UInt64 := (hash ^^^ byte.toUInt64) * 1099511628211

theorem toNat_hashByte_mod {k : Nat} (hk : k ≤ 64) (hash : UInt64) (byte : UInt8) :
    (hashByte hash byte).toNat % 2 ^ k = (hash.toNat ^^^ byte.toNat) * 1099511628211 % 2 ^ k := by
  rw [hashByte, UInt64.toNat_mul, UInt64.toNat_xor, UInt8.toNat_toUInt64,
    Nat.mod_mod_of_dvd _ (Nat.pow_dvd_pow 2 hk)]
  rfl

/-- **The loop keeps states apart** that differ in their low bits. -/
theorem hashFrom_mod_inj {k : Nat} (hk : k ≤ 64) (key : Bytes) (a b : UInt64) :
    (key.foldl hashByte a).toNat % 2 ^ k = (key.foldl hashByte b).toNat % 2 ^ k ↔
      a.toNat % 2 ^ k = b.toNat % 2 ^ k := by
  induction key generalizing a b with
  | nil => exact Iff.rfl
  | cons byte key ih =>
    rw [List.foldl_cons, List.foldl_cons, ih, toNat_hashByte_mod hk, toNat_hashByte_mod hk,
      Words.mul_mod_inj (by decide), Words.xor_mod_inj]

/-- The probes of two seeds are the same bit iff the seeds agree in their low thirteen bits. -/
theorem bitIndex_eq_iff (key : Bytes) (s t : Nat) :
    bitIndex key s = bitIndex key t ↔ s % 2 ^ 13 = t % 2 ^ 13 := by
  have hseed : ∀ n, (UInt64.ofNat n).toNat % 2 ^ 13 = n % 2 ^ 13 := by
    intro n
    rw [UInt64.toNat_ofNat', Nat.mod_mod_of_dvd _ (Nat.pow_dvd_pow 2 (by decide))]
  have hrun := hashFrom_mod_inj (show 13 ≤ 64 by decide) key (1469598103934665603 ^^^ UInt64.ofNat s)
    (1469598103934665603 ^^^ UInt64.ofNat t)
  rw [UInt64.toNat_xor, UInt64.toNat_xor, Nat.xor_comm, Nat.xor_comm _ (UInt64.ofNat t).toNat,
    Words.xor_mod_inj, hseed, hseed] at hrun
  exact hrun

theorem bitIndex_injOn (key : Bytes) :
    Set.InjOn (bitIndex key) (Finset.range FILTER_NUM_HASHES.toNat) := by
  intro s hs t ht heq
  have hs := Finset.mem_range.1 hs
  have ht := Finset.mem_range.1 ht
  have hseven : FILTER_NUM_HASHES.toNat = 7 := rfl
  rw [bitIndex_eq_iff] at heq
  omega

/-- The bits of a filter after a key: those before, and its probes. -/
theorem isSet_addKeyToFilter_iff {bitset key : Bytes} {i : Nat} (hlen : bitset.length = 1024) :
    IsSet (addKeyToFilter bitset key) i ↔
      (∃ seed < FILTER_NUM_HASHES.toNat, bitIndex key seed = i) ∨ IsSet bitset i := by
  have hfold : ∀ (seeds : List Nat) (bs : Bytes), bs.length = 1024 →
      (IsSet (seeds.foldl (fun bs seed => setBit bs (bitIndex key seed)) bs) i ↔
        (∃ seed ∈ seeds, bitIndex key seed = i) ∨ IsSet bs i) := by
    intro seeds
    induction seeds with
    | nil => simp
    | cons seed seeds ih =>
      intro bs hbs
      have hlt := bitIndex_lt key seed
      have hkeep : (setBit bs (bitIndex key seed)).length = 1024 := (length_setBit _ _).trans hbs
      have hset : IsSet (setBit bs (bitIndex key seed)) i ↔ i = bitIndex key seed ∨ IsSet bs i :=
        isSet_setBit_iff (by omega)
      rw [List.foldl_cons, ih _ hkeep, hset]
      simp only [List.mem_cons, exists_eq_or_imp, eq_comm (a := i)]
      exact or_left_comm.trans or_assoc.symm
  rw [addKeyToFilter, hfold _ _ hlen]
  simp only [List.mem_range]

/-- **Every key uses seven different bits**, and sets exactly these in an empty filter. -/
theorem seven_bits (key : Bytes) :
    (∀ s < FILTER_NUM_HASHES.toNat, ∀ t < FILTER_NUM_HASHES.toNat, s ≠ t →
      (hashKeyWithSeed key (UInt64.ofNat s)).toNat % FILTER_NUM_BITS.toNat ≠
        (hashKeyWithSeed key (UInt64.ofNat t)).toNat % FILTER_NUM_BITS.toNat) ∧
    Set.ncard {i | IsSet
      (addKeyToFilter (List.replicate ((FILTER_NUM_BITS.toNat + 7) / 8) 0) key) i} = 7 := by
  have hinj := bitIndex_injOn key
  have hlen : (List.replicate ((FILTER_NUM_BITS.toNat + 7) / 8) (0 : UInt8)).length = 1024 :=
    List.length_replicate
  refine ⟨fun s hs t ht hne heq => hne ?_, ?_⟩
  · exact hinj (Finset.mem_range.2 hs) (Finset.mem_range.2 ht) heq
  · have hbits : {i | IsSet
        (addKeyToFilter (List.replicate ((FILTER_NUM_BITS.toNat + 7) / 8) 0) key) i} =
        ((Finset.range FILTER_NUM_HASHES.toNat).image (bitIndex key) : Set Nat) := by
      ext i
      rw [Set.mem_ofPred_eq, isSet_addKeyToFilter_iff hlen]
      simp only [not_isSet_replicate, or_false, Finset.coe_image, Set.mem_image, Finset.coe_range,
        Set.mem_Iio]
    rw [hbits, Set.ncard_coe_finset, Finset.card_image_of_injOn hinj, Finset.card_range]
    rfl

end BlockBasedTableFormat

end TinyKv
