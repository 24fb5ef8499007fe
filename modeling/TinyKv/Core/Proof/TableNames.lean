import TinyKv.Lib.Words
import TinyKv.Core.Proof.Level

/-!
# The names of new tables

A name is made of a reading of the clock, shifted by sixteen bits, and the number of names drawn
before it in the process. The shift drops the upper sixteen bits of the reading, and from the 65537th
name on the counter reaches into its lower ones, so two names can be the same although the clock never
stands still (`longClock_clashes`): the second table is then written over the first.

`names_distinct_iff`: the names of a process are distinct, and no table is written over another, iff
no two calls have counters that agree modulo `2 ^ 16` and differ above in exactly the bits in which
the lower 48 bits of their clock readings do (`NoClash`). Up to `2 ^ 16` names there are no such two
(`noClash_of_length_le`).
-/

namespace TinyKv

open Bytes

/-- The identifier in a table name. -/
def uniqueId (ns counter : UInt64) : UInt64 := ns <<< 16 ^^^ counter

theorem generateSSTableFileName_inj {env env' : Env}
    (h : generateSSTableFileName env = generateSSTableFileName env') :
    uniqueId env.ns env.nameCounter = uniqueId env'.ns env'.nameCounter :=
  UInt64.toNat_inj.1 (decimal_injective (List.append_cancel_left h))

/-- The identifiers of the names that a process draws at these readings of the clock. -/
def drawnIds (clock : List UInt64) : List UInt64 :=
  clock.mapIdx fun i ns => uniqueId ns (UInt64.ofNat i)

/-- A call of `createTable`, on any level. -/
structure CreateCall where
  level : LevelManagerImpl
  tableFormat : TableFormatKind
  entries : List Entry
  allocator : FileNumberAllocator
  env : Env

/-- The disk after a call, whether it returns or throws. -/
def CreateCall.run (fs : FileSystem) (c : CreateCall) : FileSystem :=
  (c.level.createTable c.env c.tableFormat c.entries c.allocator fs).2.2

/-- The calls of a process: the counter numbers them. -/
def ProcessCalls (clock : List UInt64) (calls : List CreateCall) : Prop :=
  calls.map (fun c => (c.env.ns, c.env.nameCounter)) = clock.mapIdx fun i ns => (ns, UInt64.ofNat i)

/-- What names are for: no two are the same, and no call finds a file where it writes its own. -/
structure NamesDistinct (clock : List UInt64) : Prop where
  ids : (drawnIds clock).Nodup
  fresh : ∀ calls, ProcessCalls clock calls → ∀ fs : FileSystem, (∀ l n, fs.file? l n = none) →
    ∀ before c after, calls = before ++ c :: after →
      (before.foldl CreateCall.run fs).file? (levelName c.level.m_levelNum)
        (generateSSTableFileName c.env) = none

/-- No two calls have counters that agree in their lower 16 bits and differ above these where the
lower 48 bits of the clock readings do. -/
def NoClash (clock : List UInt64) : Prop :=
  ∀ (i j : Nat) (hi : i < clock.length) (hj : j < clock.length), i < j → i % 2 ^ 16 = j % 2 ^ 16 →
    (clock[i] ^^^ clock[j]).toNat % 2 ^ 48 ≠ i / 2 ^ 16 ^^^ j / 2 ^ 16

/-! ## The identifiers -/

theorem toNat_uniqueId {ns : UInt64} {i : Nat} (hi : i < 2 ^ 64) :
    (uniqueId ns (UInt64.ofNat i)).toNat = Words.shiftXor 64 16 ns.toNat i := by
  rw [uniqueId, UInt64.toNat_xor, UInt64.toNat_shiftLeft, toNat_ofNat_uint64 hi, Words.shiftXor,
    Nat.shiftLeft_eq]
  rfl

theorem uniqueId_eq_iff {ns ns' : UInt64} {i j : Nat} (hi : i < 2 ^ 64) (hj : j < 2 ^ 64) :
    uniqueId ns (UInt64.ofNat i) = uniqueId ns' (UInt64.ofNat j) ↔
      i % 2 ^ 16 = j % 2 ^ 16 ∧ (ns ^^^ ns').toNat % 2 ^ 48 = i / 2 ^ 16 ^^^ j / 2 ^ 16 := by
  rw [← UInt64.toNat_inj, toNat_uniqueId hi, toNat_uniqueId hj,
    Words.shiftXor_eq_iff (by decide), UInt64.toNat_xor]

theorem le_toNat_of_increasing {clock : List UInt64} (hinc : clock.Pairwise (· < ·)) (i : Nat)
    (hi : i < clock.length) : i ≤ clock[i].toNat := by
  induction i with
  | zero => exact Nat.zero_le _
  | succ i ih =>
    have hlt := List.pairwise_iff_getElem.1 hinc i (i + 1) (by omega) hi (Nat.lt_succ_self i)
    have hle := ih (by omega)
    rw [UInt64.lt_iff_toNat_lt] at hlt
    omega

/-- **The names of a process** are distinct iff no two clash. -/
theorem drawnIds_nodup_iff {clock : List UInt64} (hlen : clock.length ≤ 2 ^ 64) :
    (drawnIds clock).Nodup ↔ NoClash clock := by
  rw [List.nodup_iff_pairwise_ne, List.pairwise_iff_getElem]
  unfold drawnIds
  simp only [List.length_mapIdx, List.getElem_mapIdx]
  refine ⟨fun h i j hi hj hij hmod hxor => ?_, fun h i j hi hj hij heq => ?_⟩
  · exact h i j hi hj hij ((uniqueId_eq_iff (by omega) (by omega)).2 ⟨hmod, hxor⟩)
  · obtain ⟨hmod, hxor⟩ := (uniqueId_eq_iff (by omega) (by omega)).1 heq
    exact h i j hi hj hij hmod hxor

/-- The counter reaches into the clock only from the 65537th name on. -/
theorem noClash_of_length_le {clock : List UInt64} (h : clock.length ≤ 2 ^ 16) : NoClash clock := by
  intro i j hi hj hij hmod
  omega

/-! ## The files -/

theorem file_of_runs {fs : FileSystem} (hempty : ∀ l n, fs.file? l n = none)
    (calls : List CreateCall) {l n : Bytes} (h : (calls.foldl CreateCall.run fs).file? l n ≠ none) :
    ∃ c ∈ calls, n = generateSSTableFileName c.env := by
  induction calls using List.reverseRecOn with
  | nil => exact absurd (hempty l n) h
  | append_singleton calls c ih =>
    rw [List.foldl_append, List.foldl_cons, List.foldl_nil] at h
    by_cases hname : n = generateSSTableFileName c.env
    · exact ⟨c, List.mem_append_right _ List.mem_cons_self, hname⟩
    · rw [CreateCall.run, LevelManagerImpl.createTable_files _ _ _ _ _ _ _ hname] at h
      obtain ⟨c', hc', hn⟩ := ih h
      exact ⟨c', List.mem_append_left _ hc', hn⟩

theorem fresh_of_nodup {clock : List UInt64} (hnodup : (drawnIds clock).Nodup)
    {calls : List CreateCall} (hcalls : ProcessCalls clock calls) {fs : FileSystem}
    (hempty : ∀ l n, fs.file? l n = none) {before after : List CreateCall} {c : CreateCall}
    (hsplit : calls = before ++ c :: after) (l : Bytes) :
    (before.foldl CreateCall.run fs).file? l (generateSSTableFileName c.env) = none := by
  have hids : calls.map (fun c => uniqueId c.env.ns c.env.nameCounter) = drawnIds clock := by
    rw [drawnIds, List.mapIdx_eq_zipIdx_map]
    have := congrArg (List.map fun p : UInt64 × UInt64 => uniqueId p.1 p.2) hcalls
    rwa [List.mapIdx_eq_zipIdx_map, List.map_map, List.map_map] at this
  rw [← hids, hsplit, List.map_append, List.map_cons] at hnodup
  by_contra hfile
  obtain ⟨c', hc', hname⟩ := file_of_runs hempty before hfile
  have hne := (List.nodup_append.1 hnodup).2.2 _ (List.mem_map_of_mem hc') _ List.mem_cons_self
  exact hne (generateSSTableFileName_inj hname).symm

/-- **Table names never collide** iff no two calls clash. -/
theorem names_distinct_iff {clock : List UInt64} (hinc : clock.Pairwise (· < ·))
    (hns : ∀ ns ∈ clock, ns.toNat < 2 ^ 63) : NamesDistinct clock ↔ NoClash clock := by
  have hlen : clock.length ≤ 2 ^ 64 := by
    by_contra hlong
    have hi : 2 ^ 64 - 1 < clock.length := by omega
    have hle := le_toNat_of_increasing hinc _ hi
    have hlt := hns _ (List.getElem_mem hi)
    omega
  rw [← drawnIds_nodup_iff hlen]
  refine ⟨fun h => h.ids, fun h => ⟨h, ?_⟩⟩
  intro calls hcalls fs hempty before c after hsplit
  exact fresh_of_nodup h hcalls hempty hsplit _

/-- Three readings. -/
theorem names_distinct_iff_three : NamesDistinct [5, 7, 0x1000000000007] := by
  refine (names_distinct_iff (by decide) ?_).2 (noClash_of_length_le (by decide))
  intro ns hns
  simp only [List.mem_cons, List.not_mem_nil, or_false] at hns
  rcases hns with rfl | rfl | rfl <;> decide

/-- A reading for every nanosecond, and a last one at `2 ^ 48 + 1`, some 78 hours later. -/
def longClock : List UInt64 := (List.range 65536).map UInt64.ofNat ++ [0x1000000000001]

theorem longClock_increasing : longClock.Pairwise (· < ·) := by
  have hsmall : ∀ n < 65536, (UInt64.ofNat n).toNat = n := fun n hn => toNat_ofNat_uint64 (by omega)
  refine List.pairwise_append.2 ⟨?_, List.pairwise_singleton _ _, ?_⟩
  · refine List.pairwise_map.2 (List.pairwise_lt_range.imp_of_mem fun ha hb hab => ?_)
    rw [UInt64.lt_iff_toNat_lt, hsmall _ (List.mem_range.1 ha), hsmall _ (List.mem_range.1 hb)]
    exact hab
  · intro a ha b hb
    obtain ⟨n, hn, rfl⟩ := List.mem_map.1 ha
    have hn := List.mem_range.1 hn
    rw [List.mem_singleton.1 hb, UInt64.lt_iff_toNat_lt, hsmall n hn]
    exact hn.trans (by decide)

theorem longClock_nonneg : ∀ ns ∈ longClock, ns.toNat < 2 ^ 63 := by
  intro ns hns
  rcases List.mem_append.1 hns with hns | hns
  · obtain ⟨n, hn, rfl⟩ := List.mem_map.1 hns
    have hn := List.mem_range.1 hn
    rw [toNat_ofNat_uint64 (by omega)]
    omega
  · rw [List.mem_singleton.1 hns]
    decide

/-- **The first name again**, after 65536 others. -/
theorem longClock_clashes :
    longClock.Pairwise (· < ·) ∧ (∀ ns ∈ longClock, ns.toNat < 2 ^ 63) ∧
      ¬ NamesDistinct longClock := by
  refine ⟨longClock_increasing, longClock_nonneg, fun h => ?_⟩
  have hlen : longClock.length = 65537 := by simp [longClock]
  have hfirst : longClock[0]? = some 0 := by
    rw [longClock, List.getElem?_append_left (by simp)]
    simp
  have hlast : longClock[65536]? = some 0x1000000000001 := by
    rw [longClock, List.getElem?_append_right (by simp)]
    simp
  obtain ⟨h0, hfirst⟩ := List.getElem?_eq_some_iff.1 hfirst
  obtain ⟨h1, hlast⟩ := List.getElem?_eq_some_iff.1 hlast
  have hclash := (drawnIds_nodup_iff (by omega)).1 h.ids 0 65536 h0 h1 (by decide) (by decide)
  rw [hfirst, hlast] at hclash
  exact hclash (by decide)

end TinyKv
