import TinyKv.Core.Proof.KeyValue

/-!
# When a delete is acknowledged

`MemTableImpl::del` asks the skip list and then the storage manager whether the key exists. The
storage manager hides tombstones, the skip list does not: a key whose tombstone is still in the skip
list is deleted once more, while after a flush the same `del` is refused. `del_ok_iff_get_ok` says
in which states `del` is acknowledged exactly for the keys that `get` finds.
-/

namespace TinyKv

open Bytes

/-- The call returned, with an `ok` response. -/
def AnsweredOk (res : Except Fault Response) : Prop := ∃ r, res = .ok r ∧ r.ok = true

theorem answeredOk_iff (res : Except Fault Response) :
    AnsweredOk res ↔ ∃ r, res.toOption = some r ∧ r.ok = true := by
  cases res <;> simp [AnsweredOk, Except.toOption]

/-- The memtable is full and what it holds cannot be written as a table. -/
def Stuck (config : DbFactoryConfig) (m : MemTableImpl StorageManagerImpl) : Prop :=
  m.m_skiplist.getLength = some m.m_size ∧ canWrite config m.m_skiplist.toList = false

/-- The skip list has no tombstone for `k`; or the memtable is stuck and `k` does not exist. -/
def DelAgrees (config : DbFactoryConfig) (db : DbImpl StorageManagerImpl) (fs : FileSystem)
    (k : Bytes) : Prop :=
  (¬ Stuck config db.m_memTable →
    ∀ e, db.m_memTable.m_skiplist.find? k = some e → e.tombstone = false) ∧
  (Stuck config db.m_memTable →
    (∀ e, db.m_memTable.m_skiplist.find? k = some e → e.tombstone = true) ∧
    (db.m_memTable.m_skiplist.find? k = none →
      db.m_memTable.m_storageManager.get fs k = .ok none))

namespace Lsm

variable {capacity : Nat} {writable : List Entry → Bool} {s : Lsm} {k : Bytes}

/-- `del` wants the key in the map, as a tombstone or not, or live in the tables. -/
theorem del_ok_iff (hro : s.readOnly = false) :
    (∃ r, (s.step capacity writable (.del k)).1 = some r ∧ r.ok = true) ↔
      s.present k = true ∧ ¬ (s.mem.size = capacity ∧ writable s.mem.toList = false) := by
  rw [← write_eq_none_iff (e := ⟨k, "val", true⟩)]
  simp only [step]
  cases hp : s.present k with
  | false => simp
  | true =>
    rw [hro]
    simp only [Bool.not_true, Bool.false_eq_true, ↓reduceIte, true_and]
    rcases write_cases capacity writable s ⟨k, "val", true⟩ with ⟨h, -⟩ | ⟨h, -⟩ <;> simp [h]

theorem read_isSome_iff :
    (s.read k).isSome ↔ (∃ e, s.mem.find? k = some e ∧ e.tombstone = false) ∨
      s.mem.find? k = none ∧ (live (firstEntry s.tables k)).isSome := by
  unfold read find
  cases s.mem.find? k with
  | none => simp
  | some e =>
    rw [Option.some_or, live_some]
    cases h : e.tombstone <;> simp [h]

theorem present_iff :
    s.present k = true ↔ (∃ e, s.mem.find? k = some e) ∨
      s.mem.find? k = none ∧ (live (firstEntry s.tables k)).isSome := by
  unfold present
  cases s.mem.find? k <;> simp

end Lsm

theorem answeredOk_readResponse (v : Option Bytes) :
    AnsweredOk (.ok (readResponse v)) ↔ v.isSome := by
  cases v <;> simp [AnsweredOk, readResponse]

/-- **When `del` and `get` agree** about a key, in every state that calls lead to. -/
theorem del_ok_iff_get_ok {config : DbFactoryConfig} (hcap : 1 ≤ config.memtableCapacity)
    (hlev : 0 ≤ config.maxLevels) {steps : List (Call × Env)} (henv : ∀ c ∈ steps, c.2.NoFault)
    {db : DbImpl StorageManagerImpl} {fs : FileSystem}
    (hrun : (runFresh config steps).2 = (db, fs)) (hro : db.m_memTable.m_readOnly = false)
    {env : Env} (henv' : env.NoFault) (k : Bytes)
    (hfits : config.tableFormat = .BlockBased → Fits (db.del env k fs).2.2.effects) :
    (AnsweredOk (db.del env k fs).1 ↔ AnsweredOk (db.get fs k)) ↔ DelAgrees config db fs k := by
  have hcap0 := zero_le_of_one_le hcap
  have hfits' : config.tableFormat = .BlockBased → Fits (runFresh config steps).2.2.effects := by
    intro hb
    have hstep : Fits (DbImpl.step (db, fs) (.del k, env)).2.2.effects := hfits hb
    rw [hrun]
    exact Fits.of_step hstep
  obtain ⟨-, hrep⟩ := runFresh_refines config hlev hcap0 henv hfits'
  rw [hrun] at hrep
  set s := (Machine.run (Lsm.step (capacityOf config) (canWrite config)) {}
    (steps.map Prod.fst)).2
  have hdel : (db.del env k fs).1.toOption =
      (s.step (capacityOf config) (canWrite config) (.del k)).1 :=
    (step_refines_fresh (c := (.del k, env)) hlev hcap0 hrep henv' hfits).1
  have hget : db.get fs k = .ok (readResponse (s.read k)) := get_refines (stored_spec hlev) hrep k
  have hstorage : db.m_memTable.m_storageManager.get fs k = .ok (live (firstEntry s.tables k)) :=
    hrep.stored.get_eq k
  have hstuck : Stuck config db.m_memTable ↔
      s.mem.size = capacityOf config ∧ canWrite config s.mem.toList = false := by
    rw [Stuck, ← hrep.full_iff hcap0, hrep.skiplist]
  have hmem : db.m_memTable.m_skiplist = s.mem := hrep.skiplist
  rw [answeredOk_iff, hdel, Lsm.del_ok_iff (hrep.readOnly ▸ hro), hget, answeredOk_readResponse,
    ← hstuck, Lsm.present_iff, Lsm.read_isSome_iff, DelAgrees, hmem, hstorage]
  -- the key is in the skip list, live or not, or it is up to the storage manager
  by_cases hst : Stuck config db.m_memTable
  · cases hf : s.mem.find? k with
    | none => cases live (firstEntry s.tables k) <;> simp [hst]
    | some e => cases ht : e.tombstone <;> simp [hst, ht]
  · cases hf : s.mem.find? k with
    | none => simp [hst]
    | some e => cases ht : e.tombstone <;> simp [hst, ht]

/-- A flushed key: no tombstone in the skip list. -/
def flushedPut : List (Call × Env) :=
  [(.put "a" "1", {}), (.forceFlushForTests, { nameCounter := 1 })]

theorem del_ok_iff_get_ok_flushed :
    let x := (runFresh {} flushedPut).2
    AnsweredOk (x.1.del {} "a" x.2).1 ↔ AnsweredOk (x.1.get x.2 "a") := by
  intro x
  have henv : ∀ c ∈ flushedPut, c.2.NoFault := by
    intro c hc
    simp only [flushedPut, List.mem_cons, List.not_mem_nil, or_false] at hc
    rcases hc with rfl | rfl <;> exact ⟨fun _ => rfl, rfl, rfl⟩
  refine (@del_ok_iff_get_ok {} (by decide) (by decide) flushedPut henv x.1 x.2 rfl
    (by decide +kernel) {} ⟨fun _ => rfl, rfl, rfl⟩ "a" nofun).2 ⟨fun _ e he => ?_, fun hst => ?_⟩
  · have hnone : x.1.m_memTable.m_skiplist.find? "a" = none := by decide +kernel
    rw [hnone] at he
    cases he
  · exact absurd hst.1 (by decide +kernel)

/-- **A second `del`** of a key is acknowledged as long as its tombstone is in the skip list, and
refused once it is in a table; `get` finds no key in either state. -/
theorem second_del_acknowledged :
    let x := (runFresh {} [(.put "a" "1", {}), (.del "a", {})]).2
    let y := (runFresh {} [(.put "a" "1", {}), (.del "a", {}),
      (.forceFlushForTests, { nameCounter := 1 })]).2
    x.1.m_memTable.m_readOnly = false ∧
      (x.1.del {} "a" x.2).1 = .ok ⟨true, "OK", none⟩ ∧
      x.1.get x.2 "a" = .ok ⟨false, "Key does not exist", none⟩ ∧
      (y.1.del {} "a" y.2).1 =
        .ok ⟨false, "Failed to DELETE key: Cannot DELETE: key does not exist", none⟩ := by
  decide +kernel

end TinyKv
