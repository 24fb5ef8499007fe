import TinyKv.Core.DbImpl

/-!
# After a failed flush

`m_readOnly` is set before a flush and cleared only where it succeeds. So over any storage manager,
in any state and for any reason, a flush that fails leaves the memtable read-only
(`flushToDisk_readOnly`), and writes are refused (`failed_flush_wedges`) until a later flush, which can
only be an explicit one, succeeds.
-/

namespace TinyKv

open Bytes

section

variable {σ : Type} [StorageManager σ]

/-- The call starts a flush, and the flush does not succeed: the storage manager throws or returns
an error, or the log cannot be removed. -/
def FlushFails (db : DbImpl σ) (env : Env) (fs : FileSystem) (c : Call) : Prop :=
  db.StartsFlush fs c ∧ (db.m_memTable.flushToDisk env fs).1 ≠ .ok none

/-- What a failed flush should leave: every key reads as before, and writes are taken again. -/
structure Recovered (db db' : DbImpl σ) (fs fs' : FileSystem) : Prop where
  reads : ∀ key, db'.get fs' key = db.get fs key
  readOnly : db'.m_memTable.m_readOnly = false
  puts : ∀ (env : Env) (key val : Bytes), env.NoFault →
    (db'.put env key val fs').1 = .ok ⟨true, "OK", none⟩

/-- A flush that does not succeed leaves `m_readOnly` set. -/
theorem flushToDisk_readOnly {m : MemTableImpl σ} {env : Env} {fs : FileSystem}
    (h : (m.flushToDisk env fs).1 ≠ .ok none) : (m.flushToDisk env fs).2.1.m_readOnly = true := by
  simp only [MemTableImpl.flushToDisk] at h ⊢
  split
  · rfl
  · rfl
  · rename_i sm fs' hw
    rw [hw] at h
    dsimp only at h
    cases hr : WAL.remove env.removeFault fs' with
    | mk err fs'' =>
      cases err with
      | some err => rfl
      | none =>
        rw [hr] at h
        exact absurd rfl h

theorem flushIfFull_readOnly {m : MemTableImpl σ} {env : Env} {fs : FileSystem}
    (hfull : m.m_skiplist.getLength = some m.m_size)
    (h : (m.flushToDisk env fs).1 ≠ .ok none) :
    (m.flushIfFull env fs).1 ≠ .ok none ∧ (m.flushIfFull env fs).2.1.m_readOnly = true := by
  rw [MemTableImpl.flushIfFull, if_pos hfull]
  exact ⟨h, flushToDisk_readOnly h⟩

theorem put_readOnly {m : MemTableImpl σ} {env : Env} {fs : FileSystem} (key val : Bytes)
    (hro : m.m_readOnly = false) (h : (m.flushIfFull env fs).1 ≠ .ok none ∧
      (m.flushIfFull env fs).2.1.m_readOnly = true) :
    (m.put env key val fs).2.1.m_readOnly = true := by
  obtain ⟨hne, hset⟩ := h
  rw [MemTableImpl.put, if_neg (by simp [hro])]
  cases hf : m.flushIfFull env fs with
  | mk res rest =>
    rw [hf] at hne hset
    cases res with
    | error f => exact hset
    | ok err =>
      cases err with
      | none => exact absurd rfl hne
      | some err => exact hset

theorem delExisting_readOnly {m : MemTableImpl σ} {env : Env} {fs : FileSystem} (key : Bytes)
    (hro : m.m_readOnly = false) (h : (m.flushIfFull env fs).1 ≠ .ok none ∧
      (m.flushIfFull env fs).2.1.m_readOnly = true) :
    (m.delExisting env key fs).2.1.m_readOnly = true := by
  obtain ⟨hne, hset⟩ := h
  rw [MemTableImpl.delExisting, if_neg (by simp [hro])]
  cases hf : m.flushIfFull env fs with
  | mk res rest =>
    rw [hf] at hne hset
    cases res with
    | error f => exact hset
    | ok err =>
      cases err with
      | none => exact absurd rfl hne
      | some err => exact hset

theorem call_readOnly {db : DbImpl σ} {env : Env} {fs : FileSystem} {c : Call}
    (h : FlushFails db env fs c) : (db.call env fs c).2.1.m_memTable.m_readOnly = true := by
  obtain ⟨m⟩ := db
  cases c with
  | put key val =>
    obtain ⟨⟨hro, hfull⟩, hfail⟩ := h
    have hset := put_readOnly key val hro (flushIfFull_readOnly hfull hfail)
    simp only [DbImpl.call, DbImpl.put]
    split <;> rename_i heq <;> rw [heq] at hset <;> exact hset
  | get key => exact h.1.elim
  | del key =>
    obtain ⟨⟨hp, hro, hfull⟩, hfail⟩ := h
    have hset := delExisting_readOnly key hro (flushIfFull_readOnly hfull hfail)
    rw [← MemTableImpl.del_eq_delExisting hp] at hset
    simp only [DbImpl.call, DbImpl.del]
    split <;> rename_i heq <;> rw [heq] at hset <;> exact hset
  | forceFlushForTests =>
    have hset := flushToDisk_readOnly h.2
    simp only [DbImpl.call, DbImpl.forceFlushForTests]
    split <;> rename_i heq <;> rw [heq] at hset <;> exact hset
  | forceCompactForTests => exact h.1.elim

theorem put_refused {db : DbImpl σ} (h : db.m_memTable.m_readOnly = true) (env : Env)
    (key val : Bytes) (fs : FileSystem) : db.put env key val fs =
      (.ok ⟨false, "[MemTableImpl.put()] Cannot PUT: memtable in read-only mode", none⟩, db, fs) := by
  simp only [DbImpl.put, MemTableImpl.put, h, ↓reduceIte]

/-- **No failed flush is recovered from**: whichever call started it and however it failed, it leaves
`m_readOnly` set, and every put is refused until a later flush succeeds. -/
theorem failed_flush_wedges (db : DbImpl σ) (env : Env) (fs : FileSystem) (c : Call)
    (h : FlushFails db env fs c) :
    ¬ Recovered db (db.call env fs c).2.1 fs (db.call env fs c).2.2 ∧
      (db.call env fs c).2.1.m_memTable.m_readOnly = true ∧
      ∀ (env' : Env) (key val : Bytes) (fs' : FileSystem),
        (db.call env fs c).2.1.put env' key val fs' =
          (.ok ⟨false, "[MemTableImpl.put()] Cannot PUT: memtable in read-only mode", none⟩,
            (db.call env fs c).2.1, fs') := by
  have hro := call_readOnly h
  refine ⟨fun hrec => ?_, hro, put_refused hro⟩
  have := hrec.readOnly
  rw [hro] at this
  cases this

end

/-- A new database after a put, and the call that then fails: the log cannot be removed. -/
theorem failed_flush_wedges_remove :
    let x := (Machine.run DbImpl.step (createDbWithConfig {}, FileSystem.empty)
      [(.put "a" "1", {})]).2
    let db' := (x.1.call { removeFault := some "busy" } x.2 .forceFlushForTests).2.1
    ¬ Recovered x.1 db' x.2 (x.1.call { removeFault := some "busy" } x.2 .forceFlushForTests).2.2 ∧
      db'.m_memTable.m_readOnly = true := by
  intro x db'
  have hfail : FlushFails x.1 { removeFault := some "busy" } x.2 .forceFlushForTests := by
    refine ⟨trivial, ?_⟩
    decide +kernel
  have h := failed_flush_wedges x.1 { removeFault := some "busy" } x.2 .forceFlushForTests hfail
  exact ⟨h.1, h.2.1⟩

/-- **A flush of an empty memtable is enough**: it throws, and from then on no put is taken. -/
theorem empty_flush_wedges :
    let x := (Machine.run DbImpl.step (createDbWithConfig {}, FileSystem.empty)
      [(.forceFlushForTests, {})]).2
    x.1.m_memTable.m_readOnly = true ∧
      (x.1.put {} "a" "1" x.2).1 =
        .ok ⟨false, "[MemTableImpl.put()] Cannot PUT: memtable in read-only mode", none⟩ := by
  decide +kernel

end TinyKv
