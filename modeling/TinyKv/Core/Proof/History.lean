import TinyKv.Core.DbImpl
import TinyKv.Core.Proof.Levels

/-!
# The history of the disk only grows

No call takes an effect back, whatever fails in it (`DbImpl.step_effects`). So a fact about the
effects of a whole run, such as "the names drawn are distinct", holds at each of its states
(`Fits.of_step`).
-/

namespace TinyKv

open Bytes

namespace FileSystem

/-- At most the directories have changed. -/
structure Quiet (fs fs' : FileSystem) : Prop where
  effects : fs'.effects = fs.effects
  wal : fs'.wal = fs.wal

theorem Quiet.refl (fs : FileSystem) : fs.Quiet fs := ⟨rfl, rfl⟩

theorem Quiet.trans {fs fs' fs'' : FileSystem} (h : fs.Quiet fs') (h' : fs'.Quiet fs'') :
    fs.Quiet fs'' := ⟨h'.effects.trans h.effects, h'.wal.trans h.wal⟩

theorem Quiet.record {fs fs' : FileSystem} (h : fs.Quiet fs') (e : Effect) :
    (fs.record e).Quiet (fs'.record e) :=
  ⟨by rw [record_effects, record_effects, h.effects], h.wal⟩

end FileSystem

theorem LevelManagerImpl.createTable_effects (lm : LevelManagerImpl) (env : Env)
    (fmt : TableFormatKind) (es : List Entry) (allocator : FileNumberAllocator) (fs : FileSystem) :
    fs.effects <+: (lm.createTable env fmt es allocator fs).2.2.effects := by
  obtain ⟨-, res, h⟩ := lm.createTable_outcome allocator env fmt es fs
  exact (List.prefix_append _ _).trans h.effects

namespace StorageManagerImpl

theorem initLevels_quiet (sm : StorageManagerImpl) (env : Env) (fs : FileSystem) :
    fs.Quiet (sm.initLevels env fs).2.2 := by
  obtain ⟨ms, fs', hrun, -, hsame⟩ := sm.initLevels_leaves env fs
  rw [hrun]
  exact ⟨hsame.effects, hsame.wal⟩

theorem initLevels_tableFormat (sm : StorageManagerImpl) (env : Env) (fs : FileSystem) :
    (sm.initLevels env fs).2.1.m_tableFormat = sm.m_tableFormat := by
  obtain ⟨ms, fs', hrun, -, -⟩ := sm.initLevels_leaves env fs
  rw [hrun]

theorem writeLevel0_effects (sm : StorageManagerImpl) (env : Env) (es : List Entry)
    (fs : FileSystem) : fs.effects <+: (sm.writeLevel0 env es fs).2.2.effects := by
  unfold writeLevel0
  split
  · exact List.prefix_refl _
  · rename_i lm rest _
    have h := lm.createTable_effects env sm.m_tableFormat es sm.m_systemContext fs
    split <;> rename_i heq <;> rw [heq] at h <;> exact h

theorem write_effects (sm : StorageManagerImpl) (env : Env) (es : List Entry) (fs : FileSystem) :
    fs.effects <+: (sm.write env es fs).2.2.effects := by
  unfold write
  split
  · have h := (sm.initLevels_quiet env fs).effects
    split
    · rename_i heq
      rw [heq] at h
      rw [← h]
    · rename_i heq
      rw [heq] at h
      rw [← h]
      exact writeLevel0_effects ..
  · exact writeLevel0_effects ..

end StorageManagerImpl

namespace WAL

theorem append_effects (w : WAL) (fault : Option AppendFault) (e : Entry) (fs : FileSystem) :
    fs.effects <+: (w.append fault e fs).2.effects := by
  unfold append
  split <;> first | exact List.prefix_refl _ | exact List.prefix_append _ _

theorem remove_effects (fault : Option Bytes) (fs : FileSystem) :
    fs.effects <+: (WAL.remove fault fs).2.effects := by
  unfold WAL.remove
  split
  · exact List.prefix_refl _
  · split
    · exact List.prefix_refl _
    · exact List.prefix_append _ _

end WAL

namespace MemTableImpl

variable (m : MemTableImpl StorageManagerImpl) (env : Env) (fs : FileSystem)

theorem write_effects_flushToDisk :
    (m.m_storageManager.write env m.m_skiplist.toList fs).2.2.effects <+:
      (m.flushToDisk env fs).2.2.effects := by
  simp only [flushToDisk]
  split
  · rename_i f sm' fs' heq
    have hw : m.m_storageManager.write env m.m_skiplist.toList fs = (.error f, sm', fs') := heq
    rw [hw]
  · rename_i err sm' fs' heq
    have hw : m.m_storageManager.write env m.m_skiplist.toList fs = (.ok (some err), sm', fs') := heq
    rw [hw]
  · rename_i sm' fs' heq
    have hw : m.m_storageManager.write env m.m_skiplist.toList fs = (.ok none, sm', fs') := heq
    have h2 := WAL.remove_effects env.removeFault fs'
    rw [hw]
    split <;> rename_i hr <;> rw [hr] at h2 <;> exact h2

theorem flushToDisk_effects : fs.effects <+: (m.flushToDisk env fs).2.2.effects :=
  (m.m_storageManager.write_effects env m.m_skiplist.toList fs).trans
    (m.write_effects_flushToDisk env fs)

theorem flushIfFull_effects : fs.effects <+: (m.flushIfFull env fs).2.2.effects := by
  unfold flushIfFull
  split
  · exact flushToDisk_effects ..
  · exact List.prefix_refl _

theorem logAndSet_effects (e : Entry) : fs.effects <+: (m.logAndSet env e fs).2.2.effects := by
  have h := m.m_wal.append_effects env.appendFault e fs
  unfold logAndSet
  split <;> rename_i heq <;> rw [heq] at h <;> exact h

theorem flushIfFull_effects_put (key val : Bytes) (hro : m.m_readOnly = false) :
    (m.flushIfFull env fs).2.2.effects <+: (m.put env key val fs).2.2.effects := by
  unfold put
  rw [if_neg (by simp [hro])]
  split
  · rename_i heq
    rw [heq]
  · rename_i heq
    rw [heq]
  · rename_i m' fs' heq
    rw [heq]
    exact m'.logAndSet_effects env fs' ⟨key, val, false⟩

theorem flushIfFull_effects_delExisting (key : Bytes) (hro : m.m_readOnly = false) :
    (m.flushIfFull env fs).2.2.effects <+: (m.delExisting env key fs).2.2.effects := by
  unfold delExisting
  rw [if_neg (by simp [hro])]
  split
  · rename_i heq
    rw [heq]
  · rename_i heq
    rw [heq]
  · rename_i m' fs' heq
    rw [heq]
    have h := m'.logAndSet_effects env fs' ⟨key, "val", true⟩
    split
    · rename_i hl
      rw [hl] at h
      exact h
    · rename_i hl
      rw [hl] at h
      split <;> exact h

theorem put_effects (key val : Bytes) : fs.effects <+: (m.put env key val fs).2.2.effects := by
  cases hro : m.m_readOnly with
  | true =>
    rw [put, if_pos hro]
  | false => exact (m.flushIfFull_effects env fs).trans (m.flushIfFull_effects_put env fs key val hro)

theorem delExisting_effects (key : Bytes) :
    fs.effects <+: (m.delExisting env key fs).2.2.effects := by
  cases hro : m.m_readOnly with
  | true =>
    rw [delExisting, if_pos hro]
  | false =>
    exact (m.flushIfFull_effects env fs).trans (m.flushIfFull_effects_delExisting env fs key hro)

theorem del_effects (key : Bytes) : fs.effects <+: (m.del env key fs).2.2.effects := by
  unfold del
  split
  · exact delExisting_effects ..
  · split
    · exact List.prefix_refl _
    · exact List.prefix_refl _
    · exact delExisting_effects ..

end MemTableImpl

namespace DbImpl

variable (m : MemTableImpl StorageManagerImpl) (env : Env) (fs : FileSystem)

theorem put_snd (key val : Bytes) :
    (DbImpl.put ⟨m⟩ env key val fs).2 = (⟨(m.put env key val fs).2.1⟩, (m.put env key val fs).2.2) := by
  unfold put
  split <;> rename_i heq <;> rw [heq]

theorem del_snd (key : Bytes) :
    (DbImpl.del ⟨m⟩ env key fs).2 = (⟨(m.del env key fs).2.1⟩, (m.del env key fs).2.2) := by
  unfold del
  split <;> rename_i heq <;> rw [heq]

theorem forceFlushForTests_snd :
    (DbImpl.forceFlushForTests ⟨m⟩ env fs).2 =
      (⟨(m.flushToDisk env fs).2.1⟩, (m.flushToDisk env fs).2.2) := by
  unfold forceFlushForTests
  split <;> rename_i heq <;> rw [heq]

end DbImpl

/-- **No call takes an effect back.** -/
theorem DbImpl.step_effects (s : DbImpl StorageManagerImpl × FileSystem) (c : Call × Env) :
    s.2.effects <+: (DbImpl.step s c).2.2.effects := by
  obtain ⟨⟨m⟩, fs⟩ := s
  obtain ⟨c, env⟩ := c
  cases c with
  | put key val =>
    simp only [step, call, put_snd]
    exact m.put_effects env fs key val
  | get key => exact List.prefix_refl _
  | del key =>
    simp only [step, call, del_snd]
    exact m.del_effects env fs key
  | forceFlushForTests =>
    simp only [step, call, forceFlushForTests_snd]
    exact m.flushToDisk_effects env fs
  | forceCompactForTests => exact List.prefix_refl _

/-- The names drawn are distinct, and the table files shorter than `2 ^ 63` bytes. -/
structure Fits (effects : List Effect) : Prop where
  names : (drawnNames effects).Nodup
  sizes : ∀ content ∈ tableContents effects, content.length < 2 ^ 63

theorem Fits.earlier {effects effects' : List Effect} (h : Fits effects')
    (hp : effects <+: effects') : Fits effects := by
  obtain ⟨more, rfl⟩ := hp
  have hnames := h.names
  rw [drawnNames_append] at hnames
  refine ⟨(List.nodup_append.1 hnames).1, fun c hc => h.sizes c ?_⟩
  rw [tableContents_append]
  exact List.mem_append_left _ hc

theorem Fits.fresh {effects more : List Effect} {name : Bytes}
    (h : Fits (effects ++ .nameDrawn name :: more)) : name ∉ drawnNames effects := by
  have hnames := h.names
  rw [drawnNames_append, List.nodup_append] at hnames
  exact fun hmem => hnames.2.2 _ hmem _ List.mem_cons_self rfl

theorem Fits.of_step {s : DbImpl StorageManagerImpl × FileSystem} {c : Call × Env}
    (h : Fits (DbImpl.step s c).2.2.effects) : Fits s.2.effects :=
  h.earlier (DbImpl.step_effects s c)

end TinyKv
