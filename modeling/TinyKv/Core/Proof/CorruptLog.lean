import TinyKv.Core.Proof.Replay

/-!
# Replaying any log

With no failure of the filesystem a log that can be decoded is replayed, whatever is in it and
whatever the names of the new tables are (`replayWal_of_readable`). For a log that cannot be decoded
`entries.value()` throws, and the memtable stays read-only (`replayWal_of_corrupt`). So a replay
handles exactly the logs without a corrupt header behind whole records (`replayWal_handles_iff`).

* `Placeable`: nothing is in the way of the files of new tables.
-/

namespace TinyKv

open Bytes

/-! ## Tables that can be put in their place -/

/-- Nothing but a directory has the name of the level, and nothing but regular files has the names
that its new tables get. -/
structure Placeable (level : Bytes) (env : Nat → Env) (fs : FileSystem) : Prop where
  directory : ∀ p, fs.base.find? level = some p → p.2 ≠ .other
  names : ∀ d, fs.dir? level = some d → ∀ i p,
    d.find? (generateSSTableFileName (env i)) = some p → p.2 ≠ .other

section

variable {level : Bytes} {env : Nat → Env} {fs fs' : FileSystem} {d : Dir}

theorem Placeable.congr (h : Placeable level env fs) (hbase : fs'.base = fs.base) :
    Placeable level env fs' := by
  refine ⟨?_, ?_⟩
  · rw [hbase]
    exact h.directory
  · unfold FileSystem.dir?
    rw [hbase]
    exact h.names

theorem Placeable.setDir_empty : Placeable level env (fs.setDir level SortedMap.empty) := by
  refine ⟨fun p hp => ?_, fun d hd i p hp => ?_⟩
  · rw [FileSystem.setDir, SortedMap.find?_insert, if_pos rfl] at hp
    cases hp
    exact fun h => by cases h
  · rw [FileSystem.dir?_setDir, if_pos rfl] at hd
    cases hd
    cases hp

theorem Placeable.setDir_insert (h : Placeable level env fs) (hdir : fs.dir? level = some d)
    (name content : Bytes) :
    Placeable level env (fs.setDir level (d.insert (name, .regular content))) := by
  refine ⟨fun p hp => ?_, fun d' hd i p hp => ?_⟩
  · rw [FileSystem.setDir, SortedMap.find?_insert, if_pos rfl] at hp
    cases hp
    exact fun h => by cases h
  · rw [FileSystem.dir?_setDir, if_pos rfl] at hd
    cases hd
    rw [SortedMap.find?_insert] at hp
    split at hp
    · cases hp
      exact fun h => by cases h
    · exact h.names d hdir i p hp

theorem TableFormatKind.writeTable_mkdir {fmt : TableFormatKind} {env : Env} {path : TablePath}
    {es : List Entry} (henv : env.NoFault) (hnone : fs.base.find? path.level = none) (hne : es ≠ [])
    (timestamp : TimestampType) (fileNum : FileNumber) :
    fmt.writeTable env path es timestamp fileNum fs =
      fmt.writeTable env path es timestamp fileNum (fs.setDir path.level SortedMap.empty) := by
  have hmk : createParent env path fs = .ok (fs.setDir path.level SortedMap.empty) := by
    simp only [createParent, henv.mkdir, FileSystem.createDirectory, hnone]
  have hmk' : createParent env path (fs.setDir path.level SortedMap.empty) =
      .ok (fs.setDir path.level SortedMap.empty) :=
    createParent_ok henv ((FileSystem.dir?_setDir ..).trans (if_pos rfl))
  have hempty : es.isEmpty = false := by simpa using hne
  cases fmt with
  | InMemory =>
    simp only [writeTable, InMemoryTableFormat.writeTable, SSTableWriter.write, hempty,
      Bool.false_eq_true, ↓reduceIte, hmk, hmk']
  | BlockBased => simp only [writeTable, BlockBasedTableFormat.writeTable, hmk, hmk']

end

section

variable {env : Nat → Env} {fs : FileSystem} {lm : LevelManagerImpl} {es : List Entry} {i : Nat}

/-- **A table is put in its place**, in a directory that is there or in a new one. -/
theorem createTable_placeable (henv : (env i).NoFault)
    (hp : Placeable (levelName lm.m_levelNum) env fs) (hf : Flushable es) (hne : es ≠ [])
    (fmt : TableFormatKind) (allocator : FileNumberAllocator) :
    ∃ lm' allocator' fs', lm.createTable (env i) fmt es allocator fs = (.ok lm', allocator', fs') ∧
      lm'.m_levelNum = lm.m_levelNum ∧ Placeable (levelName lm.m_levelNum) env fs' := by
  have hthere : ∀ {fs : FileSystem} {d : Dir}, Placeable (levelName lm.m_levelNum) env fs →
      fs.dir? (levelName lm.m_levelNum) = some d →
      ∃ lm' allocator' fs', lm.createTable (env i) fmt es allocator fs = (.ok lm', allocator', fs') ∧
        lm'.m_levelNum = lm.m_levelNum ∧ Placeable (levelName lm.m_levelNum) env fs' := by
    intro fs d hp hdir
    obtain ⟨r, hrun, -⟩ := lm.createTable_ok allocator henv hdir (hp.names d hdir i)
      (TableFormatKind.writable_of_small hne hf.small) hf.sorted hf.length (hf.size_lt fmt _ _)
    exact ⟨_, _, _, hrun, rfl, (hp.setDir_insert hdir _ _).congr rfl⟩
  cases hfind : fs.base.find? (levelName lm.m_levelNum) with
  | none =>
    -- the writer makes the directory, and goes on as if it had been there
    have hnew := hthere (@Placeable.setDir_empty (levelName lm.m_levelNum) env fs)
      ((FileSystem.dir?_setDir ..).trans (if_pos rfl))
    have hmkdir := @TableFormatKind.writeTable_mkdir (fs.record (.nameDrawn
      (generateSSTableFileName (env i)))) fmt (env i) (lm.newPath (env i)) es henv hfind hne
      (env i).now allocator.counter
    have hsame : lm.createTable (env i) fmt es allocator fs = lm.createTable (env i) fmt es allocator
        (fs.setDir (levelName lm.m_levelNum) SortedMap.empty) := by
      rw [LevelManagerImpl.createTable_eq, LevelManagerImpl.createTable_eq, hmkdir]
      rfl
    rw [hsame]
    exact hnew
  | some p =>
    obtain ⟨name, node⟩ := p
    cases node with
    | other => exact absurd rfl (hp.directory _ hfind)
    | directory d => exact hthere hp (show FileSystem.dir? _ _ = some d by rw [FileSystem.dir?, hfind])

end

/-! ## A log that can be decoded -/

/-- Any skip list within its capacity, over levels that can take its table. -/
structure Placing (size : Int32) (env : Nat → Env) (m : MemTableImpl StorageManagerImpl)
    (fs : FileSystem) : Prop where
  capacity : m.m_size = size
  bounded : m.m_skiplist.size ≤ size.toInt.toNat
  loggable : ∀ e ∈ m.m_skiplist.toList, e.Loggable
  levels : ∃ lm rest, m.m_storageManager.m_levelManagers = lm :: rest ∧
    Placeable (levelName lm.m_levelNum) env fs

section

variable {m : MemTableImpl StorageManagerImpl} {env : Nat → Env} {fs : FileSystem} {size : Int32}

theorem Placing.flush (h : Placing size env m fs) {i : Nat} (henv : (env i).NoFault)
    (hne : m.m_skiplist.toList ≠ []) :
    ∃ m' fs', m.flushToDisk (env i) fs = (.ok none, m', fs') ∧ Placing size env m' fs' ∧
      m'.m_skiplist = SortedMap.empty := by
  obtain ⟨lm, rest, hm, hp⟩ := h.levels
  obtain ⟨lm', allocator', fs1, hcreate, hnum, hp1⟩ := createTable_placeable henv hp
    (flushable_of_bounded h.bounded h.loggable) hne m.m_storageManager.m_tableFormat
    m.m_storageManager.m_systemContext
  have hwrite : StorageManager.write m.m_storageManager (env i) m.m_skiplist.toList fs =
      (.ok none, { m.m_storageManager with
        m_systemContext := allocator', m_levelManagers := lm' :: rest }, fs1) := by
    show m.m_storageManager.write (env i) m.m_skiplist.toList fs = _
    rw [StorageManagerImpl.write, if_neg (by simp [hm])]
    simp only [StorageManagerImpl.writeLevel0, hm, hcreate]
  obtain ⟨fs', hrem, hbase, -⟩ := remove_ok_wal fs1
  refine ⟨{ m with
      m_skiplist := SortedMap.empty
      m_readOnly := false
      m_storageManager := { m.m_storageManager with
        m_systemContext := allocator', m_levelManagers := lm' :: rest } }, fs', ?_, ?_, rfl⟩
  · simp only [MemTableImpl.flushToDisk, hwrite, henv.remove, hrem]
  · refine ⟨h.capacity, Nat.zero_le _, List.forall_mem_nil _, lm', rest, rfl, ?_⟩
    rw [hnum]
    exact hp1.congr hbase

theorem replayInvariant_placing (henv : ∀ i, (env i).NoFault) (n : Nat) :
    ReplayInvariant size env n (fun m fs _ _ => Placing size env m fs) := by
  refine ⟨fun h => h.capacity, fun h => h.bounded, fun h => h, fun h he hroom => ?_,
    fun h _ hne => h.flush (henv _) hne, fun h hbase => ?_⟩
  · refine ⟨h.capacity, ?_, loggable_insert h.loggable he, h.levels⟩
    exact (SortedMap.size_insert_le _ _).trans hroom
  · obtain ⟨lm, rest, hm, hp⟩ := h.levels
    exact ⟨h.capacity, h.bounded, h.loggable, lm, rest, hm, hp.congr hbase⟩

/-- **A log that can be decoded is replayed**, and the memtable takes puts again. -/
theorem replayWal_of_readable (hsize : 1 ≤ m.m_size) (hempty : m.m_skiplist = SortedMap.empty)
    {lm : LevelManagerImpl} {rest : List LevelManagerImpl}
    (hlevels : m.m_storageManager.m_levelManagers = lm :: rest) (henv : ∀ i, (env i).NoFault)
    (hplace : Placeable (levelName lm.m_levelNum) env fs)
    (hlog : ¬ WAL.Corrupt (fs.wal.getD [])) :
    ∃ m' fs', m.replayWal env fs = (.ok none, m', fs') ∧ m'.m_readOnly = false := by
  rw [← WAL.readRecords_eq_none_iff, ← WAL.getEntries_eq] at hlog
  obtain ⟨entries, hentries⟩ := Option.ne_none_iff_exists'.1 hlog
  have hstart : Placing m.m_size env { m with m_readOnly := true } fs := by
    refine ⟨rfl, ?_, ?_, lm, rest, hlevels, hplace⟩
    · rw [hempty]
      exact Nat.zero_le _
    · rw [hempty]
      exact List.forall_mem_nil _
  obtain ⟨m', fs', hrun, -, -, hro, -⟩ :=
    (replayInvariant_placing henv entries.length).replay hsize (henv _) hentries rfl hstart
  exact ⟨m', fs', hrun, hro⟩

/-! ## A log that cannot be decoded -/

/-- **A corrupt header makes the replay throw**, and leaves the memtable read-only. -/
theorem replayWal_of_corrupt {σ : Type} [StorageManager σ] (m : MemTableImpl σ)
    (h : WAL.Corrupt (fs.wal.getD [])) :
    m.replayWal env fs = (.error .badOptionalAccess, { m with m_readOnly := true }, fs) := by
  rw [← WAL.readRecords_eq_none_iff, ← WAL.getEntries_eq] at h
  simp only [MemTableImpl.replayWal, h]

/-- What a replay should do: end without an exception, and where the log cannot be decoded return an
error, leave memtable and tables as they are, and let the memtable take puts again. -/
def HandlesLog (m : MemTableImpl StorageManagerImpl) (env : Nat → Env) (fs : FileSystem) : Prop :=
  (∃ r, (m.replayWal env fs).1 = .ok r) ∧
  (WAL.getEntries fs = none →
    (∃ err, (m.replayWal env fs).1 = .ok (some err)) ∧
      (m.replayWal env fs).2.1 = { m with m_readOnly := false } ∧
      (m.replayWal env fs).2.2.base = fs.base)

/-- **A replay handles exactly the logs that can be decoded.** -/
theorem replayWal_handles_iff (hsize : 1 ≤ m.m_size) (hempty : m.m_skiplist = SortedMap.empty)
    {lm : LevelManagerImpl} {rest : List LevelManagerImpl}
    (hlevels : m.m_storageManager.m_levelManagers = lm :: rest) (henv : ∀ i, (env i).NoFault)
    (hplace : Placeable (levelName lm.m_levelNum) env fs) :
    HandlesLog m env fs ↔ ¬ WAL.Corrupt (fs.wal.getD []) := by
  refine ⟨fun h hcorrupt => ?_, fun hlog => ?_⟩
  · obtain ⟨r, hr⟩ := h.1
    rw [replayWal_of_corrupt m hcorrupt] at hr
    cases hr
  · obtain ⟨m', fs', hrun, -⟩ := replayWal_of_readable hsize hempty hlevels henv hplace hlog
    refine ⟨⟨none, by rw [hrun]⟩, fun hnone => absurd ?_ hlog⟩
    rwa [← WAL.readRecords_eq_none_iff, ← WAL.getEntries_eq]

end

/-- The log of two puts and a delete, in a memtable of one entry, with every table under one name. -/
theorem replayWal_handles_iff_spread : HandlesLog replaySample.1 (fun _ => {}) replaySample.2 := by
  have hlog : ¬ WAL.Corrupt (replaySample.2.wal.getD []) := by
    rw [← WAL.readRecords_eq_none_iff, ← WAL.getEntries_eq, getEntries_replaySample]
    exact fun h => by cases h
  exact (@replayWal_handles_iff replaySample.1 (fun _ => {}) replaySample.2 (by decide) rfl _ [] rfl
    (fun _ => ⟨fun _ => rfl, rfl, rfl⟩) (Placeable.setDir_empty.congr rfl)).2 hlog

/-- The disk of `replaySample` with a log of one header, for a key of `2 ^ 32 - 1` bytes. -/
def corruptDisk : FileSystem :=
  { LevelManagerImpl.newLevelDisk with wal := some [0, 255, 255, 255, 255, 0, 0, 0, 0] }

/-- The replay throws, and a put after it is refused. -/
theorem replayWal_throws_on_corrupt :
    ¬ HandlesLog replaySample.1 (fun _ => {}) corruptDisk ∧
      (replaySample.1.replayWal (fun _ => {}) corruptDisk).1 = .error .badOptionalAccess ∧
      ((replaySample.1.replayWal (fun _ => {}) corruptDisk).2.1.put {} "k" "v" corruptDisk).1 =
        .ok (some ⟨"[MemTableImpl.put()] Cannot PUT: memtable in read-only mode"⟩) := by
  have hcorrupt : WAL.Corrupt (corruptDisk.wal.getD []) :=
    ⟨[], [0, 255, 255, 255, 255, 0, 0, 0, 0], List.forall_mem_nil _,
      ⟨0, 2 ^ 32 - 1, 0, [], by decide, by decide, by decide, by decide⟩, rfl⟩
  have hrun := @replayWal_of_corrupt (fun _ => {}) corruptDisk _ _ replaySample.1 hcorrupt
  refine ⟨fun h => ?_, ?_, ?_⟩
  · obtain ⟨r, hr⟩ := h.1
    rw [hrun] at hr
    cases hr
  · rw [hrun]
  · rw [hrun]
    rfl

end TinyKv
