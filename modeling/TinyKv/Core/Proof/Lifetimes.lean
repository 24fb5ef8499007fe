import TinyKv.Core.Proof.History
import TinyKv.Lib.Run

/-!
# The tables of several process lifetimes

`Lifetimes` is the storage manager of the process that runs, the disk that all processes share, and
the tables on it in the order in which they were created. A restart is a new storage manager with a
new system context.

* `fileNumber_of_encodes`: the number that the file of a table carries.
* `write_tables`: what a write does to the tables on the disk, whatever fails in it.
-/

namespace TinyKv

open Bytes

/-! ## The number in the file -/

/-- **The number that a table carries** is the one it was created with. -/
theorem TableFormatKind.fileNumber_of_encodes {fmt : TableFormatKind} {es : List Entry}
    {timestamp : TimestampType} {fileNum : FileNumber} {content : Bytes} {fs : FileSystem}
    {path : TablePath} {r : TableReader} (henc : fmt.Encodes es timestamp fileNum content)
    (hsize : content.length < 2 ^ 63)
    (hfile : fs.file? path.level path.name = some content) (h : fmt.openTable fs path = .ok r) :
    r.metadata.m_file_number = fileNum := by
  cases fmt with
  | InMemory =>
    obtain ⟨-, rfl⟩ := henc
    simp only [openTable, InMemoryTableFormat.openTable, hfile] at h
    cases hread : SSTableReader.readBuffer (SSTableWriter.encode (sortEntries es) timestamp fileNum) with
    | error f =>
      rw [hread] at h
      cases h
    | ok t =>
      rw [hread] at h
      cases h
      obtain ⟨⟨es', area, timestamp', fileNum', -, -, heq, rfl⟩, -⟩ :=
        SSTableReader.readBuffer_ok_iff.1 hread
      -- the trailers have the same length, so they are the same
      have htrailer := (List.append_inj' heq (by simp)).2
      have hnum := congrArg (fun bs => UInt64.ofNat (leNat bs)) htrailer
      simp only [ofNat_leNat_leBytes_uint64] at hnum
      exact hnum.symm
  | BlockBased =>
    obtain ⟨henc, rfl⟩ := henc
    simp only [openTable, BlockBasedTableFormat.openTable, hfile] at h
    rw [BlockBasedTableReader.construct_encodeTable henc.ne henc.small henc.blocks hsize] at h
    cases h
    rfl

/-! ## Lifetimes -/

/-- A table file as it was created. -/
structure DiskTable where
  path : TablePath
  content : Bytes
  deriving DecidableEq

/-- The directory and the name of the file. -/
def DiskTable.place (t : DiskTable) : Bytes × Bytes := (t.path.level, t.path.name)

/-- The tables created. -/
def createdFiles (effects : List Effect) : List DiskTable :=
  effects.filterMap fun
    | .tableCreated path content => some ⟨path, content⟩
    | _ => none

theorem map_content_createdFiles (effects : List Effect) :
    (createdFiles effects).map DiskTable.content = tableContents effects := by
  rw [createdFiles, tableContents, List.map_filterMap]
  congr 1
  funext e
  cases e <;> rfl

/-- The process that runs, the disk, and the tables on it from the oldest to the newest. Nothing
reads `tables` back. -/
structure Lifetimes where
  sm : StorageManagerImpl
  fs : FileSystem
  tables : List DiskTable

/-- A step of a history over several processes. -/
inductive ProcessStep where
  | restart
  | initLevels (env : Env)
  | write (env : Env) (entries : List Entry)

namespace Lifetimes

/-- The storage manager of a new process, with a new system context. -/
def newProcess (config : DbFactoryConfig) : StorageManagerImpl :=
  (createDbWithConfig config).m_memTable.m_storageManager

/-- The tables created between two states of the disk. -/
def newTables (x : Lifetimes) (fs : FileSystem) : List DiskTable :=
  createdFiles (fs.effects.drop x.fs.effects.length)

/-- The tables that stay on the disk: their files are as they were created, and are not created
again. -/
def keptTables (x : Lifetimes) (fs : FileSystem) : List DiskTable :=
  x.tables.filter fun t => fs.file? t.path.level t.path.name = some t.content ∧
    ∀ t' ∈ x.newTables fs, t'.place ≠ t.place

/-- The state after a step. -/
def moveTo (x : Lifetimes) (sm : StorageManagerImpl) (fs : FileSystem) : Lifetimes :=
  ⟨sm, fs, x.keptTables fs ++ x.newTables fs⟩

def step (config : DbFactoryConfig) (x : Lifetimes) :
    ProcessStep → Except Fault (Option Error) × Lifetimes
  | .restart => (.ok none, { x with sm := newProcess config })
  | .initLevels env =>
    let (res, sm, fs) := x.sm.initLevels env x.fs
    (res, x.moveTo sm fs)
  | .write env entries =>
    let (res, sm, fs) := x.sm.write env entries x.fs
    (res, x.moveTo sm fs)

/-- The state after the steps, from empty directories on. -/
def run (config : DbFactoryConfig) (steps : List ProcessStep) : Lifetimes :=
  (Machine.run (step config) ⟨newProcess config, FileSystem.empty, []⟩ steps).2

end Lifetimes

/-! ## One write -/

/-- The table that a write of `es` creates. -/
structure NewTable (fmt : TableFormatKind) (env : Env) (es : List Entry) (fileNum : FileNumber)
    (fs : FileSystem) (t : DiskTable) : Prop where
  level : t.path.level = levelName 0
  name : t.path.name = generateSSTableFileName env
  file : fs.file? t.path.level t.path.name = some t.content
  encodes : fmt.Encodes es env.now fileNum t.content

namespace StorageManagerImpl

/-- The first manager is that of level 0. -/
def Level0First (sm : StorageManagerImpl) : Prop :=
  ∀ lm rest, sm.m_levelManagers = lm :: rest → lm.m_levelNum = 0

/-- What a write does to the tables on the disk: it creates none, or one with the number of the
allocator. -/
structure Writes (sm : StorageManagerImpl) (env : Env) (es : List Entry) (fs : FileSystem)
    (sm' : StorageManagerImpl) (fs' : FileSystem) : Prop where
  format : sm'.m_tableFormat = sm.m_tableFormat
  level0 : sm'.Level0First
  files : ∀ l n, n ≠ generateSSTableFileName env → fs'.file? l n = fs.file? l n
  tables : ∃ more, fs'.effects = fs.effects ++ more ∧
    ((createdFiles more = [] ∧ sm'.m_systemContext = sm.m_systemContext) ∨
      (createdFiles more = [] ∧ sm'.m_systemContext = sm.m_systemContext.next.2) ∨
      ∃ t, createdFiles more = [t] ∧ sm'.m_systemContext = sm.m_systemContext.next.2 ∧
        NewTable sm.m_tableFormat env es sm.m_systemContext.counter fs' t)

variable {sm sm' : StorageManagerImpl} {env : Env} {es : List Entry} {fs fs' : FileSystem}

theorem Writes.quiet (h : sm.Level0First) : sm.Writes env es fs sm fs :=
  ⟨rfl, h, fun _ _ _ => rfl, [], (List.append_nil _).symm, .inl ⟨rfl, rfl⟩⟩

theorem createdFiles_of_outcome {fmt : TableFormatKind} {lm : LevelManagerImpl}
    {fileNum : FileNumber} {res : Except Fault TableReader} (hlm : lm.m_levelNum = 0)
    (h : TableFormatKind.Outcome fmt (lm.newPath env) es env.now fileNum
      (fs.record (.nameDrawn (generateSSTableFileName env))) (res, fs')) :
    ∃ more, fs'.effects = fs.effects ++ more ∧
      (createdFiles more = [] ∨
        ∃ t, createdFiles more = [t] ∧ NewTable fmt env es fileNum fs' t) := by
  generalize hres : (res, fs') = out at h
  cases h with
  | refused htouches _ =>
    cases hres
    exact ⟨_, htouches.effects, .inl rfl⟩
  | left _ _ htouches _ =>
    cases hres
    exact ⟨_, htouches.effects, .inl rfl⟩
  | @created fs1 content hencodes htouches hfile =>
    cases hres
    refine ⟨[.nameDrawn (generateSSTableFileName env), .tableCreated (lm.newPath env) content], ?_,
      .inr ⟨⟨lm.newPath env, content⟩, rfl, ?_, rfl, hfile, hencodes⟩⟩
    · rw [FileSystem.record_effects, htouches.effects, FileSystem.record_effects, List.append_assoc]
      rfl
    · rw [← hlm]
      rfl

theorem writeLevel0_tables (h : sm.Level0First) :
    sm.Writes env es fs (sm.writeLevel0 env es fs).2.1 (sm.writeLevel0 env es fs).2.2 := by
  unfold writeLevel0
  split
  · exact .quiet h
  · rename_i lm rest hm
    have hlm := h lm rest hm
    obtain ⟨halloc, res, hout⟩ :=
      lm.createTable_outcome sm.m_systemContext env sm.m_tableFormat es fs
    have hfiles := fun l n hn =>
      @LevelManagerImpl.createTable_files lm sm.m_systemContext env sm.m_tableFormat es fs l n hn
    obtain ⟨more, heff, htables⟩ := createdFiles_of_outcome hlm hout
    -- a table that is created takes a number as well as one that is refused
    split
    · rename_i f allocator fs1 hcreate
      rw [hcreate] at halloc hfiles heff htables
      refine ⟨rfl, h, hfiles, more, heff, .inr ?_⟩
      exact htables.imp (fun hnil => ⟨hnil, halloc⟩) fun ⟨t, ht, hnew⟩ => ⟨t, ht, halloc, hnew⟩
    · rename_i lm' allocator fs1 hcreate
      have hnum := LevelManagerImpl.createTable_levelNum hcreate
      rw [hcreate] at halloc hfiles heff htables
      refine ⟨rfl, ?_, hfiles, more, heff, .inr ?_⟩
      · intro lm1 rest1 hm1
        cases hm1
        exact hnum.trans hlm
      · exact htables.imp (fun hnil => ⟨hnil, halloc⟩) fun ⟨t, ht, hnew⟩ => ⟨t, ht, halloc, hnew⟩

theorem level0First_initLevels (h : sm.Level0First) (env : Env) (fs : FileSystem) :
    (sm.initLevels env fs).2.1.Level0First := by
  obtain ⟨ms, fs', hrun, hms | hms, -⟩ := sm.initLevels_leaves env fs
  · rw [hrun, hms]
    exact h
  · rw [hrun]
    intro lm rest hm
    obtain rfl : ms = lm :: rest := hm
    have h0 := hms.getElem (i := 0) (by simp)
    rw [List.getElem_map] at h0
    simpa [levelNums] using h0

theorem Writes.of_same {ms : List LevelManagerImpl} {fs1 : FileSystem}
    (h : { sm with m_levelManagers := ms }.Writes env es fs1 sm' fs') (hsame : SameFiles fs fs1) :
    sm.Writes env es fs sm' fs' := by
  obtain ⟨more, heff, htables⟩ := h.tables
  exact ⟨h.format, h.level0, fun l n hn => (h.files l n hn).trans (hsame.file l n), more,
    heff.trans (by rw [hsame.effects]), htables⟩

/-- **Every write**, whatever fails in it. -/
theorem write_tables (h : sm.Level0First) :
    sm.Writes env es fs (sm.write env es fs).2.1 (sm.write env es fs).2.2 := by
  unfold write
  split
  · have hlevel0 := level0First_initLevels h env fs
    obtain ⟨ms, fs1, hrun, -, hsame⟩ := sm.initLevels_leaves env fs
    rw [hrun] at hlevel0
    split
    · rename_i f sm' fs' hinit
      rw [hinit] at hrun
      cases hrun
      exact (Writes.quiet hlevel0).of_same hsame
    · rename_i out sm' fs' hinit
      rw [hinit] at hrun
      cases hrun
      exact (writeLevel0_tables hlevel0).of_same hsame
  · exact writeLevel0_tables h

end StorageManagerImpl

end TinyKv
