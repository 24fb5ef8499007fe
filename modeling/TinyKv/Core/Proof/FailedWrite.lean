import TinyKv.Core.Proof.Reload

/-!
# The file of a table that cannot be written

The in-memory writer looks at its entries before it opens the file; the block-based writer opens the
file first and looks at the entries while it writes them, so an exception leaves what the stream
holds by then.

* `writeTable_newPath`: at a new path, without filesystem failures, only the entries can stop a write,
  and they stop it exactly when the format does not take them.
* `leavesNoFile_iff`: a failed write leaves no file in the in-memory format, and in the block-based
  format only in that it never fails.
-/

namespace TinyKv

open Bytes

namespace TableFormatKind

variable {fmt : TableFormatKind} {env : Env} {path : TablePath} {es : List Entry}
  {timestamp : TimestampType} {fileNum : FileNumber} {fs : FileSystem}

/-- A path that names nothing yet, in a directory that is there or can be made. -/
structure NewPath (path : TablePath) (fs : FileSystem) : Prop where
  parent : ∀ p, fs.base.find? path.level = some p → p.2 ≠ .other
  free : ∀ d, fs.dir? path.level = some d → d.find? path.name = none

/-- What a failed write should leave: no file at its path, and a directory that still loads. -/
structure LeavesNoFile (fmt : TableFormatKind) (env : Env) (path : TablePath) (es : List Entry)
    (timestamp : TimestampType) (fileNum : FileNumber) (fs : FileSystem) : Prop where
  no_file : ∀ f fs', fmt.writeTable env path es timestamp fileNum fs = (.error f, fs') →
    fs'.file? path.level path.name = none
  loads : ∀ f fs', fmt.writeTable env path es timestamp fileNum fs = (.error f, fs') →
    ∀ (lm : LevelManagerImpl) (env' : Env), levelName lm.m_levelNum = path.level →
      (lm.initNew env' fmt fs).1 = .ok () → (lm.initNew env' fmt fs').1 = .ok ()

/-- The entries that the format takes. -/
def Takes (entries : List Entry) : TableFormatKind → Prop
  | InMemory => entries ≠ []
  | BlockBased => BlockBasedTableFormat.Encodable entries

theorem NewPath.place (h : NewPath path fs) (henv : env.NoFault) :
    ∃ fs1, createParent env path fs = .ok fs1 ∧
      ∀ content, ∃ fs2, fs1.writeFile path.level path.name content = some fs2 ∧
        fs2.file? path.level path.name = some content := by
  have hopen : ∀ (fs1 : FileSystem) (d : Dir), fs1.dir? path.level = some d →
      d.find? path.name = none → ∀ content, ∃ fs2,
        fs1.writeFile path.level path.name content = some fs2 ∧
          fs2.file? path.level path.name = some content := by
    intro fs1 d hdir hfree content
    have hw := FileSystem.writeFile_of_regular hdir (fun p hp => by rw [hfree] at hp; cases hp) content
    exact ⟨_, hw, (FileSystem.writeFile_touches hw).2⟩
  cases hdir : fs.dir? path.level with
  | some d => exact ⟨fs, createParent_ok henv hdir, hopen fs d hdir (h.free d hdir)⟩
  | none =>
    have hbase : fs.base.find? path.level = none := by
      cases hp : fs.base.find? path.level with
      | none => rfl
      | some p =>
        obtain ⟨n, node⟩ := p
        cases node with
        | directory d => simp [FileSystem.dir?, hp] at hdir
        | other => exact absurd rfl (h.parent _ hp)
    refine ⟨fs.setDir path.level SortedMap.empty, ?_, hopen _ SortedMap.empty ?_ rfl⟩
    · simp only [createParent, henv.mkdir, FileSystem.createDirectory, hbase]
    · rw [FileSystem.dir?_setDir, if_pos rfl]

/-- **Without filesystem failures** a write fails exactly for the entries that the format does not
take; the in-memory format then leaves the disk alone, the block-based one leaves a file. -/
theorem writeTable_newPath (h : NewPath path fs) (henv : env.NoFault)
    (hfile : fmt = .BlockBased → ∀ file,
      BlockBasedTableFormat.writeBlocks es timestamp fileNum [] = .ok () file → file.length < 2 ^ 63) :
    (fmt.Takes es ∧ ∃ r fs', fmt.writeTable env path es timestamp fileNum fs = (.ok r, fs')) ∨
    (¬ fmt.Takes es ∧ fmt = .InMemory ∧
      ∃ f, fmt.writeTable env path es timestamp fileNum fs = (.error f, fs)) ∨
    (¬ fmt.Takes es ∧ fmt = .BlockBased ∧ ∃ f fs' out,
      fmt.writeTable env path es timestamp fileNum fs = (.error f, fs') ∧
        fs'.file? path.level path.name = some out) := by
  obtain ⟨fs1, hparent, hopen⟩ := h.place henv
  cases fmt with
  | InMemory =>
    by_cases hne : es = []
    · subst hne
      exact .inr (.inl ⟨fun h => h rfl, rfl, _, rfl⟩)
    · have hempty : es.isEmpty = false := by simpa using hne
      obtain ⟨fs2, hw, -⟩ := hopen (SSTableWriter.encode (sortEntries es) timestamp fileNum)
      refine .inl ⟨hne, ?_⟩
      simp only [writeTable, InMemoryTableFormat.writeTable, SSTableWriter.write, hempty,
        Bool.false_eq_true, ↓reduceIte, hparent, hw]
      exact ⟨_, _, rfl⟩
  | BlockBased =>
    obtain ⟨henc, hblocks⟩ | ⟨hbad, f, out, hblocks⟩ :=
      BlockBasedTableFormat.writeBlocks_cases es timestamp fileNum
    · obtain ⟨fs2, hw, -⟩ := hopen (BlockBasedTableFormat.encodeTable es timestamp fileNum)
      refine .inl ⟨henc, ?_⟩
      simp only [writeTable, BlockBasedTableFormat.writeTable, hparent, hblocks, hw]
      rw [BlockBasedTableReader.construct_encodeTable henc.ne henc.small henc.blocks
        (hfile rfl _ hblocks)]
      exact ⟨_, _, rfl⟩
    · obtain ⟨fs2, hw, hleft⟩ := hopen out
      refine .inr (.inr ⟨hbad, rfl, f, fs2, out, ?_, hleft⟩)
      simp only [writeTable, BlockBasedTableFormat.writeTable, hparent, hblocks, hw]

/-- **A failed write leaves no file** in the in-memory format; the block-based one leaves a file
for all entries that it does not take. -/
theorem leavesNoFile_iff (henv : env.NoFault) (hpath : NewPath path fs)
    (hfile : fmt = .BlockBased → ∀ file,
      BlockBasedTableFormat.writeBlocks es timestamp fileNum [] = .ok () file → file.length < 2 ^ 63) :
    LeavesNoFile fmt env path es timestamp fileNum fs ↔
      fmt = .InMemory ∨ BlockBasedTableFormat.Encodable es := by
  rcases @writeTable_newPath fmt _ _ _ _ _ _ hpath henv hfile with
    ⟨htakes, r, fs', hw⟩ | ⟨hbad, rfl, f, hw⟩ | ⟨hbad, rfl, f, fs', out, hw, hleft⟩
  · refine ⟨fun _ => ?_, fun _ => ⟨fun f fs' he => ?_, fun f fs' he => ?_⟩⟩
    · cases fmt with
      | InMemory => exact .inl rfl
      | BlockBased => exact .inr htakes
    · cases hw.symm.trans he
    · cases hw.symm.trans he
  · refine ⟨fun _ => .inl rfl, fun _ => ⟨fun f' fs' he => ?_, fun f' fs' he => ?_⟩⟩
    · cases hw.symm.trans he
      cases hdir : fs.dir? path.level with
      | none => simp [FileSystem.file?, hdir]
      | some d => simp [FileSystem.file?, hdir, hpath.free d hdir]
    · cases hw.symm.trans he
      exact fun _ _ _ h => h
  · refine ⟨fun h => ?_, ?_⟩
    · have hnone := h.no_file f fs' hw
      rw [hleft] at hnone
      cases hnone
    · rintro (h | h)
      · cases h
      · exact absurd h hbad

/-- The table path in a new level 0. -/
def firstPath : TablePath := ⟨"", levelName 0, "table-0"⟩

theorem leavesNoFile_iff_nil :
    LeavesNoFile .InMemory {} firstPath [] 0 0 LevelManagerImpl.newLevelDisk ∧
      (∃ f, InMemoryTableFormat.writeTable {} firstPath [] 0 0 LevelManagerImpl.newLevelDisk =
        (.error f, LevelManagerImpl.newLevelDisk)) := by
  refine ⟨(leavesNoFile_iff ⟨fun _ => rfl, rfl, rfl⟩ ⟨?_, ?_⟩ ?_).2 (.inl rfl), _, rfl⟩
  · decide +kernel
  · decide +kernel
  · exact fun h => by cases h

/-- The new level with an empty file at that path. -/
def emptyFileDisk : FileSystem :=
  LevelManagerImpl.newLevelDisk.setDir (levelName 0) (SortedMap.empty.insert ("table-0", .regular []))

/-- **An empty iterator** leaves an empty file in the block-based format, and the level does not
load again. -/
theorem empty_write_blocks_level :
    let lm : LevelManagerImpl := { m_levelNum := 0, m_basePath := "" }
    BlockBased.writeTable {} firstPath [] 0 0 LevelManagerImpl.newLevelDisk =
      (.error (.runtimeError "BlockBasedTableFormat::writeTable(): cannot write empty table"),
        emptyFileDisk) ∧
    emptyFileDisk.file? firstPath.level firstPath.name = some [] ∧
    (lm.initNew {} .BlockBased LevelManagerImpl.newLevelDisk).1 = .ok () ∧
    (lm.initNew {} .BlockBased emptyFileDisk).1 ≠ .ok () ∧
    ¬ LeavesNoFile .BlockBased {} firstPath [] 0 0 LevelManagerImpl.newLevelDisk := by
  have hw : BlockBased.writeTable {} firstPath [] 0 0 LevelManagerImpl.newLevelDisk =
      (.error (.runtimeError "BlockBasedTableFormat::writeTable(): cannot write empty table"),
        emptyFileDisk) := by decide +kernel
  have hfile : emptyFileDisk.file? firstPath.level firstPath.name = some [] := by decide +kernel
  refine ⟨hw, hfile, by decide +kernel, by decide +kernel, fun h => ?_⟩
  have hnone := h.no_file _ _ hw
  rw [hfile] at hnone
  cases hnone

end TableFormatKind

end TinyKv
