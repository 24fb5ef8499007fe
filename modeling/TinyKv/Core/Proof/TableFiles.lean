import TinyKv.Core.Proof.LogMirror
import TinyKv.Table.BlockBased.Proof.Accept

/-!
# Files and formats

The file of a table has one reading in its own format (`content_injective`). A block-based reader
that comes upon the file of an in-memory table takes its trailer, the timestamp and the file number
with the least significant byte first, for the handle of the filter block, with the most significant
byte first. A small file number is then the size of a block that the file cannot have, and the reader
throws (`openTable_other_format`).
-/

namespace TinyKv

open Bytes

namespace TableFormatKind

section

variable {fmt : TableFormatKind} {es es' : List Entry} {timestamp timestamp' : TimestampType}
  {fileNum fileNum' : FileNumber}

theorem file?_onlyTable (content : Bytes) :
    (Disk.onlyTable content).file? Disk.tablePath.level Disk.tablePath.name = some content := by
  simp [Disk.onlyTable, FileSystem.file?, FileSystem.dir?_setDir, SortedMap.find?_insert]

/-- A reader of a table answers from one list of entries, up to the value of a tombstone. -/
theorem persisted_of_serves {fs : FileSystem} {r : TableReader} (h : Serves fs r es)
    (h' : Serves fs r es') : es.map Entry.persisted = es'.map Entry.persisted := by
  apply Keyed.eq_of_lookup (sortedEntries_map_persisted h.sorted) (sortedEntries_map_persisted h'.sorted)
  intro k
  obtain ⟨e, hget, he⟩ := h.get k
  obtain ⟨e', hget', he'⟩ := h'.get k
  rw [hget] at hget'
  cases hget'
  exact (lookup_map_persisted ..).trans ((he.symm.trans he').trans (lookup_map_persisted ..).symm)

/-- **The file of a table tells the table**: its entries, up to the value of a tombstone in the
block-based format, its timestamp and its number. -/
theorem content_injective (h : LevelManagerImpl.Loadable fmt es timestamp fileNum)
    (h' : LevelManagerImpl.Loadable fmt es' timestamp' fileNum')
    (heq : fmt.content es timestamp fileNum = fmt.content es' timestamp' fileNum') :
    es.map Entry.persisted = es'.map Entry.persisted ∧ timestamp = timestamp' ∧ fileNum = fileNum' ∧
      (fmt = .InMemory → es = es') := by
  -- a disk with nothing but the file, which is opened once
  obtain ⟨r, hopen, hserves, hmeta⟩ :=
    openTable_ok (file?_onlyTable _) h.ne h.sorted h.length h.small h.size
  obtain ⟨r', hopen', hserves', hmeta'⟩ :=
    openTable_ok (file?_onlyTable _) h'.ne h'.sorted h'.length h'.small h'.size
  rw [heq, hopen', Except.ok.injEq] at hopen
  subst hopen
  rw [heq] at hserves
  rw [hmeta', SSTableMetadata.mk.injEq] at hmeta
  refine ⟨persisted_of_serves hserves hserves', hmeta.2.1.symm, hmeta.1.symm, ?_⟩
  rintro rfl
  have hread := SSTableReader.read_encode h.ne h.sorted h.small timestamp fileNum
  have hread' := SSTableReader.read_encode h'.ne h'.sorted h'.small timestamp' fileNum'
  rw [show SSTableWriter.encode es timestamp fileNum = SSTableWriter.encode es' timestamp' fileNum' from
    heq, hread'] at hread
  injection hread with htable
  injection htable with _ hes
  exact hes.symm

end

/-- The value of a tombstone is not in the file. -/
theorem content_injective_tombstone :
    BlockBased.content [⟨"a", "val", true⟩] 7 1 = BlockBased.content [⟨"a", "", true⟩] 7 1 ∧
      ([⟨"a", "val", true⟩] : List Entry).map Entry.persisted =
        ([⟨"a", "", true⟩] : List Entry).map Entry.persisted := by
  have hload : ∀ val : Bytes, val.length ≤ 2 ^ 30 →
      LevelManagerImpl.Loadable .BlockBased [⟨"a", val, true⟩] 7 1 := fun val hval =>
    Flushable.loadable ⟨List.pairwise_singleton _ _, (by decide : 1 < 2 ^ 31), fun e he => by
      rw [List.mem_singleton.1 he]
      exact ⟨show (ofString "a").length ≤ 2 ^ 30 by decide, hval⟩⟩ (by simp) _ _ _
  have hsame : BlockBased.content [⟨"a", "val", true⟩] 7 1 = BlockBased.content [⟨"a", "", true⟩] 7 1 := by
    rfl
  exact ⟨hsame, (content_injective (hload "val" (by decide)) (hload "" (by decide)) hsame).1⟩

/-! ## The other format -/

/-- A small number with its bytes the other way round is zero or large. -/
theorem beNat_leBytes_small {n : Nat} (h : n < 2 ^ 24) :
    beNat (leBytes 8 n) = 0 ∨ 2 ^ 40 ≤ beNat (leBytes 8 n) := by
  have hbytes : leBytes 8 n = leBytes 3 n ++ List.replicate 5 0 := leBytes_small (k := 3) h 5
  rw [hbytes, beNat_append_zeros]
  omega

/-- The trailer of an in-memory table as a block-based reader takes it. -/
theorem size_of_trailer {es : List Entry} {timestamp : TimestampType} {fileNum : FileNumber}
    {footer : Footer}
    (h : BlockBasedTableFormat.encFooter footer <:+ SSTableWriter.encode es timestamp fileNum) :
    footer.filter_block.size.toNat = beNat (leBytes 8 fileNum.toNat) := by
  obtain ⟨front, hfront⟩ := h
  simp only [BlockBasedTableFormat.encFooter, BlockBasedTableFormat.encHandle, SSTableWriter.encode,
    ← List.append_assoc] at hfront
  have hlast := List.append_inj_right' hfront (by rw [length_beBytes, length_leBytes])
  have hlt := footer.filter_block.size.toNat_lt
  rw [← hlast, beNat_beBytes]
  exact (Nat.mod_eq_of_lt hlt).symm

/-- **The file of an in-memory table is not taken for a block-based one**: a reader of the other
format throws, as long as the number of the table is below `2 ^ 24` and its file shorter than
`2 ^ 40` bytes. -/
theorem openTable_other_format {fs : FileSystem} {path : TablePath} {es : List Entry}
    {timestamp : TimestampType} {fileNum : FileNumber}
    (hfile : fs.file? path.level path.name = some (InMemory.content es timestamp fileNum))
    (hnum : fileNum.toNat < 2 ^ 24) (hlen : (InMemory.content es timestamp fileNum).length < 2 ^ 40) :
    ∃ what, BlockBased.openTable fs path = .error (.runtimeError what) := by
  have hopen : BlockBased.openTable fs path =
      (BlockBasedTableReader.construct (SSTableWriter.encode es timestamp fileNum) path).map .blockBased := by
    simp only [openTable, BlockBasedTableFormat.openTable, hfile]
    rfl
  rw [hopen]
  cases hrun : BlockBasedTableReader.construct (SSTableWriter.encode es timestamp fileNum) path with
  | error f =>
    obtain ⟨what, rfl⟩ := BlockBasedTableReader.construct_thrown hrun
    exact ⟨what, rfl⟩
  | ok r =>
    exfalso
    obtain ⟨-, hwhole⟩ := (BlockBasedTableReader.construct_iff ..).1 hrun
    obtain ⟨bs, ⟨hbs, -⟩, hat⟩ := hwhole.filter
    have hsize := size_of_trailer hwhole.footer
    have hle := hat.bytes.length_le
    have hbslen : 12 ≤ bs.length := by
      rw [hbs]
      simp
      omega
    rw [List.length_drop] at hle
    have hlen' : (SSTableWriter.encode es timestamp fileNum).length < 2 ^ 40 := hlen
    rw [← hat.size, toNat_ofNat_uint64 (by omega)] at hsize
    have := beNat_leBytes_small hnum
    omega

theorem openTable_other_format_one :
    ∃ what, BlockBased.openTable (Disk.onlyTable (InMemory.content [⟨"a", "1", false⟩] 7 1))
      Disk.tablePath = .error (.runtimeError what) :=
  openTable_other_format (file?_onlyTable _) (by decide) (by decide +kernel)

end TableFormatKind

end TinyKv
