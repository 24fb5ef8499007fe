import TinyKv.Core.Disk
import TinyKv.Core.Proof.Level
import TinyKv.Wal.Proof.Decode

/-!
# Reading the disk back

What `Disk.read` finds on a disk whose log is the records of the memtable (`Logged`) and whose files
are those of tables (`Written`): the memtable over the tables, newest first (`Disk.read_eq`).
-/

namespace TinyKv

open Bytes

/-- The value of `k` in the layer `mem` over the tables. -/
def overlay (mem : Bytes → Option Entry) (tables : List (List Entry)) (k : Bytes) : Option Bytes :=
  (live ((mem k).or (firstEntry tables k))).map Entry.val

/-- The file of a table. -/
def Written (fmt : TableFormatKind) (content : Bytes) (es : List Entry) : Prop :=
  ∃ timestamp fileNum, content = fmt.content es timestamp fileNum ∧
    LevelManagerImpl.Loadable fmt es timestamp fileNum

/-- The records of the log, the last for each key. -/
def Logged (bytes : Bytes) (mem : Bytes → Option Entry) : Prop :=
  ∃ log : List Entry, bytes = log.flatMap WAL.record ∧ (∀ e ∈ log, e.Loggable) ∧
    ∀ k, lookup log.reverse k = mem k

theorem Logged.nil : Logged [] fun _ => none := ⟨[], rfl, nofun, fun _ => rfl⟩

theorem Logged.append {bytes : Bytes} {mem : SortedMap Entry.key} (h : Logged bytes mem.find?) {e : Entry}
    (he : e.Loggable) : Logged (bytes ++ WAL.record e) (mem.insert e).find? := by
  obtain ⟨log, rfl, hlog, hmem⟩ := h
  refine ⟨log ++ [e], by simp, fun x hx => ?_, fun k => ?_⟩
  · rcases List.mem_append.1 hx with hx | hx
    · exact hlog x hx
    · rwa [List.mem_singleton.1 hx]
  · rw [List.reverse_append, List.reverse_singleton, List.singleton_append, lookup,
      Keyed.lookup_cons, SortedMap.find?_insert]
    split
    · rfl
    · exact hmem k

namespace Disk

variable {fmt : TableFormatKind}

theorem readTable_eq {content : Bytes} {es : List Entry} (h : Written fmt content es) (k : Bytes) :
    ∃ e, readTable fmt content k = .ok e ∧
      e.map Entry.persisted = (lookup es k).map Entry.persisted := by
  obtain ⟨timestamp, fileNum, rfl, hes⟩ := h
  have hfile : (onlyTable (fmt.content es timestamp fileNum)).file? tablePath.level tablePath.name =
      some (fmt.content es timestamp fileNum) := by
    simp [onlyTable, FileSystem.file?, FileSystem.dir?_setDir, SortedMap.find?_insert]
  obtain ⟨r, hopen, hserves, -⟩ := TableFormatKind.openTable_ok hfile hes.ne hes.sorted hes.length
    hes.small hes.size
  obtain ⟨e, hget, he⟩ := hserves.get k
  refine ⟨e, ?_, he⟩
  rw [readTable, hopen]
  exact hget

theorem readTables_eq {contents : List Bytes} {tables : List (List Entry)}
    (h : List.Forall₂ (Written fmt) contents tables) (k : Bytes) :
    ∃ e, readTables fmt k contents = .ok e ∧
      e.map Entry.persisted = (firstEntry tables k).map Entry.persisted := by
  induction h with
  | nil => exact ⟨none, rfl, rfl⟩
  | @cons content es contents tables hc _ ih =>
    obtain ⟨e, hread, he⟩ := readTable_eq hc k
    rw [firstEntry_cons]
    cases hl : lookup es k with
    | none =>
      rw [hl, Option.map_none, Option.map_eq_none_iff] at he
      subst he
      simp only [readTables, hread]
      exact ih
    | some x =>
      rw [hl, Option.map_some, Option.map_eq_some_iff] at he
      obtain ⟨e, rfl, he⟩ := he
      refine ⟨some e, ?_, ?_⟩
      · simp only [readTables, hread]
      · rw [Option.some_or, Option.map_some, Option.map_some, he]

theorem value_congr {e x : Option Entry} (h : e.map Entry.persisted = x.map Entry.persisted) :
    (live e).map Entry.val = (live x).map Entry.val := by
  cases e with
  | none =>
    rw [Option.map_none, eq_comm, Option.map_eq_none_iff] at h
    rw [h]
  | some e =>
    rw [Option.map_some, eq_comm, Option.map_eq_some_iff] at h
    obtain ⟨x, rfl, h⟩ := h
    rw [live_some, LevelManagerImpl.live_of_persisted h.symm]

/-- **What a disk reads back**: the log over the tables; a torn record at its end is no record. -/
theorem read_eq {d : Disk} {bytes torn : Bytes} {mem : Bytes → Option Entry}
    {tables : List (List Entry)} (hwal : d.wal.getD [] = bytes ++ torn) (hlog : Logged bytes mem)
    (htorn : WAL.readRecord torn = .tail) (htables : List.Forall₂ (Written fmt) d.tables tables)
    (k : Bytes) : d.read fmt k = some (overlay mem tables k) := by
  obtain ⟨log, rfl, hl, hmem⟩ := hlog
  have hentries : WAL.getEntries { FileSystem.empty with wal := d.wal } =
      some (log.map Entry.persisted) := by
    rw [WAL.getEntries_eq, ← WAL.readRecords_log hl htorn, ← hwal]
  rw [read, find, hentries]
  dsimp only
  rw [← List.map_reverse, lookup_map_persisted, hmem]
  unfold overlay
  cases hk : mem k with
  | some e =>
    rw [Option.map_some, Option.some_or]
    refine congrArg some (value_congr ?_)
    rw [Option.map_some, Option.map_some, Entry.persisted_persisted]
  | none =>
    obtain ⟨e, hread, he⟩ := readTables_eq htables k
    rw [Option.map_none, Option.none_or, hread]
    exact congrArg some (value_congr he)

end Disk

end TinyKv
