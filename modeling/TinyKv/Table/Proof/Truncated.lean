import TinyKv.Table.BlockBased.Proof.HalfWritten
import TinyKv.Table.Proof.Reopen

/-!
# A table file that was cut short

Neither format marks the end of a table: both readers take the last bytes of the file for the
trailer. So a file of which only the first part was written is refused exactly if it does not by
chance look like a whole table. `LooksWhole` says what that is, from the reader's side alone, and
`openTable_ok_iff` and `openTable_refused` hold of any bytes.

What the chance is depends on the format (`openTable_cut`). An in-memory file is opened as the table
of its first entries if it ends sixteen bytes behind one of them
(`SSTableReader.looksWhole_cut_iff`). A block-based file needs a footer among its keys and values,
and has none where they are plain texts (`BlockBasedTableReader.not_looksWhole_of_plainText`).
-/

namespace TinyKv

open Bytes

/-! ## An in-memory table that stops early -/

namespace SSTableReader

/-- The beginning of an entry area holds a whole number of entries only if it holds the first
ones. -/
theorem encodesEntries_cut {es es' : List Entry} {area : Bytes} (hes : ∀ e ∈ es, e.Small)
    (h : EncodesEntries es' area) (hp : area <+: es.flatMap SSTableWriter.serializeEntry) :
    ∃ m ≤ es.length, es' = es.take m ∧ area = (es.take m).flatMap SSTableWriter.serializeEntry := by
  induction h generalizing es with
  | nil => exact ⟨0, Nat.zero_le _, rfl, rfl⟩
  | @cons e' es' bs area he _ ih =>
    have hbs : bs <+: es.flatMap SSTableWriter.serializeEntry :=
      (List.prefix_append bs area).trans hp
    have hread := deserializeEntry_of_encodes he hbs
    have hpos := (deserializeEntry_length hread).1
    cases es with
    | nil => exact absurd hbs.length_le (by simp only [List.flatMap_nil, List.length_nil]; omega)
    | cons e es =>
      have hes' : ∀ x ∈ es, x.Small := fun x hx => hes x (List.mem_cons_of_mem _ hx)
      rw [List.flatMap_cons] at hp hbs hread
      -- both readings of the front agree, so the first entry is the one that was written
      have hfirst := deserializeEntry_of_encodes
        (encodesEntry_serializeEntry (hes e List.mem_cons_self))
        (List.prefix_append _ (es.flatMap SSTableWriter.serializeEntry))
      rw [hread] at hfirst
      simp only [Except.ok.injEq, Prod.mk.injEq] at hfirst
      obtain ⟨rfl, hlen⟩ := hfirst
      have heq : bs = SSTableWriter.serializeEntry e' :=
        (List.prefix_of_prefix_length_le hbs (List.prefix_append _ _) hlen.le).eq_of_length hlen
      subst heq
      obtain ⟨m, hm, rfl, rfl⟩ := ih hes' ((List.prefix_append_right_inj _).1 hp)
      exact ⟨m + 1, Nat.succ_le_succ hm, rfl, by rw [List.take_succ_cons, List.flatMap_cons]⟩

/-- **Where a cut goes unnoticed**: sixteen bytes behind an entry, and not behind the last one. -/
theorem looksWhole_cut_iff {es : List Entry} (hsort : SortedEntries es) (hes : ∀ e ∈ es, e.Small)
    {timestamp : TimestampType} {file_num : FileNumber} {p : Bytes}
    (hp : p <+: SSTableWriter.encode es timestamp file_num)
    (hcut : p ≠ SSTableWriter.encode es timestamp file_num) (es' : List Entry) :
    (∃ t, LooksWhole p t ∧ t.m_entries = es') ↔
      ∃ m, 0 < m ∧ m < es.length ∧ es' = es.take m ∧
        p.length = ((es.take m).flatMap SSTableWriter.serializeEntry).length + 16 := by
  have hfull : (SSTableWriter.encode es timestamp file_num).length =
      (es.flatMap SSTableWriter.serializeEntry).length + 16 := by
    simp [SSTableWriter.encode]
  have hshort : p.length < (es.flatMap SSTableWriter.serializeEntry).length + 16 := by
    rw [← hfull]
    exact lt_of_le_of_ne hp.length_le fun h => hcut (hp.eq_of_length h)
  have harea : es.flatMap SSTableWriter.serializeEntry <+:
      SSTableWriter.encode es timestamp file_num := by
    rw [SSTableWriter.encode, List.append_assoc]
    exact List.prefix_append _ _
  refine ⟨fun hcut => ?_, fun hcut => ?_⟩
  · obtain ⟨t, ⟨es₁, area, ts, num, hne, henc, hfile, rfl⟩, rfl⟩ := hcut
    have hlen : p.length = area.length + 16 := by simp [hfile]
    have hle : area.length ≤ (es.flatMap SSTableWriter.serializeEntry).length := by omega
    have hpre : area <+: es.flatMap SSTableWriter.serializeEntry := by
      refine List.prefix_of_prefix_length_le ?_ harea hle
      refine List.IsPrefix.trans ?_ hp
      rw [hfile, List.append_assoc]
      exact List.prefix_append _ _
    obtain ⟨m, hm, rfl, rfl⟩ := encodesEntries_cut hes henc hpre
    refine ⟨m, ?_, ?_, sortEntries_eq (hsort.sublist (List.take_sublist m es)), hlen⟩
    · exact Nat.pos_of_ne_zero fun h => hne (by rw [h, List.take_zero])
    · rcases Nat.lt_or_ge m es.length with h | h
      · exact h
      · rw [List.take_of_length_le h] at hlen
        omega
  · obtain ⟨m, hm0, hm, rfl, hlen⟩ := hcut
    have hsmall : ∀ e ∈ es.take m, e.Small := fun e he => hes e (List.mem_of_mem_take he)
    have hpre : (es.take m).flatMap SSTableWriter.serializeEntry <+: p := by
      refine List.prefix_of_prefix_length_le (List.IsPrefix.trans ?_ harea) hp (by omega)
      conv => rhs; rw [← List.take_append_drop m es, List.flatMap_append]
      exact List.prefix_append _ _
    obtain ⟨trailer, rfl⟩ := hpre
    rw [List.length_append] at hlen
    have h8 : (trailer.take 8).length = 8 := by
      rw [List.length_take]
      omega
    have h8' : (trailer.drop 8).length = 8 := by
      rw [List.length_drop]
      omega
    refine ⟨_, ⟨es.take m, _, UInt64.ofNat (leNat (trailer.take 8)),
      UInt64.ofNat (leNat (trailer.drop 8)), ?_, encodesEntries_flatMap hsmall, ?_, rfl⟩,
      sortEntries_eq (hsort.sublist (List.take_sublist m es))⟩
    · exact List.ne_nil_of_length_pos (by rw [List.length_take]; omega)
    · rw [leBytes_toNat_ofNat h8, leBytes_toNat_ofNat h8', List.append_assoc,
        List.take_append_drop]

end SSTableReader

theorem InMemoryTableFormat.file?_of_writeTable {env : Env} {path : TablePath} {es : List Entry}
    {timestamp : TimestampType} {fileNum : FileNumber} {fs fs' : FileSystem} {r : TableReader}
    (hsort : SortedEntries es)
    (h : writeTable env path es timestamp fileNum fs = (.ok r, fs')) :
    fs'.file? path.level path.name = some (SSTableWriter.encode es timestamp fileNum) := by
  have hne : es ≠ [] := by
    rintro rfl
    cases h
  obtain ⟨fs1, ⟨fs0, -, hw⟩, rfl, -⟩ := (writeTable_ok_iff hne hsort.nodup_map).1 h
  rw [sortEntries_eq hsort] at hw ⊢
  rw [FileSystem.record_file?, (FileSystem.writeFile_touches hw).2]

/-! ## Either format -/

namespace TableFormatKind

/-- The reader of the format takes the file for a whole table. -/
def LooksWhole (path : TablePath) (file : Bytes) : TableFormatKind → TableReader → Prop
  | InMemory, reader => ∃ t, reader = .inMemory t ∧ SSTableReader.LooksWhole file t ∧
      t.m_entries.length < 2 ^ 31
  | BlockBased, reader => ∃ b, reader = .blockBased b ∧ b.m_fullPath = path ∧
      BlockBasedTableReader.LooksWhole file b

/-- The reader of the format stays inside the file: an in-memory file is empty or has room for an
entry and its trailer, and does not start with more entries than an `int` counts. -/
def InBounds (file : Bytes) : TableFormatKind → Prop
  | InMemory => file = [] ∨ (16 < file.length ∧
      ¬ SSTableReader.StartsWithEntries (2 ^ 31) (file.take (file.length - 16)))
  | BlockBased => True

/-- The table is not opened: a `std::runtime_error`, or a `std::bad_alloc`. -/
def Refused (res : Except Fault TableReader) : Prop :=
  ∃ f, res = .error f ∧ (f.IsThrown ∨ f = .badAlloc)

/-! ### Any file -/

section

variable {fmt : TableFormatKind} {path : TablePath} {fs : FileSystem} {file : Bytes}

theorem openTable_ok_iff (hfile : fs.file? path.level path.name = some file)
    (reader : TableReader) :
    fmt.openTable fs path = .ok reader ↔ fmt.LooksWhole path file reader := by
  cases fmt with
  | InMemory =>
    simp only [openTable, InMemoryTableFormat.openTable, hfile, LooksWhole,
      ← SSTableReader.readBuffer_ok_iff]
    cases SSTableReader.readBuffer file with
    | error f => simp [Except.map]
    | ok t => simp [Except.map, eq_comm]
  | BlockBased =>
    simp only [openTable, BlockBasedTableFormat.openTable, hfile, LooksWhole,
      ← BlockBasedTableReader.construct_iff]
    cases BlockBasedTableReader.construct file path with
    | error f => simp [Except.map]
    | ok b => simp [Except.map, eq_comm]

theorem openTable_thrown (hfile : fs.file? path.level path.name = some file)
    (hin : fmt.InBounds file) {f : Fault} (h : fmt.openTable fs path = .error f) : f.IsThrown := by
  cases fmt with
  | InMemory =>
    simp only [openTable, InMemoryTableFormat.openTable, hfile] at h
    cases hread : SSTableReader.readBuffer file with
    | error f' =>
      rw [hread] at h
      cases h
      exact SSTableReader.readBuffer_thrown hread hin
    | ok t =>
      rw [hread] at h
      cases h
  | BlockBased =>
    simp only [openTable, BlockBasedTableFormat.openTable, hfile] at h
    cases hread : BlockBasedTableReader.construct file path with
    | error f' =>
      rw [hread] at h
      cases h
      exact BlockBasedTableReader.construct_thrown hread
    | ok b =>
      rw [hread] at h
      cases h

theorem openTable_memory (fmt : TableFormatKind) (fs : FileSystem) (path : TablePath)
    (memory : BlockBasedTableReader.Memory) :
    fmt.openTable fs path memory = fmt.openTable fs path ∨
      fmt.openTable fs path memory = .error .badAlloc := by
  cases fmt with
  | InMemory => exact .inl rfl
  | BlockBased =>
    simp only [openTable, BlockBasedTableFormat.openTable]
    cases fs.file? path.level path.name with
    | none => exact .inl rfl
    | some content =>
      obtain heq | hbad := BlockBasedTableReader.construct_memory memory content path
      · exact .inl (by simp only [heq])
      · exact .inr (by simp only [hbad, Except.map])

/-- **A file that does not look whole** is refused, whatever memory there is. -/
theorem openTable_refused (hfile : fs.file? path.level path.name = some file)
    (hin : fmt.InBounds file) (hno : ∀ reader, ¬ fmt.LooksWhole path file reader)
    (memory : BlockBasedTableReader.Memory) : Refused (fmt.openTable fs path memory) := by
  obtain heq | hbad := openTable_memory fmt fs path memory
  · rw [heq]
    cases hres : fmt.openTable fs path with
    | ok reader => exact absurd ((openTable_ok_iff hfile reader).1 hres) (hno reader)
    | error f => exact ⟨f, rfl, .inl (openTable_thrown hfile hin hres)⟩
  · exact ⟨_, hbad, .inr rfl⟩

end

/-! ### The beginning of a table -/

def cutPath : TablePath := ⟨"", "level-0", "t"⟩

/-- The disk with nothing but the cut file. -/
def cutTo (p : Bytes) : FileSystem :=
  FileSystem.empty.setDir "level-0" (SortedMap.empty.insert ("t", .regular p))

def twoEntries : List Entry := [⟨"a", "1", false⟩, ⟨"b", "2", false⟩]

def plainEntries : List Entry := [⟨"abc", "x", false⟩]

/-- The first `n` bytes of the file of the table are opened, and `key` is missing. -/
def LosesKey (fmt : TableFormatKind) (es : List Entry) (n : Nat) (key : Bytes) : Prop :=
  es ≠ [] ∧ SortedEntries es ∧ lookup es key ≠ none ∧ ∃ r fs content reader,
    fmt.writeTable {} cutPath es 7 1 InMemoryTableFormat.newDir = (.ok r, fs) ∧
    fs.file? cutPath.level cutPath.name = some content ∧ content.take n ≠ content ∧
    fmt.openTable (cutTo (content.take n)) cutPath = .ok reader ∧
    reader.get (cutTo (content.take n)) key = .ok none

/-- A value with the blocks of an empty table and a footer for them, at the place in the file that
it has as the value of a key of one byte. -/
def forgedBlocks : Bytes :=
  List.replicate 40 0 ++ BlockBasedTableFormat.encFooter ⟨⟨13, 24⟩, ⟨37, 4⟩, ⟨41, 12⟩⟩

def forgedEntries : List Entry := [⟨"k", forgedBlocks, false⟩]

end TableFormatKind

end TinyKv
