import TinyKv.Table.Proof.Format

/-!
# A table from its file and from memory

`InMemoryTableFormat` builds a table twice: `writeTable` keeps the entries it was given, `openTable`
parses the file. The two are the same table, whatever the entries hold (same metadata, same size,
same answers, same entries in the order of their keys), iff the reader can count them in an `int`
(`reopened_same_iff`).
-/

namespace TinyKv

open Bytes

/-! ## Sorting entries with distinct keys -/

theorem sortEntries_sorted {es : List Entry} (h : (es.map Entry.key).Nodup) :
    SortedEntries (sortEntries es) := by
  have hle : (sortEntries es).Pairwise fun a b => a.key ≤ b.key :=
    List.pairwise_insertionSort _ es
  have hne : (sortEntries es).Pairwise fun a b => a.key ≠ b.key :=
    List.pairwise_map.1 (((sortEntries_perm es).map Entry.key).nodup_iff.2 h)
  exact (hle.and hne).imp fun hab => lt_of_le_of_ne hab.1 hab.2

/-! ## The iterator -/

theorem SSTable.Iter.collect_eq (it : SSTable.Iter) :
    it.collect = .ok (it.m_ssTable.m_entries.drop it.m_index) := by
  fun_induction collect it with
  | case1 it hv ih =>
    have hlt : it.m_index < it.m_ssTable.m_entries.length := by simpa [valid] using hv
    have hentry : it.entry = .ok it.m_ssTable.m_entries[it.m_index] :=
      entryAt_of_lt (Int.natCast_nonneg _) (by simpa using hlt)
    have hnext : it.next = { it with m_index := it.m_index + 1 } := if_pos hv
    rw [hnext] at ih
    rw [hentry, hnext, ih, List.drop_eq_getElem_cons hlt]
    rfl
  | case2 it hv =>
    have hge : it.m_ssTable.m_entries.length ≤ it.m_index := by simpa [valid] using hv
    rw [List.drop_eq_nil_of_le hge]

theorem SSTable.listing_newIterator (t : SSTable) : t.newIterator.listing = .ok t.m_entries := by
  rw [Iter.listing, Iter.collect_eq]
  rfl

/-! ## Writing and opening -/

namespace InMemoryTableFormat

variable {env : Env} {path : TablePath} {es : List Entry} {timestamp : TimestampType}
  {fileNum : FileNumber} {fs fs' : FileSystem} {r : TableReader}

/-- The file of the table can be put in its place. -/
def Placed (env : Env) (path : TablePath) (content : Bytes) (fs fs' : FileSystem) : Prop :=
  ∃ fs1, createParent env path fs = .ok fs1 ∧
    fs1.writeFile path.level path.name content = some fs'

/-- What `writeTable` returns, and when. -/
theorem writeTable_ok_iff (hne : es ≠ []) (hnd : (es.map Entry.key).Nodup) :
    writeTable env path es timestamp fileNum fs = (.ok r, fs') ↔
      ∃ fs1, Placed env path (SSTableWriter.encode (sortEntries es) timestamp fileNum) fs fs1 ∧
        fs' = fs1.record (.tableCreated path (SSTableWriter.encode (sortEntries es) timestamp fileNum)) ∧
        r = .inMemory ⟨⟨fileNum, timestamp, firstKey (sortEntries es), lastKey (sortEntries es)⟩,
          sortEntries es⟩ := by
  have hempty : es.isEmpty = false := by simpa using hne
  simp only [writeTable, SSTableWriter.write, hempty, Bool.false_eq_true, ↓reduceIte,
    SSTable.ofEntries, sortEntries_eq (sortEntries_sorted hnd), Placed]
  cases hp : createParent env path fs with
  | error f => simp
  | ok fs1 =>
    dsimp only
    cases hw : fs1.writeFile path.level path.name
        (SSTableWriter.encode (sortEntries es) timestamp fileNum) with
    | none => simp [hw]
    | some fs2 =>
      refine ⟨fun h => ?_, ?_⟩
      · cases h
        exact ⟨fs2, ⟨fs1, rfl, hw⟩, rfl, rfl⟩
      · rintro ⟨fs3, ⟨fs4, h4, hw'⟩, rfl, rfl⟩
        cases h4
        rw [hw, Option.some_inj] at hw'
        rw [hw']

/-- The file is opened as the table `r` that was kept, and both list `es` in the order of the keys. -/
def ReopenedSame (fs : FileSystem) (path : TablePath) (r : TableReader) (es : List Entry) : Prop :=
  ∃ r' it it', openTable fs path = .ok r' ∧ r'.metadata = r.metadata ∧ r'.getSize = r.getSize ∧
    (∀ k, r'.withinRange k = r.withinRange k) ∧ (∀ k, r'.get fs k = r.get fs k) ∧
    r.newIterator = .ok it ∧ r'.newIterator = .ok it' ∧ it.listing = .ok (sortEntries es) ∧
    it'.listing = .ok (sortEntries es) ∧ SortedEntries (sortEntries es) ∧ (sortEntries es).Perm es

theorem openTable_written
    (h : writeTable env path es timestamp fileNum fs = (.ok r, fs')) (hne : es ≠ [])
    (hnd : (es.map Entry.key).Nodup) : openTable fs' path = (SSTableReader.readBuffer
      (SSTableWriter.encode (sortEntries es) timestamp fileNum)).map .inMemory := by
  obtain ⟨fs1, ⟨fs0, -, hw⟩, rfl, rfl⟩ := (writeTable_ok_iff hne hnd).1 h
  simp only [openTable, FileSystem.record_file?, (FileSystem.writeFile_touches hw).2]

/-- **A table reopened from its file** is the table that was kept iff it has fewer than `2 ^ 31`
entries. `writeTable` returns it whenever the file can be put in its place. -/
theorem reopened_same_iff (hne : es ≠ []) (hnd : (es.map Entry.key).Nodup)
    (hsmall : ∀ e ∈ es, e.Small) (env : Env) (path : TablePath) (timestamp : TimestampType)
    (fileNum : FileNumber) (fs : FileSystem) :
    ((∃ r fs', writeTable env path es timestamp fileNum fs = (.ok r, fs')) ↔
      ∃ fs', Placed env path (SSTableWriter.encode (sortEntries es) timestamp fileNum) fs fs') ∧
    ∀ r fs', writeTable env path es timestamp fileNum fs = (.ok r, fs') →
      (ReopenedSame fs' path r es ↔ es.length < 2 ^ 31) := by
  have hsort := sortEntries_sorted hnd
  have hperm := sortEntries_perm es
  have hsmall' : ∀ e ∈ sortEntries es, e.Small := fun e he => hsmall e (hperm.subset he)
  constructor
  · constructor
    · rintro ⟨r, fs', h⟩
      obtain ⟨fs1, hp, -, -⟩ := (writeTable_ok_iff hne hnd).1 h
      exact ⟨fs1, hp⟩
    · rintro ⟨fs1, hp⟩
      exact ⟨_, _, (writeTable_ok_iff hne hnd).2 ⟨fs1, hp, rfl, rfl⟩⟩
  · intro r fs' h
    have hopen := openTable_written h hne hnd
    refine ⟨fun hsame => ?_, fun hlen => ?_⟩
    · obtain ⟨r', -, -, hr', -⟩ := hsame
      by_contra hmany
      -- the counter of the reader overflows
      rw [hopen, SSTableReader.readBuffer_encode_many hsmall'
        (by rw [hperm.length_eq]; exact not_lt.1 hmany)] at hr'
      cases hr'
    · have hne' : sortEntries es ≠ [] := fun hn => hne (by rw [hn] at hperm; exact hperm.symm.eq_nil)
      obtain ⟨fs1, -, rfl, rfl⟩ := (writeTable_ok_iff hne hnd).1 h
      rw [SSTableReader.readBuffer_encode hne' hsort hsmall' (by rwa [hperm.length_eq])] at hopen
      exact ⟨_, _, _, hopen, rfl, rfl, fun _ => rfl, fun _ => rfl, rfl, rfl,
        SSTable.listing_newIterator _, SSTable.listing_newIterator _, hsort, hperm⟩

/-- Two entries out of order, one deleted. -/
def unsortedEntries : List Entry := [⟨"b", "2", false⟩, ⟨"a", "val", true⟩]

/-- A new level directory. -/
def newDir : FileSystem := FileSystem.empty.setDir "level-0" SortedMap.empty

theorem placed_newDir (content : Bytes) :
    ∃ fs, Placed {} ⟨"", "level-0", "t"⟩ content newDir fs := by
  have hdir : newDir.dir? (Bytes.ofString "level-0") = some SortedMap.empty := by
    rw [newDir, FileSystem.dir?_setDir, if_pos rfl]
  exact ⟨_, newDir, by simp [createParent, FileSystem.createDirectory_of_dir hdir],
    FileSystem.writeFile_of_regular hdir (by simp) _⟩

theorem reopened_same_unsorted :
    ∃ r fs' r', writeTable {} ⟨"", "level-0", "t"⟩ unsortedEntries 7 1 newDir = (.ok r, fs') ∧
      openTable fs' ⟨"", "level-0", "t"⟩ = .ok r' ∧
      r'.get fs' "a" = .ok (some ⟨"a", "val", true⟩) := by
  have h := @reopened_same_iff unsortedEntries (by decide) (by decide) (by decide) {}
    ⟨"", "level-0", "t"⟩ 7 1 newDir
  obtain ⟨r, fs', hw⟩ := h.1.2 (placed_newDir _)
  obtain ⟨r', -, -, ho, -, -, -, hget, -⟩ := (h.2 r fs' hw).2 (by decide)
  refine ⟨r, fs', r', hw, ho, (hget "a").trans ?_⟩
  obtain ⟨-, -, -, rfl⟩ := (writeTable_ok_iff (by decide) (by decide)).1 hw
  show SSTable.get _ _ = _
  decide +kernel

/-- `n` entries with keys of four bytes and no value. -/
def manyEntries (n : Nat) : List Entry := (List.range n).map fun i => ⟨beBytes 4 i, [], false⟩

theorem length_manyEntries (n : Nat) : (manyEntries n).length = n := by
  rw [manyEntries, List.length_map, List.length_range]

theorem manyEntries_nodup {n : Nat} (hn : n ≤ 2 ^ 32) : ((manyEntries n).map Entry.key).Nodup := by
  rw [manyEntries, List.map_map]
  refine List.Nodup.map_on (fun i hi j hj hij => ?_) List.nodup_range
  have hij := congrArg beNat hij
  have hi := List.mem_range.1 hi
  have hj := List.mem_range.1 hj
  simp only [Function.comp_apply, beNat_beBytes] at hij
  omega

theorem manyEntries_small (n : Nat) : ∀ e ∈ manyEntries n, e.Small := by
  intro e he
  obtain ⟨i, -, rfl⟩ := List.mem_map.1 he
  exact ⟨(length_beBytes 4 i).trans_lt (by decide), (by decide : 0 < 2 ^ 32)⟩

/-- `2 ^ 31` entries are written, and the reader of the file overflows. -/
theorem reopened_many :
    let es := manyEntries (2 ^ 31)
    es ≠ [] ∧ (es.map Entry.key).Nodup ∧ (∀ e ∈ es, e.Small) ∧
      ∃ r fs', writeTable {} ⟨"", "level-0", "t"⟩ es 7 1 newDir = (.ok r, fs') ∧
        openTable fs' ⟨"", "level-0", "t"⟩ = .error .signedOverflow ∧
        ¬ ReopenedSame fs' ⟨"", "level-0", "t"⟩ r es := by
  intro es
  have hlen : es.length = 2 ^ 31 := length_manyEntries _
  have hne : es ≠ [] := List.ne_nil_of_length_pos (by rw [hlen]; decide)
  have hnd : (es.map Entry.key).Nodup := manyEntries_nodup (by decide)
  have hsmall : ∀ e ∈ es, e.Small := manyEntries_small _
  obtain ⟨fs1, hp⟩ := placed_newDir (SSTableWriter.encode (sortEntries es) 7 1)
  have hw := (writeTable_ok_iff hne hnd).2 ⟨fs1, hp, rfl, rfl⟩
  have hopen := openTable_written hw hne hnd
  rw [SSTableReader.readBuffer_encode_many (fun e he => hsmall e ((sortEntries_perm es).subset he))
    (by rw [(sortEntries_perm es).length_eq, hlen])] at hopen
  refine ⟨hne, hnd, hsmall, _, _, hw, hopen, fun hsame => ?_⟩
  obtain ⟨r', -, -, hr', -⟩ := hsame
  rw [hopen] at hr'
  cases hr'

end InMemoryTableFormat

end TinyKv
