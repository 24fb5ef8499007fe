import TinyKv.Table.Format
import TinyKv.Table.Proof.InBounds
import TinyKv.Table.BlockBased.Proof.Lookup

/-!
# What a table reader serves

`Serves fs r es`: the reader `r` answers from the entries `es`, on the disk `fs`. In both formats
`get` is the lookup in `es` up to the value of a tombstone (`Serves.get`), `withinRange` the test
against the first and last key (`Serves.withinRange`), and more files on the disk change nothing
(`Serves.mono`).

* `writeTable_ok`: a table that the format can write (`Writable`) is written as a whole and served.
* `writeTable_error`: any other table throws; at most a file under the new name is left.
* `writeTable_outcome`: what any write does, whatever the entries are and whatever fails.
* `openTable_ok`: the file of a table is opened as a reader that serves it.
-/

namespace TinyKv

open Bytes

/-- The reader `r` stands for the table `es`. -/
inductive Serves (fs : FileSystem) : TableReader → List Entry → Prop
  | inMemory {m : SSTableMetadata} {es : List Entry} (ne : es ≠ []) (sorted : SortedEntries es)
      (length : es.length < 2 ^ 31) : Serves fs (.inMemory ⟨m, es⟩) es
  | blockBased {es : List Entry} {timestamp : TimestampType} {fileNum : FileNumber}
      {path : TablePath} (ne : es ≠ []) (sorted : SortedEntries es)
      (small : ∀ e ∈ es, e.persisted.Small)
      (size : (BlockBasedTableFormat.encodeTable es timestamp fileNum).length < 2 ^ 63)
      (file : fs.file? path.level path.name =
        some (BlockBasedTableFormat.encodeTable es timestamp fileNum)) :
      Serves fs (.blockBased (BlockBasedTableReader.readerOf es timestamp fileNum path)) es

namespace Serves

variable {fs fs' : FileSystem} {r : TableReader} {es : List Entry}

theorem sorted (h : Serves fs r es) : SortedEntries es := by
  cases h with
  | inMemory _ hs _ => exact hs
  | blockBased _ hs _ _ _ => exact hs

theorem mono (h : Serves fs r es) (hle : fs.Le fs') : Serves fs' r es := by
  cases h with
  | inMemory h1 h2 h3 => exact .inMemory h1 h2 h3
  | blockBased h1 h2 h3 h4 h5 => exact .blockBased h1 h2 h3 h4 (hle _ _ _ h5)

/-- A reader depends on its own file only. -/
theorem congr (h : Serves fs r es)
    (hfile : ∀ b, r = .blockBased b → fs'.file? b.m_fullPath.level b.m_fullPath.name =
      fs.file? b.m_fullPath.level b.m_fullPath.name) : Serves fs' r es := by
  cases h with
  | inMemory hne hsort hlen => exact .inMemory hne hsort hlen
  | blockBased hne hsort hsmall hsize hf =>
    exact .blockBased hne hsort hsmall hsize ((hfile _ rfl).trans hf)

theorem withinRange (h : Serves fs r es) (key : Bytes) :
    r.withinRange key = .ok (decide (firstKey es ≤ key ∧ key ≤ lastKey es)) := by
  cases h with
  | inMemory hne _ _ => exact SSTable.withinRange_eq hne key
  | blockBased =>
    simp only [TableReader.withinRange, BlockBasedTableReader.withinRange]
    rw [Bool.decide_and]
    rfl

theorem withinRange_of_lookup (h : Serves fs r es) {key : Bytes} (hk : lookup es key ≠ none) :
    r.withinRange key = .ok true := by
  obtain ⟨e, he⟩ := Option.ne_none_iff_exists'.1 hk
  obtain ⟨hmem, rfl⟩ := (Keyed.lookup_eq_some h.sorted).1 he
  rw [h.withinRange, decide_eq_true ⟨firstKey_le h.sorted hmem, le_lastKey h.sorted hmem⟩]

theorem get (h : Serves fs r es) (key : Bytes) :
    ∃ e, r.get fs key = .ok e ∧ e.map Entry.persisted = (lookup es key).map Entry.persisted := by
  cases h with
  | inMemory _ hsort hlen => exact ⟨_, SSTable.get_eq hsort hlen key, rfl⟩
  | @blockBased _ timestamp fileNum path _ hsort hsmall hsize hfile =>
    refine ⟨(lookup es key).map Entry.persisted, ?_, ?_⟩
    · have hget := BlockBasedTableReader.get_encodeTable hsort hsmall hsize path key
      rw [← hfile] at hget
      exact hget
    · rw [Option.map_map]
      congr 1
      funext e
      simp only [Function.comp_apply, Entry.persisted]
      split <;> rfl

end Serves

namespace TableFormatKind

/-- The content of the file of a table. -/
def content (entries : List Entry) (timestamp : TimestampType) (fileNum : FileNumber) :
    TableFormatKind → Bytes
  | InMemory => SSTableWriter.encode entries timestamp fileNum
  | BlockBased => BlockBasedTableFormat.encodeTable entries timestamp fileNum

/-- The tables that the format writes: none may be empty, and the block-based format takes no
string of `2 ^ 32` bytes or more. -/
def Writable (entries : List Entry) : TableFormatKind → Prop
  | InMemory => entries ≠ []
  | BlockBased => entries ≠ [] ∧ ∀ e ∈ entries, e.persisted.Small

instance (entries : List Entry) (fmt : TableFormatKind) : Decidable (fmt.Writable entries) :=
  match fmt with
  | InMemory => inferInstanceAs (Decidable (_ ≠ _))
  | BlockBased => inferInstanceAs (Decidable (_ ∧ _))

theorem Writable.ne {fmt : TableFormatKind} {entries : List Entry} (h : fmt.Writable entries) :
    entries ≠ [] := by
  cases fmt with
  | InMemory => exact h
  | BlockBased => exact h.1

theorem writable_of_small {fmt : TableFormatKind} {entries : List Entry} (hne : entries ≠ [])
    (h : ∀ e ∈ entries, e.Small) : fmt.Writable entries := by
  cases fmt with
  | InMemory => exact hne
  | BlockBased => exact ⟨hne, fun e he => (h e he).persisted⟩

variable {fmt : TableFormatKind} {env : Env} {path : TablePath} {es : List Entry}
  {fs : FileSystem} {d : Dir}

theorem createParent_ok (henv : env.NoFault) (hdir : fs.dir? path.level = some d) :
    createParent env path fs = .ok fs := by
  simp only [createParent, henv.mkdir, FileSystem.createDirectory_of_dir hdir]

/-- The reader that a writer returns for the file it has written. -/
def newReader (entries : List Entry) (timestamp : TimestampType) (fileNum : FileNumber)
    (content : Bytes) (path : TablePath) : TableFormatKind → Except Fault TableReader
  | InMemory => .ok (.inMemory (SSTable.ofEntries ⟨fileNum, timestamp, firstKey (sortEntries entries),
      lastKey (sortEntries entries)⟩ (sortEntries entries)))
  | BlockBased => (BlockBasedTableReader.construct content path).map .blockBased

theorem writeTable_eq (henv : env.NoFault) (hdir : fs.dir? path.level = some d)
    (hreg : ∀ p, d.find? path.name = some p → p.2 ≠ .other) (hw : fmt.Writable es)
    (hsort : SortedEntries es) (hlen : es.length < 2 ^ 31) (timestamp : TimestampType)
    (fileNum : FileNumber) :
    fmt.writeTable env path es timestamp fileNum fs =
      (fmt.newReader es timestamp fileNum (fmt.content es timestamp fileNum) path,
        fs.addTable path d (fmt.content es timestamp fileNum)) := by
  cases fmt with
  | InMemory =>
    have hne : es ≠ [] := hw
    have hempty : es.isEmpty = false := by simpa using hne
    simp only [writeTable, InMemoryTableFormat.writeTable, SSTableWriter.write, hempty,
      Bool.false_eq_true, ↓reduceIte, createParent_ok henv hdir,
      FileSystem.writeFile_of_regular hdir hreg, newReader, content, sortEntries_eq hsort]
    rfl
  | BlockBased =>
    obtain ⟨hne, hsmall⟩ := hw
    have hil := BlockBasedTableFormat.length_indexOfTable_lt (by omega : es.length < 2 ^ 32)
    simp only [writeTable, BlockBasedTableFormat.writeTable, createParent_ok henv hdir,
      BlockBasedTableFormat.writeBlocks_eq hne hsmall hil,
      FileSystem.writeFile_of_regular hdir hreg]
    rfl

/-- **A table that can be written** is written as a whole and served. -/
theorem writeTable_ok (henv : env.NoFault) (hdir : fs.dir? path.level = some d)
    (hreg : ∀ p, d.find? path.name = some p → p.2 ≠ .other) (hw : fmt.Writable es) (hsort : SortedEntries es)
    (hlen : es.length < 2 ^ 31) (timestamp : TimestampType) (fileNum : FileNumber)
    (hsize : fmt = BlockBased → (fmt.content es timestamp fileNum).length < 2 ^ 63) :
    ∃ r, fmt.writeTable env path es timestamp fileNum fs =
        (.ok r, fs.addTable path d (fmt.content es timestamp fileNum)) ∧
      Serves (fs.addTable path d (fmt.content es timestamp fileNum)) r es ∧
      (fmt = InMemory → ∀ fs', Serves fs' r es) ∧
      r.metadata = ⟨fileNum, timestamp, firstKey es, lastKey es⟩ := by
  rw [writeTable_eq henv hdir hreg hw hsort hlen]
  cases fmt with
  | InMemory =>
    have hne : es ≠ [] := hw
    refine ⟨.inMemory ⟨⟨fileNum, timestamp, firstKey es, lastKey es⟩, es⟩, ?_,
      .inMemory hne hsort hlen, fun _ _ => .inMemory hne hsort hlen, rfl⟩
    simp only [newReader, SSTable.ofEntries, sortEntries_eq hsort]
  | BlockBased =>
    obtain ⟨hne, hsmall⟩ := hw
    have hil := BlockBasedTableFormat.length_indexOfTable_lt (by omega : es.length < 2 ^ 32)
    refine ⟨.blockBased (BlockBasedTableReader.readerOf es timestamp fileNum path), ?_,
      .blockBased hne hsort hsmall (hsize rfl) ?_, fun h => (by cases h), rfl⟩
    · simp only [newReader, content,
        BlockBasedTableReader.construct_encodeTable hne hsmall hil (hsize rfl)]
      rfl
    · rw [FileSystem.addTable, FileSystem.record_file?, FileSystem.file?_setDir_insert hdir,
        if_pos ⟨rfl, rfl⟩]
      rfl

/-- **Any other table** makes the writer throw, with at most a file under its name left. -/
theorem writeTable_error (henv : env.NoFault) (hdir : fs.dir? path.level = some d)
    (hreg : ∀ p, d.find? path.name = some p → p.2 ≠ .other) (hw : ¬ fmt.Writable es)
    (timestamp : TimestampType) (fileNum : FileNumber) :
    ∃ f fs', fmt.writeTable env path es timestamp fileNum fs = (.error f, fs') ∧
      (fs' = fs ∨ ∃ c, fs' = fs.setDir path.level (d.insert (path.name, .regular c)) ∧
        (es = [] → fmt = BlockBased ∧ c = [])) := by
  cases fmt with
  | InMemory =>
    have hne : es = [] := not_not.1 hw
    subst hne
    exact ⟨_, fs, rfl, .inl rfl⟩
  | BlockBased =>
    have hbad : es = [] ∨ ∃ e ∈ es, ¬ e.persisted.Small := by
      by_cases hne : es = []
      · exact .inl hne
      · simp only [Writable, not_and] at hw
        have := hw hne
        push Not at this
        exact .inr this
    obtain ⟨f, out, hf, hout⟩ := BlockBasedTableFormat.writeBlocks_error hbad timestamp fileNum
    refine ⟨f, _, ?_, .inr ⟨out, rfl, fun hnil => ⟨rfl, hout hnil⟩⟩⟩
    simp only [writeTable, BlockBasedTableFormat.writeTable, createParent_ok henv hdir, hf,
      FileSystem.writeFile_of_regular hdir hreg]

/-! ## Whatever fails -/

theorem createParent_files {env : Env} {path : TablePath} {fs fs1 : FileSystem}
    (h : createParent env path fs = .ok fs1) :
    fs1.effects = fs.effects ∧ fs1.wal = fs.wal ∧ ∀ l n, fs1.file? l n = fs.file? l n := by
  unfold createParent at h
  dsimp only at h
  split at h
  · cases h
  · split at h
    · cases h
    · rename_i hc
      cases h
      exact FileSystem.createDirectory_files hc

/-- The content is what the format makes of the entries. -/
def Encodes (entries : List Entry) (timestamp : TimestampType) (fileNum : FileNumber)
    (content : Bytes) : TableFormatKind → Prop
  | InMemory => entries ≠ [] ∧ content = SSTableWriter.encode (sortEntries entries) timestamp fileNum
  | BlockBased => BlockBasedTableFormat.Encodable entries ∧
      content = BlockBasedTableFormat.encodeTable entries timestamp fileNum

theorem Encodes.ne {fmt : TableFormatKind} {es : List Entry} {timestamp : TimestampType}
    {fileNum : FileNumber} {content : Bytes} (h : fmt.Encodes es timestamp fileNum content) :
    es ≠ [] := by
  cases fmt with
  | InMemory => exact h.1
  | BlockBased => exact h.1.ne

/-- What a writer does, whatever the entries are and whatever fails: nothing to any file, a part of
the file left behind an exception, or the file as a whole. -/
inductive Outcome (fmt : TableFormatKind) (path : TablePath) (es : List Entry)
    (timestamp : TimestampType) (fileNum : FileNumber) (fs : FileSystem) :
    Except Fault TableReader × FileSystem → Prop
  | refused {f : Fault} {fs1 : FileSystem} (touches : fs.Touches path.level path.name fs1)
      (file : fs1.file? path.level path.name = fs.file? path.level path.name) :
      Outcome fmt path es timestamp fileNum fs (.error f, fs1)
  | left {f : Fault} {fs1 : FileSystem} {out : Bytes} (format : fmt = BlockBased)
      (entries : ¬ BlockBasedTableFormat.Encodable es) (touches : fs.Touches path.level path.name fs1)
      (file : fs1.file? path.level path.name = some out) :
      Outcome fmt path es timestamp fileNum fs (.error f, fs1)
  | created {fs1 : FileSystem} {content : Bytes} (encodes : fmt.Encodes es timestamp fileNum content)
      (touches : fs.Touches path.level path.name fs1)
      (file : fs1.file? path.level path.name = some content) :
      Outcome fmt path es timestamp fileNum fs
        (fmt.newReader es timestamp fileNum content path, fs1.record (.tableCreated path content))

/-- **Every write** has one of these outcomes. -/
theorem writeTable_outcome (fmt : TableFormatKind) (env : Env) (path : TablePath) (es : List Entry)
    (timestamp : TimestampType) (fileNum : FileNumber) (fs : FileSystem) :
    Outcome fmt path es timestamp fileNum fs (fmt.writeTable env path es timestamp fileNum fs) := by
  cases fmt with
  | InMemory =>
    simp only [writeTable, InMemoryTableFormat.writeTable, SSTableWriter.write]
    by_cases hne : es = []
    · subst hne
      exact .refused (.refl ..) rfl
    · have hempty : es.isEmpty = false := by simpa using hne
      simp only [hempty, Bool.false_eq_true, ↓reduceIte]
      cases hp : createParent env path fs with
      | error f => exact .refused (.refl ..) rfl
      | ok fs1 =>
        obtain ⟨heffects, hwal, hfiles⟩ := createParent_files hp
        have ht1 : fs.Touches path.level path.name fs1 := ⟨heffects, hwal, fun l n _ => hfiles l n⟩
        dsimp only
        cases hw : fs1.writeFile path.level path.name
            (SSTableWriter.encode (sortEntries es) timestamp fileNum) with
        | none => exact .refused ht1 (hfiles ..)
        | some fs2 =>
          obtain ⟨ht, hfile⟩ := FileSystem.writeFile_touches hw
          exact .created ⟨hne, rfl⟩ (ht1.trans ht) hfile
  | BlockBased =>
    simp only [writeTable, BlockBasedTableFormat.writeTable]
    cases hp : createParent env path fs with
    | error f => exact .refused (.refl ..) rfl
    | ok fs1 =>
      obtain ⟨heffects, hwal, hfiles⟩ := createParent_files hp
      have ht1 : fs.Touches path.level path.name fs1 := ⟨heffects, hwal, fun l n _ => hfiles l n⟩
      dsimp only
      obtain ⟨henc, hblocks⟩ | ⟨hbad, f, out, hblocks⟩ :=
        BlockBasedTableFormat.writeBlocks_cases es timestamp fileNum
      · rw [hblocks]
        dsimp only
        cases hw : fs1.writeFile path.level path.name
            (BlockBasedTableFormat.encodeTable es timestamp fileNum) with
        | none => exact .refused ht1 (hfiles ..)
        | some fs2 =>
          obtain ⟨ht, hfile⟩ := FileSystem.writeFile_touches hw
          exact .created ⟨henc, rfl⟩ (ht1.trans ht) hfile
      · rw [hblocks]
        dsimp only
        cases hw : fs1.writeFile path.level path.name out with
        | none => exact .refused ht1 (hfiles ..)
        | some fs2 =>
          obtain ⟨ht, hfile⟩ := FileSystem.writeFile_touches hw
          exact .left rfl hbad (ht1.trans ht) hfile

theorem Outcome.files {fmt : TableFormatKind} {path : TablePath} {es : List Entry}
    {timestamp : TimestampType} {fileNum : FileNumber} {fs : FileSystem}
    {res : Except Fault TableReader × FileSystem} (h : Outcome fmt path es timestamp fileNum fs res)
    (l n : Bytes) (hn : ¬ (l = path.level ∧ n = path.name)) : res.2.file? l n = fs.file? l n := by
  cases h with
  | refused htouches _ => exact htouches.files l n hn
  | left _ _ htouches _ => exact htouches.files l n hn
  | created _ htouches _ => exact htouches.files l n hn

theorem Outcome.effects {fmt : TableFormatKind} {path : TablePath} {es : List Entry}
    {timestamp : TimestampType} {fileNum : FileNumber} {fs : FileSystem}
    {res : Except Fault TableReader × FileSystem}
    (h : Outcome fmt path es timestamp fileNum fs res) : fs.effects <+: res.2.effects := by
  cases h with
  | refused htouches _ => rw [htouches.effects]
  | left _ _ htouches _ => rw [htouches.effects]
  | created _ htouches _ =>
    rw [FileSystem.record_effects, htouches.effects]
    exact List.prefix_append _ _

/-- What a writer leaves: an exception, or one table more. Nothing else changes. -/
def Leaves (fmt : TableFormatKind) (path : TablePath) (es : List Entry) (timestamp : TimestampType)
    (fileNum : FileNumber) (fs : FileSystem) (res : Except Fault TableReader × FileSystem) : Prop :=
  (∃ f fs1, res = (.error f, fs1) ∧ fs.Touches path.level path.name fs1) ∨
  (es ≠ [] ∧ ∃ r fs1, res = (.ok r, fs1.record (.tableCreated path (fmt.content es timestamp fileNum))) ∧
    fs.Touches path.level path.name fs1 ∧ Serves fs1 r es ∧
    r.metadata = ⟨fileNum, timestamp, firstKey es, lastKey es⟩ ∧
    ∀ b, r = .blockBased b → b.m_fullPath = path)

theorem Outcome.leaves {timestamp : TimestampType} {fileNum : FileNumber}
    {res : Except Fault TableReader × FileSystem} (h : Outcome fmt path es timestamp fileNum fs res)
    (hsort : SortedEntries es) (hlen : es.length < 2 ^ 31)
    (hsize : fmt = BlockBased → (fmt.content es timestamp fileNum).length < 2 ^ 63) :
    Leaves fmt path es timestamp fileNum fs res := by
  cases h with
  | refused htouches _ => exact .inl ⟨_, _, rfl, htouches⟩
  | left _ _ htouches _ => exact .inl ⟨_, _, rfl, htouches⟩
  | @created fs1 content hencodes htouches hfile =>
    cases fmt with
    | InMemory =>
      obtain ⟨hne, rfl⟩ := hencodes
      simp only [newReader, SSTable.ofEntries, sortEntries_eq hsort]
      exact .inr ⟨hne, _, fs1, rfl, htouches, .inMemory hne hsort hlen, rfl, fun _ hr => by cases hr⟩
    | BlockBased =>
      obtain ⟨henc, rfl⟩ := hencodes
      simp only [newReader, BlockBasedTableReader.construct_encodeTable henc.ne henc.small henc.blocks
        (hsize rfl)]
      refine .inr ⟨henc.ne, _, fs1, rfl, htouches,
        .blockBased henc.ne hsort henc.small (hsize rfl) hfile, rfl, ?_⟩
      intro b hb
      cases hb
      rfl

/-- **A writer in any environment.** -/
theorem writeTable_leaves (env : Env) (path : TablePath) (timestamp : TimestampType)
    (fileNum : FileNumber) (fs : FileSystem) (fmt : TableFormatKind) (hsort : SortedEntries es)
    (hlen : es.length < 2 ^ 31)
    (hsize : fmt = BlockBased → (fmt.content es timestamp fileNum).length < 2 ^ 63) :
    Leaves fmt path es timestamp fileNum fs (fmt.writeTable env path es timestamp fileNum fs) :=
  (writeTable_outcome fmt env path es timestamp fileNum fs).leaves hsort hlen hsize

/-- **The file of a table** is opened as a reader that serves it. -/
theorem openTable_ok {timestamp : TimestampType} {fileNum : FileNumber}
    (hfile : fs.file? path.level path.name = some (fmt.content es timestamp fileNum))
    (hne : es ≠ []) (hsort : SortedEntries es) (hlen : es.length < 2 ^ 31)
    (hsmall : ∀ e ∈ es, e.Small)
    (hsize : fmt = BlockBased → (fmt.content es timestamp fileNum).length < 2 ^ 63) :
    ∃ r, fmt.openTable fs path = .ok r ∧ Serves fs r es ∧
      r.metadata = ⟨fileNum, timestamp, firstKey es, lastKey es⟩ := by
  cases fmt with
  | InMemory =>
    refine ⟨_, ?_, .inMemory hne hsort hlen, rfl⟩
    simp only [openTable, InMemoryTableFormat.openTable, hfile, content,
      SSTableReader.readBuffer_encode hne hsort hsmall hlen]
    rfl
  | BlockBased =>
    have hsmall : ∀ e ∈ es, e.persisted.Small := fun e he => (hsmall e he).persisted
    have hil := BlockBasedTableFormat.length_indexOfTable_lt (by omega : es.length < 2 ^ 32)
    refine ⟨_, ?_, .blockBased hne hsort hsmall (hsize rfl) hfile, rfl⟩
    simp only [openTable, BlockBasedTableFormat.openTable, hfile, content]
    rw [BlockBasedTableReader.construct_encodeTable hne hsmall hil (hsize rfl)]
    rfl

end TableFormatKind

theorem BlockBasedTableFormat.eq_of_writeTable_ok {env : Env} {path : TablePath} {es : List Entry}
    {timestamp : TimestampType} {fileNum : FileNumber} {fs fs' : FileSystem} {r : TableReader}
    (h : writeTable env path es timestamp fileNum fs = (.ok r, fs')) :
    Encodable es ∧
      (BlockBasedTableReader.construct (encodeTable es timestamp fileNum) path).map .blockBased =
        .ok r ∧
      ∃ fs1, fs.Touches path.level path.name fs1 ∧
        fs1.file? path.level path.name = some (encodeTable es timestamp fileNum) ∧
        fs' = fs1.record (.tableCreated path (encodeTable es timestamp fileNum)) := by
  have hout : TableFormatKind.Outcome .BlockBased path es timestamp fileNum fs
      (writeTable env path es timestamp fileNum fs) :=
    TableFormatKind.BlockBased.writeTable_outcome env path es timestamp fileNum fs
  rw [h] at hout
  generalize hres : ((.ok r, fs') : Except Fault TableReader × FileSystem) = res at hout
  cases hout with
  | refused _ _ => cases hres
  | left _ _ _ _ => cases hres
  | @created fs1 content hencodes htouches hfile =>
    obtain ⟨henc, rfl⟩ := hencodes
    obtain ⟨hr, rfl⟩ := Prod.mk.inj hres
    exact ⟨henc, hr.symm, fs1, htouches, hfile, rfl⟩

end TinyKv
