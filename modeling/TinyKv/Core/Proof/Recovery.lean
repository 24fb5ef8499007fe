import TinyKv.Core.Proof.Replay
import TinyKv.Core.Proof.Restart

/-!
# A crash and a replay

`replayWal` of a new database on the directories that a crash has left. The new database has not
loaded its levels; the first flush of the replay does, in the order of the directory listing, and
from then on the replay is one over tables in level 0 (`Replaying`). A replay without entries
flushes nothing and loads nothing.

* `replay_new`: after the replay every key reads as the disk says (`Disk.read`), if the files are
  listed newest first and the log has a whole record; without one no key is found.
-/

namespace TinyKv

open Bytes

/-- The directories hold the disk, and list its tables newest first. -/
structure HoldsDisk (config : DbFactoryConfig) (env : Nat → Env) (d : Disk) (fs : FileSystem) :
    Prop where
  base : BaseOk config.maxLevels fs
  wal : fs.wal = d.wal
  tables : ∀ i, (listing (env i) fs).map Prod.snd = d.tables.map FileNode.regular

/-- The level directory with the tables, as loading it leaves it. -/
def tableDir (fs : FileSystem) : Dir := (fs.dir? (levelName 0)).getD SortedMap.empty

theorem mem_tableDir_iff {env : Env} {fs : FileSystem} {p : Bytes × FileNode} :
    p ∈ (tableDir fs).toList ↔ p ∈ listing env fs := by
  unfold tableDir listing
  cases hd : fs.dir? (levelName 0) with
  | none => exact Iff.rfl
  | some d => exact (env.order.perm d.toList).mem_iff.symm

/-! ## The levels load -/

section Loads

variable {config : DbFactoryConfig} {env : Nat → Env} {disk : Disk} {fs : FileSystem}
  {written : List (List Entry)}

theorem HoldsDisk.regular (h : HoldsDisk config env disk fs) :
    ∀ p ∈ (tableDir fs).toList, ∃ content ∈ disk.tables, p.2 = .regular content := by
  intro p hp
  have hmem : p.2 ∈ disk.tables.map FileNode.regular := by
    rw [← h.tables 0]
    exact List.mem_map_of_mem (mem_tableDir_iff.1 hp)
  obtain ⟨content, hc, he⟩ := List.mem_map.1 hmem
  exact ⟨content, hc, he.symm⟩

/-- Tables in the order of the disk, whichever environment lists them. -/
theorem HoldsDisk.load (h : HoldsDisk config env disk fs)
    (hw : ∀ content ∈ disk.tables, ∃ es, Written config.tableFormat content es)
    {sm : StorageManagerImpl} (hfmt : sm.m_tableFormat = config.tableFormat) (i : Nat) :
    ∃ readers tables, sm.Level0Loads (env i) fs readers ∧ ServesAll fs readers tables ∧
      List.Forall₂ (Written config.tableFormat) disk.tables tables := by
  have hall : ∀ p ∈ (tableDir fs).toList, ∃ content es, p.2 = .regular content ∧
      Written config.tableFormat content es := by
    intro p hp
    obtain ⟨content, hc, he⟩ := h.regular p hp
    obtain ⟨es, hes⟩ := hw content hc
    exact ⟨content, es, he, hes⟩
  obtain ⟨entries, timestamp, fileNum, htable⟩ := tables_by_name hall
  have hfile : ∀ p ∈ listing (env i) fs, LevelManagerImpl.TableFile config.tableFormat fs
      (levelName 0) p (entries p.1) (timestamp p.1) (fileNum p.1) := by
    intro p hp
    have hp' := mem_tableDir_iff.2 hp
    obtain ⟨hnode, hload⟩ := htable p hp'
    refine ⟨hnode, ?_, hload⟩
    unfold tableDir at hp'
    cases hd : fs.dir? (levelName 0) with
    | none =>
      rw [hd] at hp'
      cases hp'
    | some d =>
      rw [hd] at hp'
      exact FileSystem.file?_of_dir hd ((Keyed.lookup_eq_some d.sorted).2 ⟨hp', rfl⟩) hnode
  obtain ⟨readers, hrun, hserves, -⟩ := LevelManagerImpl.openTables_ok (sm.freshLevel 0) hfile
  refine ⟨readers, _, ?_, hserves, ?_⟩
  · unfold StorageManagerImpl.Level0Loads
    unfold listing at hrun
    cases hd : fs.dir? (levelName 0) with
    | none =>
      rw [hd] at hrun
      simp only [LevelManagerImpl.openTables, Prod.mk.injEq, true_and] at hrun
      have := congrArg LevelManagerImpl.m_tableReaders hrun
      exact (List.append_right_eq_self.1 this.symm)
    | some d =>
      rw [hd] at hrun
      rw [hfmt]
      exact hrun
  · -- the contents of the listing are those of the disk
    have hcontents : disk.tables =
        (listing (env i) fs).map fun p =>
          config.tableFormat.content (entries p.1) (timestamp p.1) (fileNum p.1) := by
      apply List.map_injective_iff.2 (fun a b hab => FileNode.regular.inj hab)
      rw [← h.tables i, List.map_map]
      exact List.map_congr_left fun p hp => (hfile p hp).node
    rw [hcontents, List.forall₂_map_left_iff, List.forall₂_map_right_iff, List.forall₂_same]
    exact fun p hp => ⟨_, _, rfl, (hfile p hp).loadable⟩

end Loads

/-! ## The replay -/

section Replay

variable {config : DbFactoryConfig} {env : Nat → Env} {disk : Disk} {fs₀ fs : FileSystem}
  {m : MemTableImpl StorageManagerImpl} {i n : Nat} {done : List Entry}

/-- After the entries `done`, none of which has been flushed. -/
structure Unloaded (config : DbFactoryConfig) (fs₀ : FileSystem) (m : MemTableImpl StorageManagerImpl)
    (fs : FileSystem) (done : List Entry) : Prop where
  capacity : m.m_size = config.memtableCapacity
  bounded : m.m_skiplist.size ≤ config.memtableCapacity.toInt.toNat
  loggable : ∀ e ∈ m.m_skiplist.toList, e.Loggable
  maxLevel : m.m_storageManager.m_maxLevel = config.maxLevels
  tableFormat : m.m_storageManager.m_tableFormat = config.tableFormat
  unloaded : m.m_storageManager.m_levelManagers = []
  base : fs.base = fs₀.base
  find : ∀ k, m.m_skiplist.find? k = lookup done.reverse k

/-- Before the first flush, or behind it. -/
def Recovering (config : DbFactoryConfig) (disk : Disk) (fs₀ : FileSystem) (env : Nat → Env)
    (m : MemTableImpl StorageManagerImpl) (fs : FileSystem) (i : Nat) (done : List Entry) : Prop :=
  Unloaded config fs₀ m fs done ∨
    ∃ tables₀, List.Forall₂ (Written config.tableFormat) disk.tables tables₀ ∧
      Replaying config.memtableCapacity tables₀ (tableDir fs₀) env m fs i done

/-- **The first flush** loads the levels. -/
theorem Unloaded.flush (h : Unloaded config fs₀ m fs done) (hdisk : HoldsDisk config env disk fs₀)
    (hw : ∀ content ∈ disk.tables, ∃ es, Written config.tableFormat content es)
    (hlev : 0 ≤ config.maxLevels) (hmax : config.maxLevels ≠ Int32.maxValue)
    (henv : (env i).NoFault) (hnames : NamesApart (tableDir fs₀) env n) (hi : i ≤ n)
    (hne : m.m_skiplist.toList ≠ []) :
    ∃ m' fs', m.flushToDisk (env i) fs = (.ok none, m', fs') ∧
      Recovering config disk fs₀ env m' fs' (i + 1) done ∧ m'.m_skiplist = SortedMap.empty := by
  have hdir : ∀ level, fs.dir? level = fs₀.dir? level := fun level => by
    rw [FileSystem.dir?, FileSystem.dir?, h.base]
  have hlist : ∀ j, listing (env j) fs = listing (env j) fs₀ := fun j => by
    rw [listing, listing, hdir]
  have hdisk' : HoldsDisk config env { disk with wal := fs.wal } fs :=
    ⟨hdisk.base.congr h.base, rfl, fun j => by rw [hlist, hdisk.tables j]⟩
  have htdir : tableDir fs = tableDir fs₀ := by rw [tableDir, tableDir, hdir]
  obtain ⟨readers, tables, hload, hserves, hwritten⟩ := hdisk'.load hw h.tableFormat i
  obtain ⟨sm', fs', hwrite, hsame, -, hfiles, hl⟩ := StorageManagerImpl.write_unloaded h.unloaded henv
    (h.maxLevel ▸ hdisk'.base) (h.maxLevel ▸ hlev) (h.maxLevel ▸ hmax)
    (fun d hd p hp => by
      have hp' : p ∈ (tableDir fs).toList := by
        rw [tableDir, hd]
        exact hp
      obtain ⟨content, -, he⟩ := hdisk'.regular p hp'
      rw [he]
      exact fun h => by cases h) hload m.m_skiplist.toList
  obtain ⟨rest, hmanagers, -, hrest⟩ := hl.managers
  -- with the levels loaded it is a flush over tables in level 0
  have hsame' : m.flushToDisk (env i) fs =
      ({ m with m_storageManager := sm' }.flushToDisk (env i) fs' :
        Except Fault (Option Error) × MemTableImpl StorageManagerImpl × FileSystem) := by
    have hloaded : StorageManager.write sm' (env i) m.m_skiplist.toList fs' =
        sm'.writeLevel0 (env i) m.m_skiplist.toList fs' := by
      show sm'.write (env i) m.m_skiplist.toList fs' = _
      rw [StorageManagerImpl.write, if_neg (by simp [hmanagers])]
    have hunloaded : StorageManager.write m.m_storageManager (env i) m.m_skiplist.toList fs =
        sm'.writeLevel0 (env i) m.m_skiplist.toList fs' := hwrite
    simp only [MemTableImpl.flushToDisk, hloaded, hunloaded]
  have hreplay : Replaying config.memtableCapacity tables (tableDir fs₀) env
      { m with m_storageManager := sm' } fs' i done := by
    refine ⟨h.capacity, h.bounded, h.loggable, readers, tables, _, ⟨⟨rest, hmanagers, hrest⟩, hl.dir⟩,
      hserves.mono hfiles.le, fun p hp => .inl ?_, fun k => by rw [h.find k]⟩
    rw [← htdir]
    exact hp
  obtain ⟨sm'', fs'', hrun, hreplay', -⟩ := hreplay.flush henv hnames hi hne
  exact ⟨_, fs'', hsame'.trans hrun, .inr ⟨tables, hwritten, hreplay'⟩, rfl⟩

theorem Unloaded.set (h : Unloaded config fs₀ m fs done) {e : Entry} (he : e.Loggable)
    (hroom : m.m_skiplist.size < config.memtableCapacity.toInt.toNat) :
    Unloaded config fs₀ { m with m_skiplist := m.m_skiplist.insert e } fs (done ++ [e]) := by
  refine ⟨h.capacity, ?_, loggable_insert h.loggable he, h.maxLevel, h.tableFormat, h.unloaded, h.base,
    fun k => ?_⟩
  · have := SortedMap.size_insert_le m.m_skiplist e
    dsimp only
    omega
  · rw [List.reverse_append, List.reverse_singleton, List.singleton_append, lookup,
      Keyed.lookup_cons]
    dsimp only
    rw [SortedMap.find?_insert]
    split
    · rfl
    · exact h.find k

/-- **A replay on a new database** keeps what it has read in front of the tables of the disk. -/
theorem replayInvariant_recovering (hdisk : HoldsDisk config env disk fs₀)
    (hw : ∀ content ∈ disk.tables, ∃ es, Written config.tableFormat content es)
    (hlev : 0 ≤ config.maxLevels) (hmax : config.maxLevels ≠ Int32.maxValue)
    (henv : ∀ i, (env i).NoFault) (hnames : NamesApart (tableDir fs₀) env n) :
    ReplayInvariant config.memtableCapacity env n (Recovering config disk fs₀ env) := by
  have R := fun tables₀ => @replayInvariant_replaying config.memtableCapacity tables₀ (tableDir fs₀) env
    henv n hnames
  refine ⟨?_, ?_, ?_, ?_, ?_, ?_⟩
  · rintro m fs i done (h | ⟨tables₀, -, h⟩)
    · exact h.capacity
    · exact h.capacity
  · rintro m fs i done (h | ⟨tables₀, -, h⟩)
    · exact h.bounded
    · exact h.bounded
  · rintro m fs i done (h | ⟨tables₀, hwritten, h⟩)
    · exact .inl h
    · exact .inr ⟨tables₀, hwritten, (R tables₀).skip h⟩
  · rintro m fs i done e (h | ⟨tables₀, hwritten, h⟩) he hroom
    · exact .inl (h.set he hroom)
    · exact .inr ⟨tables₀, hwritten, (R tables₀).set h he hroom⟩
  · rintro m fs i done (h | ⟨tables₀, hwritten, h⟩) hi hne
    · exact h.flush hdisk hw hlev hmax (henv i) hnames hi hne
    · obtain ⟨m', fs', hrun, h', hempty⟩ := (R tables₀).flush h hi hne
      exact ⟨m', fs', hrun, .inr ⟨tables₀, hwritten, h'⟩, hempty⟩
  · rintro m fs i done fs' (h | ⟨tables₀, hwritten, h⟩) hbase
    · exact .inl ⟨h.capacity, h.bounded, h.loggable, h.maxLevel, h.tableFormat, h.unloaded,
        hbase.trans h.base, h.find⟩
    · exact .inr ⟨tables₀, hwritten, (R tables₀).release h hbase⟩

theorem replayWal_nil (hentries : WAL.getEntries fs = some []) :
    (createDbWithConfig config).m_memTable.replayWal env fs =
      (.ok none, (createDbWithConfig config).m_memTable, (WAL.remove (env 0).removeFault fs).2) := by
  simp only [MemTableImpl.replayWal, hentries, MemTableImpl.replayEntries, MemTableImpl.finishReplay]
  rfl

theorem read_eq_firstEntry {entries : List Entry} {tables : List (List Entry)} (hwal : fs.wal = disk.wal)
    (hentries : WAL.getEntries fs = some entries)
    (hw : List.Forall₂ (Written config.tableFormat) disk.tables tables) (k : Bytes) :
    disk.read config.tableFormat k =
      some ((live ((lookup entries.reverse k).or (firstEntry tables k))).map Entry.val) := by
  have hlog : WAL.getEntries { FileSystem.empty with wal := disk.wal } = some entries := by
    rw [← hentries, WAL.getEntries_eq, WAL.getEntries_eq, hwal]
  rw [Disk.read, Disk.find, hlog]
  dsimp only
  cases lookup entries.reverse k with
  | some e => rfl
  | none =>
    obtain ⟨e, hread, he⟩ := Disk.readTables_eq hw k
    rw [hread, Option.none_or]
    exact congrArg some (Disk.value_congr he)

/-- What a replay on a new database comes to: nothing is found when the log has no record, and else
every key reads as the disk says. -/
theorem replay_new (hcap : 1 ≤ config.memtableCapacity) (hlev : 0 ≤ config.maxLevels)
    (hmax : config.maxLevels ≠ Int32.maxValue) (hdisk : HoldsDisk config env disk fs)
    (hw : ∀ content ∈ disk.tables, ∃ es, Written config.tableFormat content es)
    (henv : ∀ i, (env i).NoFault) {entries : List Entry}
    (hentries : WAL.getEntries fs = some entries)
    (hnames : NamesApart (tableDir fs) env entries.length) :
    ∃ m' fs', (createDbWithConfig config).m_memTable.replayWal env fs = (.ok none, m', fs') ∧
      m'.m_skiplist = SortedMap.empty ∧ m'.m_readOnly = false ∧ fs'.wal = none ∧
      (entries = [] → ∀ k, DbImpl.get ⟨m'⟩ fs' k = .ok (readResponse none)) ∧
      (entries ≠ [] → ∀ k v, disk.read config.tableFormat k = some v →
        DbImpl.get ⟨m'⟩ fs' k = .ok (readResponse v)) := by
  have hstart : Recovering config disk fs env
      { (createDbWithConfig config).m_memTable with m_readOnly := true } fs 0 [] :=
    .inl ⟨rfl, Nat.zero_le _, nofun, rfl, rfl, rfl, rfl, fun _ => rfl⟩
  obtain ⟨m', fs', hrun, h', hempty, hro, hwal⟩ :=
    (replayInvariant_recovering hdisk hw hlev hmax henv hnames).replay hcap (henv _) hentries rfl hstart
  refine ⟨m', fs', hrun, hempty, hro, hwal, fun hnil k => ?_, fun hne k v hv => ?_⟩
  · subst hnil
    rw [replayWal_nil hentries] at hrun
    cases hrun
    rfl
  · obtain h' | ⟨tables₀, hwritten, h'⟩ := h'
    · -- a log with a record leaves something to flush
      obtain ⟨e, rest, hrev⟩ := List.exists_cons_of_ne_nil (List.reverse_ne_nil_iff.2 hne)
      have hfind := h'.find e.key
      rw [hempty, hrev, lookup, Keyed.lookup_cons, if_pos rfl] at hfind
      cases hfind
    · obtain ⟨readers, tables, d, hl, hs, -, hfind⟩ := h'.storage
      have hk := hfind k
      rw [hempty, SortedMap.find?_empty, Option.none_or] at hk
      rw [get_of_empty hempty hl hs, hk]
      rw [read_eq_firstEntry hdisk.wal hentries hwritten, Option.some_inj] at hv
      rw [hv]

end Replay

/-! ## Every crash -/

theorem Disk.tables_suffix {p q : List Effect} (h : p <+: q) :
    (Disk.after p).tables <:+ (Disk.after q).tables := by
  obtain ⟨rest, rfl⟩ := h
  induction rest using List.reverseRecOn with
  | nil => rw [List.append_nil]
  | append_singleton rest e ih =>
    rw [← List.append_assoc, Disk.after_snoc]
    refine ih.trans ?_
    cases e with
    | tableCreated path content => exact List.suffix_cons _ _
    | nameDrawn name | walRemoved | walAppended bytes => exact List.suffix_refl _

theorem written_of_mem {fmt : TableFormatKind} {contents : List Bytes} {tables : List (List Entry)}
    (h : List.Forall₂ (Written fmt) contents tables) :
    ∀ content ∈ contents, ∃ es, Written fmt content es := by
  intro content hc
  obtain ⟨i, hi, rfl⟩ := List.getElem_of_mem hc
  exact ⟨_, h.get hi (h.length_eq ▸ hi)⟩

theorem written_of_crash {fmt : TableFormatKind} {before after p : List Effect}
    (h : CrashPoint before after p) {tables : List (List Entry)}
    (hw : List.Forall₂ (Written fmt) (Disk.after after).tables tables) :
    ∀ content ∈ (Disk.after p).tables, ∃ es, Written fmt content es := by
  have hall := written_of_mem hw
  intro content hc
  cases h with
  | between _ h' => exact hall content ((Disk.tables_suffix h').subset hc)
  | @torn p bytes n _ h' _ =>
    rw [Disk.after_snoc] at hc
    have hp : p <+: after := (List.prefix_append _ _).trans h'
    exact hall content ((Disk.tables_suffix hp).subset hc)

end TinyKv
