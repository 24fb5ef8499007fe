import TinyKv.Core.Proof.Disk
import TinyKv.Core.Proof.KeyValue

/-!
# Process lifetimes

A history of calls and restarts: a restart is `createDbWithConfig` on the directories that the last
lifetime left (`lifeStep`). A new database reads nothing back: its memtable is empty, the log is not
replayed, and the levels are loaded by its first flush, in the order of the directory listing. So an
acknowledged write is lost by a restart, and a flush can bring an overwritten value or a deleted key
back (`restart_loses_acked`).

`acked_survives_restarts`: every read in every lifetime is that of the last acknowledged write as
long as every key is deleted at a restart, and the first flush of a lifetime finds no table that
shows a key which is not in the memtable (`Survives`).

* `LifeStored`: the storage manager in any lifetime. `tables` is what it shows; the files of earlier
  lifetimes are there, but hidden (`lifeStored_spec`).
-/

namespace TinyKv

open Bytes

/-- A step of a history over several process lifetimes. -/
inductive LifeStep where
  | call (c : Call) (env : Env)
  | restart

/-- A call with its answer, or a new database on the directories that are there. -/
def lifeStep (config : DbFactoryConfig) (x : DbImpl StorageManagerImpl × FileSystem) :
    LifeStep → Option (Call × Option Response) × DbImpl StorageManagerImpl × FileSystem
  | .call c env => (some (c, (DbImpl.step x (c, env)).1.toOption), (DbImpl.step x (c, env)).2)
  | .restart => (none, createDbWithConfig config, x.2)

/-- The lifetimes from empty directories on. -/
def runLives (config : DbFactoryConfig) (steps : List LifeStep) :
    List (Option (Call × Option Response)) × DbImpl StorageManagerImpl × FileSystem :=
  Machine.run (lifeStep config) (createDbWithConfig config, FileSystem.empty) steps

/-- The calls of all lifetimes with their answers. -/
def lifeHistory (results : List (Option (Call × Option Response))) : List (Call × Option Response) :=
  results.filterMap id

/-! ## The condition -/

/-- The files of level 0 in the order in which they are listed. -/
def listing (env : Env) (fs : FileSystem) : List (Bytes × FileNode) :=
  match fs.dir? (levelName 0) with
  | none => []
  | some d => env.order.list d.toList

/-- What the first listed file that has `k` holds for it. -/
def listedEntry (fmt : TableFormatKind) (l : List (Bytes × FileNode)) (k : Bytes) : Option Entry :=
  l.findSome? fun
    | (_, .regular content) => (Disk.readTable fmt content k).toOption.join
    | (_, .other) => none

/-- Every listed file can be opened as a table. -/
def AllOpen (fmt : TableFormatKind) (fs : FileSystem) (l : List (Bytes × FileNode)) : Prop :=
  ∀ p ∈ l, ∀ content, p.2 = .regular content →
    ∃ r, fmt.openTable fs ⟨"", levelName 0, p.1⟩ = .ok r

/-- Loading the levels now would show no key that is not among `es`. -/
def LoadsHidden (fmt : TableFormatKind) (env : Env) (fs : FileSystem) (es : List Entry) : Prop :=
  AllOpen fmt fs (listing env fs) → ∀ k, lookup es k = none →
    live (listedEntry fmt (listing env fs) k) = none

/-- The step, after the history and in the state before it, loses and brings back nothing: at a
restart every key that was put has been deleted since, and a flush that loads the levels shows no
key that is not in the memtable. -/
def Survives (config : DbFactoryConfig) (history : List (Call × Option Response))
    (x : DbImpl StorageManagerImpl × FileSystem) : LifeStep → Prop
  | .restart => ∀ k, (lastAcked history k).getD none = none
  | .call c env => x.1.StartsFlush x.2 c →
      x.1.m_memTable.m_storageManager.m_levelManagers = [] →
      LoadsHidden config.tableFormat env x.2 x.1.m_memTable.m_skiplist.toList

/-! ## The files of earlier lifetimes -/

/-- A file of level 0: that of a table, or the empty one that a block-based flush of an empty
memtable leaves. -/
def FileOk (fmt : TableFormatKind) (p : Bytes × FileNode) : Prop :=
  (∃ content es, p.2 = .regular content ∧ Written fmt content es) ∨
    fmt = .BlockBased ∧ p.2 = .regular []

/-- The directories of the database. -/
structure FilesOk (config : DbFactoryConfig) (fs : FileSystem) : Prop where
  base : BaseOk config.maxLevels fs
  files : ∀ d, fs.dir? (levelName 0) = some d → ∀ p ∈ d.toList,
    FileOk config.tableFormat p ∧ p.1 ∈ drawnNames fs.effects

/-- The storage manager shows `tables`: nothing before the levels are loaded, and then what level 0
holds, up to entries that make no difference. -/
structure LifeStored (config : DbFactoryConfig) (sm : StorageManagerImpl) (fs : FileSystem)
    (tables : List (List Entry)) : Prop where
  maxLevel : sm.m_maxLevel = config.maxLevels
  tableFormat : sm.m_tableFormat = config.tableFormat
  files : FilesOk config fs
  levels : (sm.m_levelManagers = [] ∧ ∀ k, live (firstEntry tables k) = none) ∨
    (config.maxLevels ≠ Int32.maxValue ∧ ∃ readers d tables', sm.Loaded fs readers d ∧
      ServesAll fs readers tables' ∧
      ∀ k, live (firstEntry tables k) = live (firstEntry tables' k))

/-- The writes that keep this. -/
structure LifeCovers (config : DbFactoryConfig) (sm : StorageManagerImpl) (env : Env)
    (fs : FileSystem) (es : List Entry) : Prop where
  fits : Fits (sm.write env es fs).2.2.effects
  small : ∀ e ∈ es, e.Small
  hidden : sm.m_levelManagers = [] → LoadsHidden config.tableFormat env fs es

section Storage

variable {config : DbFactoryConfig} {sm : StorageManagerImpl} {env : Env} {fs fs' : FileSystem}
  {tables tables' : List (List Entry)} {es : List Entry} {readers : List TableReader} {d : Dir}

theorem LifeStored.get_eq (h : LifeStored config sm fs tables) (key : Bytes) :
    sm.get fs key = .ok (live (firstEntry tables key)) := by
  rcases h.levels with ⟨hnil, hdead⟩ | ⟨-, readers, d, tables', hl, hs, heq⟩
  · rw [StorageManagerImpl.get, hnil, hdead]
    rfl
  · rw [heq]
    exact StorageManagerImpl.get_eq hl hs key

theorem LifeStored.compact_eq (h : LifeStored config sm fs tables) : sm.compact = .ok none := by
  rcases h.levels with ⟨hnil, -⟩ | ⟨-, readers, d, tables', hl, -, -⟩
  · rw [StorageManagerImpl.compact, hnil]
    rfl
  · exact StorageManagerImpl.compact_eq hl

theorem FilesOk.congr (h : FilesOk config fs) (hb : fs'.base = fs.base)
    (he : drawnNames fs.effects ⊆ drawnNames fs'.effects) : FilesOk config fs' := by
  refine ⟨h.base.congr hb, fun d hd p hp => ?_⟩
  have hd' : fs.dir? (levelName 0) = some d := by
    rw [← hd, FileSystem.dir?, FileSystem.dir?, hb]
  exact ⟨(h.files d hd' p hp).1, he (h.files d hd' p hp).2⟩

theorem LifeStored.congr (h : LifeStored config sm fs tables) (hb : fs'.base = fs.base)
    (he : drawnNames fs.effects ⊆ drawnNames fs'.effects) : LifeStored config sm fs' tables := by
  refine ⟨h.maxLevel, h.tableFormat, h.files.congr hb he, h.levels.imp_right ?_⟩
  rintro ⟨hmax, readers, d, tables', hl, hs, heq⟩
  refine ⟨hmax, readers, d, tables', hl.congr hb, hs.mono fun l n c hc => ?_, heq⟩
  rw [← hc]
  simp only [FileSystem.file?, FileSystem.dir?, hb]

theorem live_firstEntry_cons (h : ∀ k, lookup es k = none →
      live (firstEntry tables k) = live (firstEntry tables' k)) (k : Bytes) :
    live (firstEntry (es :: tables) k) = live (firstEntry (es :: tables') k) := by
  rw [firstEntry_cons, firstEntry_cons]
  cases hl : lookup es k with
  | some e => rfl
  | none => exact h k hl

theorem FilesOk.grow (h : FilesOk config fs) (hdir : fs.dir? (levelName 0) = some d)
    (hbase : BaseOk config.maxLevels fs') {d' : Dir} (hdir' : fs'.dir? (levelName 0) = some d')
    {more : List Effect} (heff : fs'.effects = fs.effects ++ more)
    (hd' : ∀ p ∈ d'.toList,
      p ∈ d.toList ∨ FileOk config.tableFormat p ∧ p.1 ∈ drawnNames more) : FilesOk config fs' := by
  refine ⟨hbase, fun d'' hd'' p hp => ?_⟩
  rw [hdir', Option.some_inj] at hd''
  subst hd''
  rw [heff, drawnNames_append]
  rcases hd' p hp with hp | ⟨hok, hname⟩
  · exact ⟨(h.files d hdir p hp).1, List.mem_append_left _ (h.files d hdir p hp).2⟩
  · exact ⟨hok, List.mem_append_right _ hname⟩

theorem FilesOk.fresh (h : FilesOk config fs) (hdir : fs.dir? (levelName 0) = some d)
    (hn : generateSSTableFileName env ∉ drawnNames fs.effects) :
    d.find? (generateSSTableFileName env) = none := by
  apply Keyed.lookup_eq_none.2
  intro p hp he
  apply hn
  rw [← he]
  exact (h.files d hdir p hp).2

/-- What a write of `es` makes of the tables: one more in front, or an exception and the same. -/
def Wrote (config : DbFactoryConfig) (tables : List (List Entry)) (es : List Entry)
    (r : Except Fault (Option Error) × StorageManagerImpl × FileSystem) : Prop :=
  (r.1 = .ok none ∧ es ≠ [] ∧ LifeStored config r.2.1 r.2.2 (es :: tables)) ∨
    ((∃ f, r.1 = .error f) ∧ LifeStored config r.2.1 r.2.2 tables)

theorem writeLevel0_life_nil (hl : sm.Loaded fs readers d) (hs : ServesAll fs readers tables')
    (hfiles : FilesOk config fs) (hmaxL : sm.m_maxLevel = config.maxLevels)
    (hfmt : sm.m_tableFormat = config.tableFormat) (hmax : config.maxLevels ≠ Int32.maxValue)
    (henv : env.NoFault) (hfits : Fits (sm.writeLevel0 env [] fs).2.2.effects)
    (heq : ∀ k, live (firstEntry tables k) = live (firstEntry tables' k)) :
    Wrote config tables [] (sm.writeLevel0 env [] fs) := by
  obtain ⟨f, sm', fs', d', hrun, hsame, hl', heff, -, hd', hle⟩ :=
    StorageManagerImpl.writeLevel0_error hl henv fun hw : sm.m_tableFormat.Writable [] => hw.ne rfl
  rw [hrun] at hfits ⊢
  dsimp only at hfits
  rw [heff] at hfits
  have hbase' := hl'.base
  rw [hsame.maxLevel, hmaxL] at hbase'
  have hfiles' : FilesOk config fs' := by
    refine hfiles.grow hl.dir hbase' hl'.dir heff fun p hp => ?_
    rcases hd' p hp with hp | ⟨hname, hleft⟩
    · exact .inl hp
    · rw [hname]
      exact .inr ⟨.inr ⟨hfmt ▸ (hleft rfl).1, (hleft rfl).2⟩, List.mem_cons_self⟩
  have hs' := hs.mono (hle (hfiles.fresh hl.dir hfits.fresh))
  exact .inr ⟨⟨f, rfl⟩, hsame.maxLevel.trans hmaxL, hsame.tableFormat.trans hfmt, hfiles',
    .inr ⟨hmax, readers, d', tables', hl', hs', heq⟩⟩

/-- **A write with the levels loaded.** -/
theorem writeLevel0_life (hl : sm.Loaded fs readers d) (hs : ServesAll fs readers tables')
    (hfiles : FilesOk config fs) (hmaxL : sm.m_maxLevel = config.maxLevels)
    (hfmt : sm.m_tableFormat = config.tableFormat) (hmax : config.maxLevels ≠ Int32.maxValue)
    (henv : env.NoFault) (hsort : SortedEntries es) (hlen : es.length < 2 ^ 31)
    (hsmall : ∀ e ∈ es, e.Small) (hfits : Fits (sm.writeLevel0 env es fs).2.2.effects)
    (heq : ∀ k, lookup es k = none → live (firstEntry tables k) = live (firstEntry tables' k)) :
    Wrote config tables es (sm.writeLevel0 env es fs) := by
  by_cases hne : es = []
  · subst hne
    exact writeLevel0_life_nil hl hs hfiles hmaxL hfmt hmax henv hfits fun k => heq k rfl
  have hw : sm.m_tableFormat.Writable es := TableFormatKind.writable_of_small hne hsmall
  rw [StorageManagerImpl.writeLevel0_snd hl henv hw hsort hlen,
    StorageManagerImpl.written_effects] at hfits
  have hsize : (sm.newContent env es).length < 2 ^ 63 := by
    apply hfits.sizes
    rw [tableContents_append]
    exact List.mem_append_right _ List.mem_cons_self
  obtain ⟨r, sm', hrun, hsame, hserves, -, hl'⟩ :=
    StorageManagerImpl.writeLevel0_ok hl henv hw hsort hlen fun _ => hsize
  rw [hrun]
  have hbase' := hl'.base
  rw [hsame.maxLevel, hmaxL] at hbase'
  have hwritten : Written config.tableFormat (sm.newContent env es) es := by
    rw [StorageManagerImpl.newContent, hfmt] at hsize ⊢
    exact ⟨env.now, sm.m_systemContext.counter, rfl, hne, hsort, hlen, hsmall, fun _ => hsize⟩
  have hfiles' : FilesOk config (sm.written env es d fs) := by
    refine hfiles.grow hl.dir hbase' hl'.dir (StorageManagerImpl.written_effects ..) fun p hp => ?_
    rcases SortedMap.mem_insert hp with rfl | hp
    · exact .inr ⟨.inl ⟨_, es, rfl, hwritten⟩, List.mem_cons_self⟩
    · exact .inl hp
  have hs' : ServesAll (sm.written env es d fs) readers tables' :=
    hs.mono (StorageManagerImpl.le_written hl.dir (hfiles.fresh hl.dir hfits.fresh))
  exact .inl ⟨rfl, hne, hsame.maxLevel.trans hmaxL, hsame.tableFormat.trans hfmt, hfiles',
    .inr ⟨hmax, r :: readers, _, es :: tables', hl', .cons hserves hs', live_firstEntry_cons heq⟩⟩

/-! ## Loading the levels -/

theorem construct_nil (path : TablePath) :
    ∃ f, BlockBasedTableReader.construct [] path = .error f := ⟨_, rfl⟩

/-- The first listed table with `k`, read from the files or as the tables that they are. -/
theorem listedEntry_eq {fmt : TableFormatKind} {l : List (Bytes × FileNode)}
    {entries : Bytes → List Entry}
    (h : ∀ p ∈ l, ∃ content, p.2 = .regular content ∧ Written fmt content (entries p.1))
    (k : Bytes) : (listedEntry fmt l k).map Entry.persisted =
      (firstEntry (l.map fun p => entries p.1) k).map Entry.persisted := by
  induction l with
  | nil => rfl
  | cons p l ih =>
    have ih := ih fun q hq => h q (List.mem_cons_of_mem _ hq)
    obtain ⟨name, node⟩ := p
    obtain ⟨content, hc, hw⟩ := h (name, node) List.mem_cons_self
    obtain rfl : node = .regular content := hc
    obtain ⟨e, hread, he⟩ := Disk.readTable_eq hw k
    rw [List.map_cons, firstEntry_cons, listedEntry, List.findSome?_cons]
    simp only [hread, Except.toOption, Option.join_some]
    cases hl : lookup (entries name) k with
    | none =>
      rw [hl, Option.map_none, Option.map_eq_none_iff] at he
      subst he
      exact ih
    | some x =>
      rw [hl, Option.map_some, Option.map_eq_some_iff] at he
      obtain ⟨e, rfl, he⟩ := he
      rw [Option.some_or, Option.map_some, Option.map_some, he]

theorem tables_by_name {fmt : TableFormatKind} (hall : ∀ p ∈ d.toList, ∃ content es,
      p.2 = .regular content ∧ Written fmt content es) :
    ∃ (entries : Bytes → List Entry) (timestamp : Bytes → TimestampType)
      (fileNum : Bytes → FileNumber), ∀ p ∈ d.toList,
      p.2 = .regular (fmt.content (entries p.1) (timestamp p.1) (fileNum p.1)) ∧
        LevelManagerImpl.Loadable fmt (entries p.1) (timestamp p.1) (fileNum p.1) := by
  have hname : ∀ name, ∃ (es : List Entry) (timestamp : TimestampType) (fileNum : FileNumber),
      ∀ p ∈ d.toList, p.1 = name → p.2 = .regular (fmt.content es timestamp fileNum) ∧
        LevelManagerImpl.Loadable fmt es timestamp fileNum := by
    intro name
    cases hf : d.find? name with
    | none => exact ⟨[], 0, 0, fun p hp hn => absurd hn (Keyed.lookup_eq_none.1 hf p hp)⟩
    | some q =>
      obtain ⟨content, es, hc, timestamp, fileNum, rfl, hload⟩ := hall q (Keyed.mem_of_lookup hf)
      refine ⟨es, timestamp, fileNum, fun p hp hn => ?_⟩
      have : d.find? name = some p := (Keyed.lookup_eq_some d.sorted).2 ⟨hp, hn⟩
      rw [hf, Option.some_inj] at this
      rw [← this]
      exact ⟨hc, hload⟩
  choose entries timestamp fileNum htable using hname
  exact ⟨entries, timestamp, fileNum, fun p hp => htable p.1 p hp rfl⟩

theorem load_tables (hfmt : sm.m_tableFormat = config.tableFormat)
    (hdir : fs.dir? (levelName 0) = some d)
    (hall : ∀ p ∈ d.toList, ∃ content es, p.2 = .regular content ∧
      Written config.tableFormat content es) :
    AllOpen config.tableFormat fs (listing env fs) ∧
    ∃ readers listed, sm.Level0Loads env fs readers ∧ ServesAll fs readers listed ∧
      ∀ k, live (listedEntry config.tableFormat (listing env fs) k) = none →
        live (firstEntry listed k) = none := by
  have hlist : listing env fs = env.order.list d.toList := by rw [listing, hdir]
  have hperm := env.order.perm d.toList
  obtain ⟨entries, timestamp, fileNum, htable⟩ := tables_by_name hall
  have hfile : ∀ p ∈ env.order.list d.toList, LevelManagerImpl.TableFile config.tableFormat fs
      (levelName 0) p (entries p.1) (timestamp p.1) (fileNum p.1) := by
    intro p hp
    obtain ⟨hnode, hload⟩ := htable p (hperm.subset hp)
    exact ⟨hnode, FileSystem.file?_of_dir hdir
      ((Keyed.lookup_eq_some d.sorted).2 ⟨hperm.subset hp, rfl⟩) hnode, hload⟩
  obtain ⟨readers, hrun, hserves, -⟩ :=
    LevelManagerImpl.openTables_ok (sm.freshLevel 0) hfile
  refine ⟨?_, readers, _, ?_, hserves, fun k hk => ?_⟩
  · rw [hlist]
    intro p hp content hc
    obtain ⟨-, hf, hload⟩ := hfile p hp
    obtain ⟨r, hopen, -⟩ := @TableFormatKind.openTable_ok _ ⟨"", levelName 0, p.1⟩ _ _ _ _ hf
      hload.ne hload.sorted hload.length hload.small hload.size
    exact ⟨r, hopen⟩
  · rw [StorageManagerImpl.Level0Loads, hdir, hfmt]
    exact hrun
  · rw [hlist] at hk
    have heq := @listedEntry_eq config.tableFormat (env.order.list d.toList) entries (fun p hp =>
      ⟨_, (hfile p hp).node, timestamp p.1, fileNum p.1, rfl, (hfile p hp).loadable⟩) k
    have hval := Disk.value_congr heq
    rw [hk, Option.map_none, eq_comm, Option.map_eq_none_iff] at hval
    exact hval

theorem load_leftover (hfmt : sm.m_tableFormat = config.tableFormat)
    (hdir : fs.dir? (levelName 0) = some d)
    (hleft : ∃ p ∈ d.toList, config.tableFormat = .BlockBased ∧ p.2 = .regular []) :
    ∃ f lm, (sm.freshLevel 0).openTables sm.m_tableFormat fs (env.order.list d.toList) =
      (.error f, lm) := by
  obtain ⟨p, hp, hbb, hnode⟩ := hleft
  refine LevelManagerImpl.openTables_error _
    ⟨p, (env.order.perm _).symm.subset hp, ⟨[], hnode⟩, ?_⟩
  have hfile := FileSystem.file?_of_dir hdir ((Keyed.lookup_eq_some d.sorted).2 ⟨hp, rfl⟩) hnode
  obtain ⟨f, hf⟩ := construct_nil ((sm.freshLevel 0).pathOf p.1)
  have hfile' : fs.file? ((sm.freshLevel 0).pathOf p.1).level ((sm.freshLevel 0).pathOf p.1).name =
      some [] := hfile
  refine ⟨f, ?_⟩
  rw [hfmt, hbb]
  simp only [TableFormatKind.openTable, BlockBasedTableFormat.openTable, hfile', hf]
  rfl

theorem FileOk.regular {fmt : TableFormatKind} {p : Bytes × FileNode} (h : FileOk fmt p) :
    p.2 ≠ .other := by
  rcases h with ⟨content, es, hc, -⟩ | ⟨-, hc⟩ <;> rw [hc] <;> nofun

/-- **The first write of a lifetime** loads the levels, if they load. -/
theorem write_first (h : LifeStored config sm fs tables) (hnil : sm.m_levelManagers = [])
    (hdead : ∀ k, live (firstEntry tables k) = none) (hcov : LifeCovers config sm env fs es)
    (h0 : 0 ≤ config.maxLevels) (hmax : config.maxLevels ≠ Int32.maxValue) (henv : env.NoFault)
    (hsort : SortedEntries es) (hlen : es.length < 2 ^ 31) (hload : sm.Level0Loads env fs readers)
    (hs : ServesAll fs readers tables')
    (hhid : ∀ k, lookup es k = none → live (firstEntry tables' k) = none) :
    Wrote config tables es (sm.write env es fs) := by
  have hbase := h.files.base
  rw [← h.maxLevel] at hbase h0 hmax
  obtain ⟨sm1, fs1, hrun, hsame, -, hfiles, hl⟩ := StorageManagerImpl.write_unloaded hnil henv hbase
    h0 hmax (fun d hd p hp => (h.files.files d hd p hp).1.regular) hload es
  have hfits := hcov.fits
  rw [hrun] at hfits ⊢
  have hmaxL : sm1.m_maxLevel = config.maxLevels := hsame.maxLevel.trans h.maxLevel
  have hfiles1 : FilesOk config fs1 := by
    refine ⟨hmaxL ▸ hl.base, fun d' hd' p hp => ?_⟩
    rw [hl.dir, Option.some_inj] at hd'
    subst hd'
    rw [hfiles.effects]
    cases hd : fs.dir? (levelName 0) with
    | none =>
      rw [hd] at hp
      cases hp
    | some d =>
      rw [hd] at hp
      exact h.files.files d hd p hp
  exact writeLevel0_life hl (hs.mono hfiles.le) hfiles1 hmaxL (hsame.tableFormat.trans h.tableFormat)
    (h.maxLevel ▸ hmax) henv hsort hlen hcov.small hfits fun k hk => by rw [hdead, hhid k hk]

/-- **A write in any lifetime.** -/
theorem write_life (h0 : 0 ≤ config.maxLevels) (h : LifeStored config sm fs tables)
    (hcov : LifeCovers config sm env fs es) (henv : env.NoFault) (hsort : SortedEntries es)
    (hlen : es.length < 2 ^ 31) :
    Wrote config tables es (sm.write env es fs) := by
  rcases h.levels with ⟨hnil, hdead⟩ | ⟨hmax, readers, d, tables', hl, hs, heq⟩
  · have hbase := h.files.base
    rw [← h.maxLevel] at hbase
    -- a load that throws leaves the levels as they are
    have hthrow : ∀ f, sm.initLevels env fs = (.error f, { sm with m_levelManagers := [] }, fs) →
        Wrote config tables es (sm.write env es fs) := by
      intro f hinit
      rw [StorageManagerImpl.write, if_pos (by simp [hnil]), hinit]
      exact .inr ⟨⟨f, rfl⟩, h.maxLevel, h.tableFormat, h.files, .inl ⟨rfl, hdead⟩⟩
    by_cases hmax : config.maxLevels = Int32.maxValue
    · exact hthrow _ (StorageManagerImpl.initLevels_overflow henv hbase (h.maxLevel.trans hmax))
    · cases hdir : fs.dir? (levelName 0) with
      | none =>
        have hload : sm.Level0Loads env fs [] := by
          rw [StorageManagerImpl.Level0Loads, hdir]
        exact write_first h hnil hdead hcov h0 hmax henv hsort hlen hload .nil fun _ _ => rfl
      | some d =>
        by_cases hall : ∀ p ∈ d.toList, ∃ content es, p.2 = .regular content ∧
            Written config.tableFormat content es
        · obtain ⟨hopen, readers, listed, hload, hs, hhid⟩ :=
            @load_tables config sm env fs d h.tableFormat hdir hall
          exact write_first h hnil hdead hcov h0 hmax henv hsort hlen hload hs fun k hk =>
            hhid k (hcov.hidden hnil hopen k hk)
        · push Not at hall
          obtain ⟨p, hp, hnot⟩ := hall
          have hleft : config.tableFormat = .BlockBased ∧ p.2 = .regular [] := by
            rcases (h.files.files d hdir p hp).1 with ⟨content, es, hc, hw⟩ | hleft
            · exact absurd hw (hnot content es hc)
            · exact hleft
          obtain ⟨f, lm, hfail⟩ := @load_leftover config sm env fs d h.tableFormat hdir ⟨p, hp, hleft⟩
          exact hthrow f (StorageManagerImpl.initLevels_error henv hbase (h.maxLevel ▸ h0)
            (h.maxLevel ▸ hmax) hdir hfail)
  · have hfits := hcov.fits
    rw [StorageManagerImpl.write_loaded hl] at hfits ⊢
    exact writeLevel0_life hl hs h.files h.maxLevel h.tableFormat hmax henv hsort hlen hcov.small
      hfits fun k _ => heq k

theorem lifeStored_spec (h0 : 0 ≤ config.maxLevels) :
    StorageSpec (LifeStored config) (LifeCovers config) where
  get_eq h key := h.get_eq key
  compact_eq h := h.compact_eq
  congr h _ hb he := h.congr hb he
  write h hcov henv hsort hlen := ⟨_, _, _, rfl, write_life h0 h hcov henv hsort hlen⟩

end Storage

/-! ## Lifetimes -/

/-- What the lifetimes so far have made of the database and its directories. -/
structure LifeRep (config : DbFactoryConfig) (x : DbImpl StorageManagerImpl × FileSystem)
    (history : List (Call × Option Response)) (s : Lsm) : Prop where
  rep : Rep config (LifeStored config) x.1.m_memTable x.2 s
  reads : ∀ k, s.read k = (lastAcked history k).getD none
  small : ∀ e ∈ s.mem.toList, e.Small

section Lives

variable {config : DbFactoryConfig} {x : DbImpl StorageManagerImpl × FileSystem}
  {history : List (Call × Option Response)} {s : Lsm}

theorem LifeRep.start : LifeRep config (createDbWithConfig config, FileSystem.empty) [] {} :=
  ⟨⟨rfl, rfl, rfl, Nat.zero_le _, rfl, rfl, ⟨BaseOk.empty _, nofun⟩, .inl ⟨rfl, fun _ => rfl⟩⟩,
    fun _ => rfl, nofun⟩

/-- **A restart** when every key is deleted. -/
theorem LifeRep.restart (h : LifeRep config x history s)
    (hs : Survives config history x .restart) :
    LifeRep config (createDbWithConfig config, x.2) history {} :=
  ⟨⟨rfl, rfl, rfl, Nat.zero_le _, rfl, rfl, h.rep.stored.files, .inl ⟨rfl, fun _ => rfl⟩⟩,
    fun k => (hs k).symm, nofun⟩

/-- **A call** that shows no hidden table. -/
theorem LifeRep.call (h0 : 0 ≤ config.maxLevels) (hcap : 0 ≤ config.memtableCapacity)
    (h : LifeRep config x history s) {c : Call} {env : Env} (hs : Survives config history x (.call c env))
    (henv : env.NoFault) (hc : c.Small) (hfits : Fits (DbImpl.step x (c, env)).2.2.effects) :
    ∃ s', LifeRep config (DbImpl.step x (c, env)).2
      (history ++ [(c, (DbImpl.step x (c, env)).1.toOption)]) s' := by
  have hstarts := startsFlush_iff (lifeStored_spec h0) h.rep hcap c
  have hcov : s.StartsFlush (capacityOf config) c →
      LifeCovers config x.1.m_memTable.m_storageManager env x.2 s.mem.toList := by
    intro hfl
    have hfl := hstarts.2 hfl
    refine ⟨?_, h.small, fun hnil => ?_⟩
    · rw [← h.rep.skiplist]
      exact hfits.earlier (write_effects_step (c := (c, env)) hfl)
    · rw [← h.rep.skiplist]
      exact hs hfl hnil
  obtain ⟨hres, hrep⟩ := step_refines (c := (c, env)) (lifeStored_spec h0) hcap h.rep henv hcov
  refine ⟨_, hrep, fun k => ?_, fun e he => ?_⟩
  · rw [Lsm.read_step, lastAcked_snoc, h.reads k, hres]
    cases acked k (c, _) <;> rfl
  · rcases Lsm.mem_step he with hw | hm
    · exact hc.entry hw
    · exact h.small e hm

theorem lifeStep_effects (config : DbFactoryConfig) (x : DbImpl StorageManagerImpl × FileSystem)
    (step : LifeStep) :
    x.2.effects <+: (lifeStep config x step).2.2.effects := by
  cases step with
  | call c env => exact DbImpl.step_effects x (c, env)
  | restart => exact List.prefix_refl _

/-- **Every reached state** of a run whose steps all survive. -/
theorem lifeRep_run (hlev : 0 ≤ config.maxLevels) (hcap : 0 ≤ config.memtableCapacity)
    {steps : List LifeStep} (hsteps : ∀ c env, .call c env ∈ steps → c.Small ∧ env.NoFault)
    (hfits : Fits (runLives config steps).2.2.effects)
    (hsurv : ∀ n step, steps[n]? = some step →
      Survives config (lifeHistory (runLives config (steps.take n)).1)
        (runLives config (steps.take n)).2 step)
    (n : Nat) : ∃ s, LifeRep config (runLives config (steps.take n)).2
      (lifeHistory (runLives config (steps.take n)).1) s := by
  refine Machine.run_take_induction (P := fun x => ∃ s, LifeRep config x.2 (lifeHistory x.1) s)
    ⟨_, LifeRep.start⟩ (fun n step hn ⟨s, h⟩ => ?_) n
  have hgrow := Machine.run_take_rel
    (R := fun (x y : DbImpl StorageManagerImpl × FileSystem) => x.2.effects <+: y.2.effects)
    (fun _ => List.prefix_refl _) List.IsPrefix.trans (lifeStep_effects config)
    (createDbWithConfig config, FileSystem.empty) steps (n + 1)
  have hs := hsurv n step hn
  have hfits := hfits.earlier hgrow
  rw [Machine.run_take_succ hn] at hfits ⊢
  rw [lifeHistory, List.filterMap_append]
  cases step with
  | restart =>
    rw [List.filterMap_cons_none rfl, List.filterMap_nil, List.append_nil]
    exact ⟨_, h.restart hs⟩
  | call c env =>
    obtain ⟨hc, henv⟩ := hsteps c env (List.mem_of_getElem? hn)
    exact h.call hlev hcap hs henv hc hfits

end Lives

/-- **Acknowledged writes survive** every history of lifetimes in which every key is deleted at a
restart and the first flush of a lifetime shows no key that is not in the memtable: each `get`, in each
state reached, returns the last acknowledged write. -/
theorem acked_survives_restarts {config : DbFactoryConfig} (hcap : 1 ≤ config.memtableCapacity)
    (hlev : 0 ≤ config.maxLevels) {steps : List LifeStep}
    (hsteps : ∀ c env, .call c env ∈ steps → c.Small ∧ env.NoFault)
    (hfits : Fits (runLives config steps).2.2.effects)
    (hsurv : ∀ n step, steps[n]? = some step →
      Survives config (lifeHistory (runLives config (steps.take n)).1)
        (runLives config (steps.take n)).2 step)
    (n : Nat) (k : Bytes) :
    (runLives config (steps.take n)).2.1.get (runLives config (steps.take n)).2.2 k =
      .ok (match lastAcked (lifeHistory (runLives config (steps.take n)).1) k with
        | some (some v) => ⟨true, "OK", some v⟩
        | _ => ⟨false, "Key does not exist", none⟩) := by
  obtain ⟨s, h⟩ := lifeRep_run hlev (zero_le_of_one_le hcap) hsteps hfits hsurv n
  refine (get_refines (lifeStored_spec hlev) h.rep k).trans ?_
  rw [h.reads k]
  generalize lastAcked _ k = last
  cases last with
  | none => rfl
  | some v => cases v <;> rfl

/-- Two lifetimes: the first deletes what it has put, and leaves a table with the tombstone; the
flush of the second loads it. -/
def sampleLives : List LifeStep :=
  [.call (.put "a" "1") {}, .call (.del "a") {}, .call .forceFlushForTests {}, .restart,
    .call (.put "b" "2") {}, .call .forceFlushForTests { nameCounter := 1 }]

/-- The table that the first lifetime leaves. -/
def sampleTombstones : List Entry := [⟨"a", "val", true⟩]

theorem listing_sampleLives :
    listing { nameCounter := 1 } (runLives {} (sampleLives.take 5)).2.2 =
      [(generateSSTableFileName {}, .regular (TableFormatKind.InMemory.content sampleTombstones 0 0))] := by
  decide +kernel

theorem sampleTombstones_dead (k : Bytes) : live (firstEntry [sampleTombstones] k) = none := by
  by_cases hk : ofString "a" = k
  · subst hk
    rfl
  · rw [firstEntry_cons, sampleTombstones, lookup, Keyed.lookup_cons, if_neg hk]
    rfl

theorem sampleLives_survives (n : Nat) (step : LifeStep) (hn : sampleLives[n]? = some step) :
    Survives {} (lifeHistory (runLives {} (sampleLives.take n)).1)
      (runLives {} (sampleLives.take n)).2 step := by
  have hlt : n < 6 := (List.getElem?_eq_some_iff.1 hn).1
  obtain rfl | rfl | rfl | rfl | rfl | rfl : n = 0 ∨ n = 1 ∨ n = 2 ∨ n = 3 ∨ n = 4 ∨ n = 5 := by
    omega
  · cases hn
    exact fun hfl => absurd hfl.2 (by decide +kernel)
  · cases hn
    exact fun hfl => absurd hfl.2.2 (by decide +kernel)
  · cases hn
    intro _ _ _ k _
    have hl : listing {} (runLives {} (sampleLives.take 2)).2.2 = [] := by decide +kernel
    rw [hl]
    rfl
  · cases hn
    intro k
    have hist : lifeHistory (runLives {} (sampleLives.take 3)).1 =
        [(.put "a" "1", some ⟨true, "OK", none⟩), (.del "a", some ⟨true, "OK", none⟩),
          (.forceFlushForTests, some ⟨true, "OK", none⟩)] := by
      decide +kernel
    rw [hist]
    by_cases hk : ofString "a" = k
    · subst hk
      rfl
    · simp [List.findSome?_cons, acked, hk, lastAcked]
  · cases hn
    exact fun hfl => absurd hfl.2 (by decide +kernel)
  · cases hn
    intro _ _ _ k _
    -- the only table has the tombstone of `a`, and nothing else
    have hw : Written .InMemory (TableFormatKind.InMemory.content sampleTombstones 0 0)
        sampleTombstones :=
      ⟨0, 0, rfl, by decide, by decide, by decide, by decide, fun hbb => by cases hbb⟩
    rw [listing_sampleLives]
    have heq := @listedEntry_eq .InMemory [(generateSSTableFileName {}, .regular
      (TableFormatKind.InMemory.content sampleTombstones 0 0))] (fun _ => sampleTombstones)
      (fun p hp => ⟨_, by rw [List.mem_singleton.1 hp], hw⟩) k
    have hval := Disk.value_congr heq
    rwa [List.map_singleton, sampleTombstones_dead, Option.map_none, Option.map_eq_none_iff] at hval

theorem acked_survives_restarts_sample :
    (runLives {} sampleLives).2.1.get (runLives {} sampleLives).2.2 "a" =
        .ok ⟨false, "Key does not exist", none⟩ ∧
      (runLives {} sampleLives).2.1.get (runLives {} sampleLives).2.2 "b" =
        .ok ⟨true, "OK", some "2"⟩ := by
  have hsteps : ∀ c env, LifeStep.call c env ∈ sampleLives → c.Small ∧ env.NoFault := by
    intro c env hc
    simp only [sampleLives, List.mem_cons, List.not_mem_nil, or_false, LifeStep.call.injEq] at hc
    rcases hc with ⟨rfl, rfl⟩ | ⟨rfl, rfl⟩ | ⟨rfl, rfl⟩ | hc | ⟨rfl, rfl⟩ | ⟨rfl, rfl⟩
    · exact ⟨by decide, fun _ => rfl, rfl, rfl⟩
    · exact ⟨by decide, fun _ => rfl, rfl, rfl⟩
    · exact ⟨by decide, fun _ => rfl, rfl, rfl⟩
    · cases hc
    · exact ⟨by decide, fun _ => rfl, rfl, rfl⟩
    · exact ⟨by decide, fun _ => rfl, rfl, rfl⟩
  have h := fun k => @acked_survives_restarts {} (by decide) (by decide) sampleLives hsteps
    ⟨by decide +kernel, by decide +kernel⟩ sampleLives_survives 6 k
  rw [show sampleLives.take 6 = sampleLives from rfl] at h
  have ha : lastAcked (lifeHistory (runLives {} sampleLives).1) "a" = some none := by decide +kernel
  have hb : lastAcked (lifeHistory (runLives {} sampleLives).1) "b" = some (some (ofString "2")) := by
    decide +kernel
  exact ⟨by rw [h, ha], by rw [h, hb]⟩

/-- **A restart loses an acknowledged write.** -/
theorem restart_loses_acked :
    let x := runLives {} [.call (.put "a" "1") {}, .restart]
    lastAcked (lifeHistory x.1) "a" = some (some (ofString "1")) ∧
      x.2.1.get x.2.2 "a" = .ok ⟨false, "Key does not exist", none⟩ := by
  decide +kernel

end TinyKv
