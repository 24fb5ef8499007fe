import TinyKv.Core.Proof.KeyValue
import TinyKv.Core.Proof.LevelLoading
import TinyKv.Table.Proof.Truncated

/-!
# A file that is no table

`initLevels` opens every file of level 0. One that is refused (a table of the other format, say, or
one cut short) ends it before there is a manager, for whatever listing order, and the next flush
begins again. So no flush of the process succeeds, and over whole runs, whichever appends to the log
fail (`unreadable_blocks`):

* the files of the levels stay as they are;
* the memtable keeps what it has taken, and reads are answered from it alone.

Without a manager and without an exception `write` would go on to a manager that is not there. So the
files must be such that the reader throws where it does not open them, and the base directory must
not fail.
-/

namespace TinyKv

open Bytes

/-- Level 0 has a file that the database refuses as a table. A reader of its files stays inside them,
and `initLevels` reserves room for some managers or throws. -/
structure Unreadable (config : DbFactoryConfig) (fs : FileSystem) : Prop where
  refused : ∃ d, fs.dir? (levelName 0) = some d ∧
    ∃ name content, (name, FileNode.regular content) ∈ d.toList ∧
      ∃ f, config.tableFormat.openTable fs ⟨config.sstableDirectory, levelName 0, name⟩ = .error f
  inBounds : ∀ name content, fs.file? (levelName 0) name = some content →
    config.tableFormat.InBounds content
  maxLevels : config.maxLevels ≠ -1 ∧ config.maxLevels ≠ Int32.maxValue

/-- The storage manager of a new database. -/
abbrev newStorage (config : DbFactoryConfig) : StorageManagerImpl :=
  (createDbWithConfig config).m_memTable.m_storageManager

variable {config : DbFactoryConfig} {fs fs' : FileSystem}

theorem file?_of_base (hbase : fs'.base = fs.base) (level name : Bytes) :
    fs'.file? level name = fs.file? level name := by
  simp only [FileSystem.file?, FileSystem.dir?, hbase]

theorem Unreadable.congr (h : Unreadable config fs) (hbase : fs'.base = fs.base) :
    Unreadable config fs' := by
  obtain ⟨⟨d, hd, name, content, hmem, f, hopen⟩, hin, hmax⟩ := h
  refine ⟨⟨d, by rwa [FileSystem.dir?, hbase], name, content, hmem, f, ?_⟩, ?_, hmax⟩
  · exact (openTable_of_file_eq (file?_of_base hbase ..) _).trans hopen
  · intro name' content' hfile
    rw [file?_of_base hbase] at hfile
    exact hin name' content' hfile

/-! ## Loading -/

theorem zero_mem_discoverLevels {m_maxLevel : Int32} (hmax : 0 ≤ m_maxLevel.toInt)
    {l : List (Bytes × BaseNode)} {d : Dir} (hmem : (levelName 0, BaseNode.directory d) ∈ l)
    {discovered : List Nat}
    (h : StorageManagerImpl.discoverLevels m_maxLevel l = .ok discovered) : 0 ∈ discovered := by
  induction l generalizing discovered with
  | nil => cases hmem
  | cons p l ih =>
    obtain ⟨folderName, node⟩ := p
    cases node with
    | other =>
      rcases List.mem_cons.1 hmem with heq | hmem
      · cases heq
      · exact ih hmem h
    | directory d' =>
      rcases List.mem_cons.1 hmem with heq | hmem
      · cases heq
        simp only [StorageManagerImpl.discoverLevels, matchLevel_levelName,
          stoi_decimal (by decide : 0 < 2 ^ 31)] at h
        split at h
        · cases h
        · cases h
          rw [if_neg (by omega)]
          exact List.mem_cons_self
      · simp only [StorageManagerImpl.discoverLevels] at h
        split at h
        · exact ih hmem h
        · split at h
          · cases h
          · split at h
            · cases h
            · rename_i hrest
              cases h
              split
              · exact ih hmem hrest
              · exact List.mem_cons_of_mem _ (ih hmem hrest)

theorem discoverLevels_exception {m_maxLevel : Int32} {l : List (Bytes × BaseNode)} {f : Fault}
    (h : StorageManagerImpl.discoverLevels m_maxLevel l = .error f) : f.IsException := by
  fun_induction StorageManagerImpl.discoverLevels m_maxLevel l with
  | case1 => cases h
  | case2 _ rest ih => exact ih h
  | case3 folderName dir rest hmatch ih => exact ih h
  | case4 folderName dir rest digits hmatch f' hstoi =>
    cases h
    unfold StorageManagerImpl.stoi at hstoi
    split at hstoi <;> cases hstoi
    exact ⟨by simp, by simp⟩
  | case5 folderName dir rest digits hmatch n hstoi f' hrest ih =>
    cases h
    exact ih hrest
  | case6 => cases h

theorem reserve_cases {m_maxLevel : Int32} (hone : m_maxLevel ≠ -1)
    (hlargest : m_maxLevel ≠ Int32.maxValue) :
    (∃ f, f.IsException ∧ StorageManagerImpl.reserve m_maxLevel = .error f) ∨
      0 ≤ m_maxLevel.toInt ∧ StorageManagerImpl.reserve m_maxLevel = .ok () := by
  unfold StorageManagerImpl.reserve
  rw [if_neg hlargest]
  split
  · exact .inl ⟨_, ⟨by simp, by simp⟩, rfl⟩
  · rename_i hlt
    refine .inr ⟨?_, rfl⟩
    rw [Int32.lt_iff_toInt_lt] at hlt
    rw [ne_eq, ← Int32.toInt_inj] at hone
    have hminus : (-1 : Int32).toInt = -1 := rfl
    omega

theorem levelNums_cons {m_maxLevel : Int32} (hmax : 0 ≤ m_maxLevel.toInt) :
    ∃ rest, StorageManagerImpl.levelNums m_maxLevel = 0 :: rest := by
  obtain ⟨n, hn⟩ : ∃ n, (m_maxLevel.toInt + 1).toNat = n + 1 :=
    ⟨m_maxLevel.toInt.toNat, by omega⟩
  exact ⟨_, by rw [StorageManagerImpl.levelNums, hn, List.range_succ_eq_map]⟩

theorem openTables_thrown {fmt : TableFormatKind} {l : List (Bytes × FileNode)}
    {lm lm' : LevelManagerImpl} (hl : ∀ name content, (name, .regular content) ∈ l →
      ∀ f, fmt.openTable fs (lm.pathOf name) = .error f → f.IsThrown)
    {f : Fault} (h : lm.openTables fmt fs l = (.error f, lm')) : f.IsThrown := by
  induction l generalizing lm with
  | nil => cases h
  | cons p l ih =>
    obtain ⟨name, node⟩ := p
    cases node with
    | other => exact ih (fun name' content hmem => hl name' content (List.mem_cons_of_mem _ hmem)) h
    | regular content =>
      simp only [LevelManagerImpl.openTables] at h
      split at h
      · rename_i hopen
        cases h
        exact hl name content List.mem_cons_self _ hopen
      · refine ih (fun name' content hmem => ?_) h
        exact hl name' content (List.mem_cons_of_mem _ hmem)

theorem createLevels_unreadable (h : Unreadable config fs) (env : Env) {discovered : List Nat}
    (hfound : 0 ∈ discovered) (rest : List Nat) :
    ∃ f, f.IsThrown ∧
      StorageManagerImpl.createLevels env discovered (0 :: rest) (newStorage config) fs =
        (.error f, newStorage config, fs) := by
  obtain ⟨d, hd, name, content, hmem, f, hopen⟩ := h.refused
  obtain ⟨f', lm, hrun⟩ := LevelManagerImpl.openTables_error ((newStorage config).freshLevel 0)
    ⟨_, (env.order.perm d.toList).symm.subset hmem, ⟨content, rfl⟩, f, hopen⟩
  have hthrown : f'.IsThrown := by
    refine openTables_thrown (fun name' content' hmem' f' hopen' => ?_) hrun
    have hfile := FileSystem.file?_of_dir hd ((Keyed.lookup_eq_some d.sorted).2
      ⟨(env.order.perm d.toList).subset hmem', rfl⟩) rfl
    exact TableFormatKind.openTable_thrown hfile (h.inBounds name' content' hfile) hopen'
  have hinit : ({ m_levelNum := 0, m_basePath := (newStorage config).m_basePath } :
      LevelManagerImpl).initNew env (newStorage config).m_tableFormat fs = (.error f', lm) := by
    rw [LevelManagerImpl.initNew, hd]
    exact hrun
  refine ⟨f', hthrown, ?_⟩
  rw [StorageManagerImpl.createLevels, if_pos hfound, hinit]

/-- **A load** makes no manager, changes no file and throws. -/
theorem initLevels_unreadable (h : Unreadable config fs) {env : Env}
    (henv : env.mkdirFault config.sstableDirectory = none) :
    ∃ f, f.IsException ∧
      (newStorage config).initLevels env fs = (.error f, newStorage config, fs) := by
  unfold StorageManagerImpl.initLevels
  simp only [show env.mkdirFault (newStorage config).m_basePath = none from henv]
  split
  · rename_i f hdisc
    exact ⟨f, discoverLevels_exception hdisc, rfl⟩
  · rename_i discovered hdisc
    obtain ⟨f, hexc, hreserve⟩ | ⟨hmax, hreserve⟩ := reserve_cases h.maxLevels.1 h.maxLevels.2
    · simp only [show StorageManagerImpl.reserve (newStorage config).m_maxLevel = _ from hreserve]
      exact ⟨f, hexc, rfl⟩
    · simp only [show StorageManagerImpl.reserve (newStorage config).m_maxLevel = _ from hreserve]
      obtain ⟨rest, hnums⟩ := levelNums_cons hmax
      have hfound : 0 ∈ discovered := by
        obtain ⟨d, hd, -⟩ := h.refused
        exact zero_mem_discoverLevels hmax (mem_base_iff.2 hd) hdisc
      obtain ⟨f, hthrown, hrun⟩ := createLevels_unreadable h env hfound rest
      rw [← hnums] at hrun
      exact ⟨f, hthrown.isException, hrun⟩

theorem write_unreadable (h : Unreadable config fs) {env : Env}
    (henv : env.mkdirFault config.sstableDirectory = none) (entries : List Entry) :
    ∃ f, f.IsException ∧ StorageManager.write (newStorage config) env entries fs =
      (.error f, newStorage config, fs) := by
  obtain ⟨f, hexc, hinit⟩ := initLevels_unreadable h henv
  refine ⟨f, hexc, ?_⟩
  show (newStorage config).write env entries fs = _
  rw [StorageManagerImpl.write, if_pos (by rfl), hinit]

/-! ## Writing -/

section

variable {m : MemTableImpl StorageManagerImpl} {env : Env}

theorem flushToDisk_unreadable (h : Unreadable config fs)
    (henv : env.mkdirFault config.sstableDirectory = none)
    (hs : m.m_storageManager = newStorage config) :
    ∃ f, f.IsException ∧ m.flushToDisk env fs = (.error f, { m with m_readOnly := true }, fs) := by
  obtain ⟨f, hexc, hwrite⟩ := write_unreadable h henv m.m_skiplist.toList
  refine ⟨f, hexc, ?_⟩
  rw [← hs] at hwrite
  simp only [MemTableImpl.flushToDisk, hwrite]

theorem flushIfFull_unreadable (h : Unreadable config fs)
    (henv : env.mkdirFault config.sstableDirectory = none)
    (hs : m.m_storageManager = newStorage config) :
    (m.m_skiplist.getLength = some m.m_size ∧ ∃ f, f.IsException ∧
      m.flushIfFull env fs = (.error f, { m with m_readOnly := true }, fs)) ∨
    m.flushIfFull env fs = (.ok none, m, fs) := by
  unfold MemTableImpl.flushIfFull
  split
  · rename_i hfull
    exact .inl ⟨hfull, flushToDisk_unreadable h henv hs⟩
  · exact .inr rfl

/-- What a write of `e` comes to: the memtable takes it, or it stays as it is. No file of a level has
changed. -/
structure Takes (m : MemTableImpl StorageManagerImpl) (fs : FileSystem) (e : Entry)
    (res : Except Fault (Option Error)) (m' : MemTableImpl StorageManagerImpl) (fs' : FileSystem) :
    Prop where
  base : fs'.base = fs.base
  storage : m'.m_storageManager = m.m_storageManager
  skiplist : (res = .ok none ∧ m'.m_skiplist = m.m_skiplist.insert e) ∨
    (res ≠ .ok none ∧ m'.m_skiplist = m.m_skiplist)
  exception : ∀ f, res = .error f → f.IsException

theorem append_base (w : WAL) (fault : Option AppendFault) (e : Entry) (fs : FileSystem) :
    (w.append fault e fs).2.base = fs.base := by
  unfold WAL.append
  split <;> rfl

theorem logAndSet_takes (m : MemTableImpl StorageManagerImpl) (env : Env) (e : Entry)
    (fs : FileSystem) :
    Takes m fs e (.ok (m.logAndSet env e fs).1) (m.logAndSet env e fs).2.1
      (m.logAndSet env e fs).2.2 := by
  have hbase := append_base m.m_wal env.appendFault e fs
  unfold MemTableImpl.logAndSet
  cases happend : m.m_wal.append env.appendFault e fs with
  | mk err fs' =>
    rw [happend] at hbase
    cases err with
    | some err => exact ⟨hbase, rfl, .inr ⟨by simp, rfl⟩, nofun⟩
    | none => exact ⟨hbase, rfl, .inl ⟨rfl, rfl⟩, nofun⟩

theorem Takes.of_flush {f : Fault} (hexc : f.IsException) (m : MemTableImpl StorageManagerImpl)
    (fs : FileSystem) (e : Entry) : Takes m fs e (.error f) { m with m_readOnly := true } fs :=
  ⟨rfl, rfl, .inr ⟨by simp, rfl⟩, fun f' hf => (Except.error.inj hf) ▸ hexc⟩

theorem Takes.refused (m : MemTableImpl StorageManagerImpl) (fs : FileSystem) (e : Entry)
    (err : Error) : Takes m fs e (.ok (some err)) m fs :=
  ⟨rfl, rfl, .inr ⟨by simp, rfl⟩, nofun⟩

theorem put_takes (h : Unreadable config fs) (henv : env.mkdirFault config.sstableDirectory = none)
    (hs : m.m_storageManager = newStorage config) (key val : Bytes) :
    Takes m fs ⟨key, val, false⟩ (m.put env key val fs).1 (m.put env key val fs).2.1
      (m.put env key val fs).2.2 := by
  unfold MemTableImpl.put
  split
  · exact .refused ..
  · rcases flushIfFull_unreadable h henv hs with ⟨-, f, hexc, hflush⟩ | hflush
    · rw [hflush]
      exact .of_flush hexc ..
    · rw [hflush]
      exact logAndSet_takes m env _ fs

theorem delExisting_takes (h : Unreadable config fs)
    (henv : env.mkdirFault config.sstableDirectory = none)
    (hs : m.m_storageManager = newStorage config) (key : Bytes) :
    Takes m fs ⟨key, "val", true⟩ (m.delExisting env key fs).1 (m.delExisting env key fs).2.1
      (m.delExisting env key fs).2.2 := by
  unfold MemTableImpl.delExisting
  split
  · exact .refused ..
  · rcases flushIfFull_unreadable h henv hs with ⟨-, f, hexc, hflush⟩ | hflush
    · rw [hflush]
      exact .of_flush hexc ..
    · have htakes := logAndSet_takes m env ⟨key, "val", true⟩ fs
      rw [hflush]
      dsimp only
      cases hlog : m.logAndSet env ⟨key, "val", true⟩ fs with
      | mk err out =>
        rw [hlog] at htakes
        cases err with
        | some err => exact htakes
        | none => exact htakes

theorem del_takes (h : Unreadable config fs) (henv : env.mkdirFault config.sstableDirectory = none)
    (hs : m.m_storageManager = newStorage config) (key : Bytes) :
    Takes m fs ⟨key, "val", true⟩ (m.del env key fs).1 (m.del env key fs).2.1
      (m.del env key fs).2.2 := by
  have hget : StorageManager.get m.m_storageManager fs key = .ok none := by
    rw [hs]
    rfl
  unfold MemTableImpl.del
  split
  · exact delExisting_takes h henv hs key
  · rw [hget]
    exact .refused ..

end

/-! ## Runs -/

/-- A database whose levels cannot be loaded: it has its first storage manager, the files of the levels
are those of `fs₀`, and the memtable alone has what the log of its calls has acknowledged. -/
structure Blocked (config : DbFactoryConfig) (fs₀ : FileSystem)
    (x : DbImpl StorageManagerImpl × FileSystem) (log : List (Call × Option Response)) : Prop where
  base : x.2.base = fs₀.base
  storage : x.1.m_memTable.m_storageManager = newStorage config
  reads : ∀ k, (live (x.1.m_memTable.m_skiplist.find? k)).map Entry.val = (lastAcked log k).getD none

namespace Blocked

variable {fs₀ : FileSystem} {x : DbImpl StorageManagerImpl × FileSystem}
  {log : List (Call × Option Response)}

theorem get (h : Blocked config fs₀ x log) (k : Bytes) :
    x.1.get x.2 k = .ok (readResponse ((lastAcked log k).getD none)) := by
  have hget : StorageManager.get x.1.m_memTable.m_storageManager x.2 k = .ok none := by
    rw [h.storage]
    rfl
  rw [← h.reads k, DbImpl.get, MemTableImpl.get]
  cases hk : x.1.m_memTable.m_skiplist.find? k with
  | none =>
    simp only [hget]
    rfl
  | some e => cases ht : e.tombstone <;> simp [live_some, ht, readResponse]

theorem same (h : Blocked config fs₀ x log) {y : DbImpl StorageManagerImpl × FileSystem}
    (hbase : y.2.base = x.2.base)
    (hstorage : y.1.m_memTable.m_storageManager = x.1.m_memTable.m_storageManager)
    (hlist : y.1.m_memTable.m_skiplist = x.1.m_memTable.m_skiplist) {c : Call}
    {res : Option Response} (hacked : ∀ k, acked k (c, res) = none) :
    Blocked config fs₀ y (log ++ [(c, res)]) := by
  refine ⟨hbase.trans h.base, hstorage.trans h.storage, fun k => ?_⟩
  rw [hlist, h.reads k, lastAcked_snoc, hacked k, Option.none_or]

theorem takes (h : Blocked config fs₀ x log) {c : Call} {e : Entry} (hc : c.entry? = some e)
    {res : Except Fault (Option Error)} {m' : MemTableImpl StorageManagerImpl} {fs' : FileSystem}
    (htakes : Takes x.1.m_memTable x.2 e res m' fs') {r : Except Fault Response}
    (hok : res = .ok none → r = .ok ⟨true, "OK", none⟩)
    (hfailed : res ≠ .ok none → ∀ resp, r = .ok resp → resp.ok = false)
    (hthrew : ∀ f, r = .error f → res = .error f) :
    Blocked config fs₀ (⟨m'⟩, fs') (log ++ [(c, r.toOption)]) ∧
      ∀ f, r = .error f → f.IsException := by
  refine ⟨?_, fun f hr => htakes.exception f (hthrew f hr)⟩
  rcases htakes.skiplist with ⟨hres, hlist⟩ | ⟨hres, hlist⟩
  · refine ⟨htakes.base.trans h.base, htakes.storage.trans h.storage, fun k => ?_⟩
    rw [hok hres, Except.toOption, hlist, SortedMap.find?_insert, lastAcked_snoc, acked_some, hc,
      Option.bind_some]
    by_cases hk : e.key = k
    · rw [if_pos hk, if_pos ⟨hk, rfl⟩]
      rfl
    · rw [if_neg hk, if_neg fun h => hk h.1, Option.none_or]
      exact h.reads k
  · refine h.same htakes.base htakes.storage hlist fun k => ?_
    cases r with
    | error f => cases c <;> rfl
    | ok resp =>
      rw [Except.toOption, acked_some, hc, Option.bind_some, if_neg]
      rintro ⟨-, hresp⟩
      rw [hfailed hres resp rfl] at hresp
      cases hresp

/-- **One call**: what fails, fails by an exception. -/
theorem step (h : Blocked config fs₀ x log) (hbad : Unreadable config fs₀) {c : Call × Env}
    (henv : c.2.mkdirFault config.sstableDirectory = none) :
    Blocked config fs₀ (DbImpl.step x c).2 (log ++ [(c.1, (DbImpl.step x c).1.toOption)]) ∧
      ∀ f, (DbImpl.step x c).1 = .error f → f.IsException := by
  have hbad' := hbad.congr h.base
  have hget := h.get
  obtain ⟨⟨m⟩, fs⟩ := x
  obtain ⟨c, env⟩ := c
  cases c with
  | put key val =>
    have htakes := put_takes hbad' henv h.storage key val
    simp only [DbImpl.step, DbImpl.call, DbImpl.put]
    cases hput : m.put env key val fs with
    | mk res out =>
      rw [hput] at htakes
      cases res with
      | error f =>
        exact h.takes rfl htakes (fun hr => by cases hr) (fun _ _ hr => by cases hr) fun _ hr =>
          congrArg Except.error (Except.error.inj hr)
      | ok err =>
        cases err with
        | none =>
          exact h.takes rfl htakes (fun _ => rfl) (fun hr => absurd rfl hr) fun _ hr => by cases hr
        | some err =>
          refine h.takes rfl htakes (fun hr => by cases hr) (fun _ resp hr => ?_) fun _ hr => by
            cases hr
          cases hr
          rfl
  | del key =>
    have htakes := del_takes hbad' henv h.storage key
    simp only [DbImpl.step, DbImpl.call, DbImpl.del]
    cases hdel : m.del env key fs with
    | mk res out =>
      rw [hdel] at htakes
      cases res with
      | error f =>
        exact h.takes rfl htakes (fun hr => by cases hr) (fun _ _ hr => by cases hr) fun _ hr =>
          congrArg Except.error (Except.error.inj hr)
      | ok err =>
        cases err with
        | none =>
          exact h.takes rfl htakes (fun _ => rfl) (fun hr => absurd rfl hr) fun _ hr => by cases hr
        | some err =>
          refine h.takes rfl htakes (fun hr => by cases hr) (fun _ resp hr => ?_) fun _ hr => by
            cases hr
          cases hr
          rfl
  | get key =>
    refine ⟨h.same rfl rfl rfl fun k => by cases Except.toOption _ <;> rfl, fun f hf => ?_⟩
    cases (hget key).symm.trans hf
  | forceFlushForTests =>
    obtain ⟨f, hexc, hflush⟩ := flushToDisk_unreadable hbad' henv h.storage
    simp only [DbImpl.step, DbImpl.call, DbImpl.forceFlushForTests, hflush]
    refine ⟨h.same (y := (⟨{ m with m_readOnly := true }⟩, fs)) rfl rfl rfl fun _ => rfl, ?_⟩
    intro f' hf
    cases hf
    exact hexc
  | forceCompactForTests =>
    refine ⟨h.same rfl rfl rfl fun k => by cases Except.toOption _ <;> rfl, fun f hf => ?_⟩
    have hcompact : StorageManager.compact m.m_storageManager = .ok none := by
      rw [show m.m_storageManager = newStorage config from h.storage]
      rfl
    simp only [DbImpl.step, DbImpl.call, DbImpl.forceCompactForTests, hcompact] at hf
    cases hf

theorem startsFlush (h : Blocked config fs₀ x log) (hbad : Unreadable config fs₀) {c : Call}
    {env : Env} (henv : env.mkdirFault config.sstableDirectory = none) (hc : x.1.StartsFlush x.2 c) :
    ∃ f, (DbImpl.step x (c, env)).1 = .error f := by
  have hbad' := hbad.congr h.base
  obtain ⟨⟨m⟩, fs⟩ := x
  obtain ⟨f, -, hflush⟩ :=
    flushToDisk_unreadable (m := { m with m_readOnly := true }) hbad' henv h.storage
  cases c with
  | put key val =>
    obtain ⟨hro, hfull⟩ := hc
    refine ⟨f, ?_⟩
    simp only at hro hfull
    simp only [DbImpl.step, DbImpl.call, DbImpl.put, MemTableImpl.put, hro, Bool.false_eq_true,
      ↓reduceIte, MemTableImpl.flushIfFull, hfull, hflush]
  | del key =>
    obtain ⟨hthere, hro, hfull⟩ := hc
    refine ⟨f, ?_⟩
    simp only at hthere hro hfull
    simp only [DbImpl.step, DbImpl.call, DbImpl.del, MemTableImpl.del_eq_delExisting hthere,
      MemTableImpl.delExisting, hro, Bool.false_eq_true, ↓reduceIte, MemTableImpl.flushIfFull, hfull,
      hflush]
  | forceFlushForTests =>
    obtain ⟨f', -, hflush'⟩ := flushToDisk_unreadable (m := m) hbad' henv h.storage
    refine ⟨f', ?_⟩
    simp only [DbImpl.step, DbImpl.call, DbImpl.forceFlushForTests, hflush']
  | get key | forceCompactForTests => cases hc

end Blocked

/-- **Every run.** -/
theorem run_blocked (hbad : Unreadable config fs) {steps : List (Call × Env)}
    (henv : ∀ c ∈ steps, c.2.mkdirFault config.sstableDirectory = none) :
    Blocked config fs (Machine.run DbImpl.step (createDbWithConfig config, fs) steps).2
      (history steps (Machine.run DbImpl.step (createDbWithConfig config, fs) steps).1) ∧
    ∀ res ∈ (Machine.run DbImpl.step (createDbWithConfig config, fs) steps).1,
      ∀ f, res = .error f → f.IsException := by
  induction steps using List.reverseRecOn with
  | nil => exact ⟨⟨rfl, rfl, fun k => rfl⟩, nofun⟩
  | append_singleton steps c ih =>
    have hlen : (Machine.run DbImpl.step (createDbWithConfig config, fs) steps).1.length =
        steps.length := Machine.length_run ..
    obtain ⟨hblocked, hexc⟩ := ih fun c hc => henv c (List.mem_append_left _ hc)
    obtain ⟨hnext, hexc'⟩ :=
      hblocked.step hbad (henv c (List.mem_append_right _ List.mem_cons_self))
    rw [Machine.run_snoc, history_snoc hlen]
    refine ⟨hnext, fun res hres => ?_⟩
    rcases List.mem_append.1 hres with hres | hres
    · exact hexc res hres
    · rw [List.mem_singleton.1 hres]
      exact hexc'

/-- **One file that is no table** keeps a process from its levels. Whatever calls it takes, and
whichever of its operations on the log fail: no call comes to undefined behaviour; every file of every
level stays as it is; a get gives what the last acknowledged write of this process left, and nothing of
an older one; and a call that starts a flush throws. -/
theorem unreadable_blocks {config : DbFactoryConfig} {fs : FileSystem} (hbad : Unreadable config fs)
    (steps : List (Call × Env))
    (henv : ∀ c ∈ steps, c.2.mkdirFault config.sstableDirectory = none) :
    let run := Machine.run DbImpl.step (createDbWithConfig config, fs) steps
    (∀ res ∈ run.1, ∀ f, res = .error f → f.IsException) ∧
    (∀ level name, run.2.2.file? level name = fs.file? level name) ∧
    (∀ k, run.2.1.get run.2.2 k =
      .ok (readResponse ((lastAcked (history steps run.1) k).getD none))) ∧
    ∀ c env, env.mkdirFault config.sstableDirectory = none → run.2.1.StartsFlush run.2.2 c →
      ∃ f, (DbImpl.step run.2 (c, env)).1 = .error f ∧ f.IsException := by
  intro run
  obtain ⟨h, hexc⟩ := run_blocked hbad henv
  refine ⟨hexc, file?_of_base h.base, h.get, fun c env henv' hc => ?_⟩
  obtain ⟨f, hf⟩ := h.startsFlush hbad henv' hc
  exact ⟨f, hf, (h.step hbad (c := (c, env)) henv').2 f hf⟩

/-- A table of the default format in the way of a block-based database. -/
def foreignFiles : FileSystem :=
  FileSystem.empty.setDir (levelName 0) ((SortedMap.empty : Dir).insert
    (("table-1" : Bytes), .regular (SSTableWriter.encode [⟨"a", "1", false⟩] 7 1)))

theorem unreadable_blocks_foreign :
    let config : DbFactoryConfig := { tableFormat := .BlockBased }
    let run := Machine.run DbImpl.step (createDbWithConfig config, foreignFiles)
      [(.put "b" "2", {}), (.forceFlushForTests, {}), (.put "b" "3", {})]
    run.2.1.get run.2.2 "a" = .ok ⟨false, "Key does not exist", none⟩ ∧
      run.2.1.get run.2.2 "b" = .ok ⟨true, "OK", some (ofString "2")⟩ ∧
      ∃ f, (DbImpl.step run.2 (.forceFlushForTests, {})).1 = .error f ∧ f.IsException := by
  intro config run
  have hbad : Unreadable config foreignFiles := by
    have hrejected : (config.tableFormat.openTable foreignFiles
        ⟨config.sstableDirectory, levelName 0, "table-1"⟩).isOk = false := by decide +kernel
    refine ⟨⟨_, rfl, "table-1", SSTableWriter.encode [⟨"a", "1", false⟩] 7 1, by decide +kernel, ?_⟩,
      fun _ _ _ => trivial, by decide, by decide⟩
    cases hopen : config.tableFormat.openTable foreignFiles
        ⟨config.sstableDirectory, levelName 0, "table-1"⟩ with
    | error f => exact ⟨f, rfl⟩
    | ok r =>
      rw [hopen] at hrejected
      cases hrejected
  obtain ⟨-, -, hget, hflush⟩ := unreadable_blocks hbad
    [(.put "b" "2", {}), (.forceFlushForTests, {}), (.put "b" "3", {})] (by simp)
  refine ⟨(hget "a").trans ?_, (hget "b").trans ?_, hflush _ _ rfl trivial⟩
  · decide +kernel
  · decide +kernel

end TinyKv
