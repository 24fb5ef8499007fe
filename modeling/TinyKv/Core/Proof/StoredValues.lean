import TinyKv.Core.Proof.MemTable
import TinyKv.Table.Proof.Reopen

/-!
# Every value read was put

A property of byte strings that every value put has, and the text that a deletion puts, is one that
every value of a `get` has. It holds on any disk that was empty at the start, whatever the
filesystem refuses, up to the first call that throws: tables in memory keep their entries, and the
file of a block-based table is not written again as long as the names drawn differ (`Fits`).

* `TableReader.Holds`, `StorageManagerImpl.Holds`, `DbImpl.Holds`: the property holds of what a
  reader, the levels and the database can give.
* `DbImpl.Holds.step`: every call that returns keeps it, and what it returns has it.
-/

namespace TinyKv

open Bytes

variable {P : Bytes → Prop}

/-! ## Readers -/

/-- What the reader gives has `P`. A block-based reader has a file under a name of its own. -/
def TableReader.Holds (P : Bytes → Prop) (fmt : TableFormatKind) (fs : FileSystem) :
    TableReader → Prop
  | .inMemory table => ∀ e ∈ table.m_entries, P e.val
  | .blockBased b => fmt = .BlockBased ∧ b.m_fullPath.name ∈ drawnNames fs.effects ∧
      ∃ es, Serves fs (.blockBased b) es ∧ ∀ e ∈ es, P e.val

namespace SSTable

theorem mem_of_entryAt {t : SSTable} {i : Int} {e : Entry} (h : t.entryAt i = .ok e) :
    e ∈ t.m_entries := by
  unfold entryAt at h
  split at h
  · cases h
  · split at h
    · rename_i hget
      cases h
      exact List.mem_of_getElem? hget
    · cases h

theorem mem_of_search {t : SSTable} {key : Bytes} {l r : Int} {e : Entry}
    (h : t.search key l r = .ok (some e)) : e ∈ t.m_entries := by
  fun_induction search t key l r with
  | case1 l r hlt mid ih1 ih2 =>
    cases hmid : t.entryAt mid with
    | error f =>
      rw [hmid] at h
      cases h
    | ok m =>
      rw [hmid] at h
      simp only [bind, Except.bind] at h
      split at h
      · cases h
        exact mem_of_entryAt hmid
      · split at h
        · exact ih1 h
        · exact ih2 h
  | case2 l r hge =>
    cases hl : t.entryAt l with
    | error f =>
      rw [hl] at h
      cases h
    | ok m =>
      rw [hl] at h
      simp only [bind, Except.bind, pure, Except.pure] at h
      split at h
      · cases h
        exact mem_of_entryAt hl
      · cases h

theorem mem_of_get {t : SSTable} {key : Bytes} {e : Entry} (h : t.get key = .ok (some e)) :
    e ∈ t.m_entries := by
  unfold get at h
  split at h
  · cases h
  · exact mem_of_search h

end SSTable

namespace TableReader

variable {fmt : TableFormatKind} {fs fs' : FileSystem} {r : TableReader}

theorem Holds.get (h : r.Holds P fmt fs) {key : Bytes} {e : Entry}
    (hget : r.get fs key = .ok (some e)) (hlive : e.tombstone = false) : P e.val := by
  cases r with
  | inMemory table => exact h e (SSTable.mem_of_get hget)
  | blockBased b =>
    obtain ⟨-, -, es, hserves, hes⟩ := h
    obtain ⟨e', hget', he'⟩ := hserves.get key
    rw [hget, Except.ok.injEq] at hget'
    subst hget'
    rw [Option.map_some] at he'
    obtain ⟨x, hx, hpers⟩ := Option.map_eq_some_iff.1 he'.symm
    have htomb : x.tombstone = false := by
      rw [← Entry.persisted_tombstone, hpers, Entry.persisted_tombstone, hlive]
    rw [Entry.persisted_of_live htomb, Entry.persisted_of_live hlive] at hpers
    subst hpers
    exact hes x (Keyed.mem_of_lookup hx)

/-- Later, when no file under a name drawn before has changed. -/
theorem Holds.later (h : r.Holds P fmt fs) (heff : fs.effects <+: fs'.effects)
    (hfile : fmt = .BlockBased → ∀ level name, name ∈ drawnNames fs.effects →
      fs'.file? level name = fs.file? level name) : r.Holds P fmt fs' := by
  cases r with
  | inMemory table => exact h
  | blockBased b =>
    obtain ⟨hfmt, hname, es, hserves, hes⟩ := h
    have hdrawn : drawnNames fs.effects ⊆ drawnNames fs'.effects := by
      obtain ⟨more, hmore⟩ := heff
      rw [← hmore, drawnNames_append]
      exact List.subset_append_left _ _
    refine ⟨hfmt, hdrawn hname, es, hserves.congr fun b' hb' => ?_, hes⟩
    cases hb'
    exact hfile hfmt _ _ hname

end TableReader

/-! ## A new table -/

/-- **A new table** holds what its entries do, and touches no file but its own. -/
theorem TableFormatKind.holds_of_writeTable_ok {fmt : TableFormatKind} {env : Env}
    {path : TablePath} {es : List Entry} {timestamp : TimestampType} {fileNum : FileNumber}
    {fs fs' : FileSystem} {r : TableReader} (hsort : SortedEntries es) (hes : ∀ e ∈ es, P e.val)
    (hname : path.name ∈ drawnNames fs.effects)
    (hfits : fmt = BlockBased → Fits fs'.effects)
    (h : fmt.writeTable env path es timestamp fileNum fs = (.ok r, fs')) :
    r.Holds P fmt fs' ∧
      (fmt = BlockBased → ∀ level name, name ≠ path.name →
        fs'.file? level name = fs.file? level name) := by
  cases fmt with
  | InMemory =>
    refine ⟨?_, nofun⟩
    have hne : es ≠ [] := by
      rintro rfl
      cases h
    obtain ⟨fs1, -, -, rfl⟩ := (InMemoryTableFormat.writeTable_ok_iff hne hsort.nodup_map).1 h
    rw [sortEntries_eq hsort]
    exact hes
  | BlockBased =>
    have hfits := hfits rfl
    obtain ⟨henc, hopen, fs1, ht, hfile, rfl⟩ := BlockBasedTableFormat.eq_of_writeTable_ok h
    have hsize : (BlockBasedTableFormat.encodeTable es timestamp fileNum).length < 2 ^ 63 := by
      apply hfits.sizes
      rw [FileSystem.record_effects, tableContents_append]
      exact List.mem_append_right _ List.mem_cons_self
    rw [BlockBasedTableReader.construct_encodeTable henc.ne henc.small henc.blocks hsize] at hopen
    cases hopen
    refine ⟨⟨rfl, ?_, es, .blockBased henc.ne hsort henc.small hsize hfile, hes⟩,
      fun _ level name hn => ?_⟩
    · rw [FileSystem.record_effects, drawnNames_append, ht.effects]
      exact List.mem_append_left _ hname
    · rw [FileSystem.record_file?]
      exact ht.files level name fun he => hn he.2

/-! ## Levels -/

theorem LevelManagerImpl.holds_of_getKeyFrom {fmt : TableFormatKind} {fs : FileSystem}
    {readers : List TableReader} (h : ∀ r ∈ readers, r.Holds P fmt fs) {key : Bytes} {e : Entry}
    (hget : getKeyFrom fs key readers = .ok (some e)) : P e.val := by
  induction readers with
  | nil => cases hget
  | cons r readers ih =>
    have hrest := ih fun x hx => h x (List.mem_cons_of_mem _ hx)
    rw [getKeyFrom] at hget
    split at hget
    · cases hget
    · exact hrest hget
    · split at hget
      · cases hget
      · exact hrest hget
      · rename_i entry hentry
        split at hget
        · cases hget
        · rename_i hlive
          cases hget
          exact (h r List.mem_cons_self).get hentry (Bool.eq_false_iff.2 hlive)

namespace StorageManagerImpl

/-- What the levels give has `P`. Before the first load the disk has no level. -/
structure Holds (P : Bytes → Prop) (sm : StorageManagerImpl) (fs : FileSystem) : Prop where
  readers : ∀ lm ∈ sm.m_levelManagers, ∀ r ∈ lm.m_tableReaders, r.Holds P sm.m_tableFormat fs
  unloaded : sm.m_levelManagers = [] → fs.base = SortedMap.empty

variable {sm sm' : StorageManagerImpl} {env : Env} {fs fs' : FileSystem} {es : List Entry}

theorem Holds.get (h : sm.Holds P fs) {key : Bytes} {e : Entry}
    (hget : sm.get fs key = .ok (some e)) : P e.val := by
  have hfrom : ∀ lms : List LevelManagerImpl,
      (∀ lm ∈ lms, ∀ r ∈ lm.m_tableReaders, r.Holds P sm.m_tableFormat fs) →
      getFrom fs key lms = .ok (some e) → P e.val := by
    intro lms hlms hrun
    induction lms with
    | nil => cases hrun
    | cons lm lms ih =>
      rw [getFrom] at hrun
      split at hrun
      · cases hrun
      · exact ih (fun x hx => hlms x (List.mem_cons_of_mem _ hx)) hrun
      · rename_i entry hentry
        split at hrun
        · cases hrun
          exact LevelManagerImpl.holds_of_getKeyFrom (hlms lm List.mem_cons_self) hentry
        · cases hrun
  exact hfrom _ h.readers hget

theorem Holds.congr (h : sm.Holds P fs) (hbase : fs'.base = fs.base)
    (heff : fs.effects <+: fs'.effects) : sm.Holds P fs' := by
  refine ⟨fun lm hlm r hr => (h.readers lm hlm r hr).later heff fun _ level name _ => ?_,
    fun hnil => hbase.trans (h.unloaded hnil)⟩
  simp only [FileSystem.file?, FileSystem.dir?, hbase]

theorem createLevels_fresh {ns : List Nat} (sm : StorageManagerImpl) (fs : FileSystem)
    (h : ∀ lm ∈ sm.m_levelManagers, lm.m_tableReaders = []) :
    ∀ lm ∈ (createLevels env [] ns sm fs).2.1.m_levelManagers, lm.m_tableReaders = [] := by
  induction ns generalizing sm fs with
  | nil => exact h
  | cons n ns ih =>
    simp only [createLevels, List.not_mem_nil, ↓reduceIte]
    split
    · exact h
    · split
      · exact h
      · apply ih
        intro lm hlm
        rcases List.mem_append.1 hlm with hlm | hlm
        · exact h lm hlm
        · rw [List.mem_singleton.1 hlm]

theorem initLevels_fresh (hbase : fs.base = SortedMap.empty) (hnil : sm.m_levelManagers = []) :
    ∀ lm ∈ (sm.initLevels env fs).2.1.m_levelManagers, lm.m_tableReaders = [] := by
  have hdiscover : discoverLevels sm.m_maxLevel fs.base.toList = .ok [] := by
    rw [hbase]
    rfl
  simp only [initLevels, hdiscover]
  split
  · rw [hnil]
    exact List.forall_mem_nil _
  · split
    · exact List.forall_mem_nil _
    · exact createLevels_fresh _ _ (List.forall_mem_nil _)

/-- **A table more** in level 0. -/
theorem Holds.writeLevel0 {out : Option Error}
    (h : ∀ lm ∈ sm.m_levelManagers, ∀ r ∈ lm.m_tableReaders, r.Holds P sm.m_tableFormat fs)
    (hsort : SortedEntries es) (hes : ∀ e ∈ es, P e.val)
    (hfits : sm.m_tableFormat = .BlockBased → Fits fs'.effects)
    (hrun : sm.writeLevel0 env es fs = (.ok out, sm', fs')) :
    sm'.m_tableFormat = sm.m_tableFormat ∧ sm'.Holds P fs' := by
  unfold StorageManagerImpl.writeLevel0 at hrun
  split at hrun
  · cases hrun
  · rename_i lm rest hm
    rw [LevelManagerImpl.createTable_eq] at hrun
    cases hw : sm.m_tableFormat.writeTable env (lm.newPath env) es env.now sm.m_systemContext.counter
        (fs.record (.nameDrawn (generateSSTableFileName env))) with
    | mk res fs1 =>
      rw [hw] at hrun
      cases res with
      | error f => cases hrun
      | ok r =>
        cases hrun
        have heff := (sm.m_tableFormat.writeTable_outcome env (lm.newPath env) es env.now
          sm.m_systemContext.counter (fs.record (.nameDrawn (generateSSTableFileName env)))).effects
        rw [hw] at heff
        obtain ⟨hnew, hfiles⟩ := TableFormatKind.holds_of_writeTable_ok hsort hes (by
          rw [FileSystem.record_effects, drawnNames_append]
          exact List.mem_append_right _ List.mem_cons_self) hfits hw
        -- the readers that were there: the new name is not theirs
        have hold : ∀ lm ∈ sm.m_levelManagers, ∀ r ∈ lm.m_tableReaders,
            r.Holds P sm.m_tableFormat fs1 := by
          intro lm' hlm' r' hr'
          refine (h lm' hlm' r' hr').later ((List.prefix_append _ _).trans heff) ?_
          intro hbb level name hname
          rw [hfiles hbb level name, FileSystem.record_file?]
          rintro rfl
          obtain ⟨more, hmore⟩ := heff
          have hfresh := hfits hbb
          rw [← hmore, FileSystem.record_effects, List.append_assoc] at hfresh
          exact hfresh.fresh hname
        refine ⟨rfl, ?_, fun hnil => absurd hnil (List.cons_ne_nil _ _)⟩
        intro lm' hlm' r' hr'
        rw [hm] at hold
        rcases List.mem_cons.1 hlm' with rfl | hlm'
        · rcases List.mem_cons.1 hr' with rfl | hr'
          · exact hnew
          · exact hold lm List.mem_cons_self r' hr'
        · exact hold lm' (List.mem_cons_of_mem _ hlm') r' hr'

/-- **A write** that does not throw. -/
theorem Holds.write {out : Option Error} (h : sm.Holds P fs) (hsort : SortedEntries es)
    (hes : ∀ e ∈ es, P e.val)
    (hfits : sm.m_tableFormat = .BlockBased → Fits fs'.effects)
    (hrun : sm.write env es fs = (.ok out, sm', fs')) :
    sm'.m_tableFormat = sm.m_tableFormat ∧ sm'.Holds P fs' := by
  unfold StorageManagerImpl.write at hrun
  split at hrun
  · rename_i hlen
    have hnil := List.length_eq_zero_iff.1 hlen
    split at hrun
    · cases hrun
    · rename_i out1 sm1 fs1 hinit
      have hreaders := @initLevels_fresh sm env fs (h.unloaded hnil) hnil
      have hfmt := sm.initLevels_tableFormat env fs
      rw [hinit] at hreaders hfmt
      rw [← hfmt] at hfits ⊢
      refine Holds.writeLevel0 (fun lm hlm r hr => ?_) hsort hes hfits hrun
      rw [hreaders lm hlm] at hr
      cases hr
  · exact Holds.writeLevel0 h.readers hsort hes hfits hrun

end StorageManagerImpl

/-! ## The memtable -/

namespace WAL

theorem append_base (w : WAL) (fault : Option AppendFault) (e : Entry) (fs : FileSystem) :
    (w.append fault e fs).2.base = fs.base := by
  unfold append
  split <;> rfl

theorem remove_base (fault : Option Bytes) (fs : FileSystem) :
    (WAL.remove fault fs).2.base = fs.base := by
  unfold WAL.remove
  split
  · rfl
  · split <;> rfl

end WAL

/-- The block-based format has its bounds: names that differ and files below `2 ^ 63` bytes. -/
def WithinBounds (config : DbFactoryConfig) (fs : FileSystem) : Prop :=
  config.tableFormat = .BlockBased → Fits fs.effects

theorem WithinBounds.earlier {config : DbFactoryConfig} {fs fs' : FileSystem}
    (h : WithinBounds config fs') (heff : fs.effects <+: fs'.effects) : WithinBounds config fs :=
  fun hbb => (h hbb).earlier heff

namespace MemTableImpl

/-- What the memtable and the levels behind it give has `P`. -/
structure Holds (P : Bytes → Prop) (config : DbFactoryConfig) (m : MemTableImpl StorageManagerImpl)
    (fs : FileSystem) : Prop where
  skiplist : ∀ e ∈ m.m_skiplist.toList, P e.val
  storage : m.m_storageManager.Holds P fs
  tableFormat : m.m_storageManager.m_tableFormat = config.tableFormat

variable {config : DbFactoryConfig} {m m' : MemTableImpl StorageManagerImpl} {env : Env}
  {fs fs' : FileSystem} {out : Option Error}

theorem Holds.flushToDisk (h : m.Holds P config fs) (hb : WithinBounds config fs')
    (hrun : m.flushToDisk env fs = (.ok out, m', fs')) : m'.Holds P config fs' := by
  have heff := m.write_effects_flushToDisk env fs
  rw [hrun] at heff
  have hwrite : ∀ {out1 : Option Error} {sm1 : StorageManagerImpl} {fs1 : FileSystem},
      m.m_storageManager.write env m.m_skiplist.toList fs = (.ok out1, sm1, fs1) →
      sm1.m_tableFormat = config.tableFormat ∧ sm1.Holds P fs1 := by
    intro out1 sm1 fs1 hw
    rw [hw] at heff
    have hfits : m.m_storageManager.m_tableFormat = .BlockBased → Fits fs1.effects := by
      intro hbb
      rw [h.tableFormat] at hbb
      exact hb.earlier heff hbb
    obtain ⟨hfmt, hholds⟩ := h.storage.write m.m_skiplist.sorted h.skiplist hfits hw
    exact ⟨hfmt.trans h.tableFormat, hholds⟩
  simp only [MemTableImpl.flushToDisk] at hrun
  split at hrun
  · cases hrun
  · rename_i hw
    cases hrun
    obtain ⟨hfmt, hholds⟩ := hwrite hw
    exact ⟨h.skiplist, hholds, hfmt⟩
  · rename_i sm1 fs1 hw
    obtain ⟨hfmt, hholds⟩ := hwrite hw
    have hstorage := hholds.congr (WAL.remove_base env.removeFault fs1)
      (WAL.remove_effects env.removeFault fs1)
    split at hrun
    · rename_i hr
      rw [hr] at hstorage
      cases hrun
      exact ⟨h.skiplist, hstorage, hfmt⟩
    · rename_i hr
      rw [hr] at hstorage
      cases hrun
      exact ⟨List.forall_mem_nil _, hstorage, hfmt⟩

theorem Holds.flushIfFull (h : m.Holds P config fs) (hb : WithinBounds config fs')
    (hrun : m.flushIfFull env fs = (.ok out, m', fs')) : m'.Holds P config fs' := by
  unfold MemTableImpl.flushIfFull at hrun
  split at hrun
  · have hro : { m with m_readOnly := true }.Holds P config fs :=
      ⟨h.skiplist, h.storage, h.tableFormat⟩
    exact hro.flushToDisk hb hrun
  · cases hrun
    exact h

theorem Holds.logAndSet (h : m.Holds P config fs) {e : Entry} (he : P e.val) :
    (m.logAndSet env e fs).2.1.Holds P config (m.logAndSet env e fs).2.2 := by
  have hstorage := h.storage.congr (m.m_wal.append_base env.appendFault e fs)
    (m.m_wal.append_effects env.appendFault e fs)
  unfold MemTableImpl.logAndSet
  split
  · rename_i hw
    rw [hw] at hstorage
    exact ⟨h.skiplist, hstorage, h.tableFormat⟩
  · rename_i hw
    rw [hw] at hstorage
    refine ⟨fun x hx => ?_, hstorage, h.tableFormat⟩
    rcases SortedMap.mem_insert hx with rfl | hx
    · exact he
    · exact h.skiplist x hx

theorem Holds.put (h : m.Holds P config fs) (hb : WithinBounds config fs') {key val : Bytes}
    (hval : P val) (hrun : m.put env key val fs = (.ok out, m', fs')) : m'.Holds P config fs' := by
  unfold MemTableImpl.put at hrun
  split at hrun
  · cases hrun
    exact h
  · split at hrun
    · cases hrun
    · rename_i hflush
      cases hrun
      exact h.flushIfFull hb hflush
    · rename_i m1 fs1 hflush
      cases hrun
      exact (h.flushIfFull (hb.earlier (m1.logAndSet_effects env fs1 _)) hflush).logAndSet hval

theorem Holds.delExisting (h : m.Holds P config fs) (hb : WithinBounds config fs') {key : Bytes}
    (hval : P "val") (hrun : m.delExisting env key fs = (.ok out, m', fs')) :
    m'.Holds P config fs' := by
  unfold MemTableImpl.delExisting at hrun
  split at hrun
  · cases hrun
    exact h
  · split at hrun
    · cases hrun
    · rename_i hflush
      cases hrun
      exact h.flushIfFull hb hflush
    · rename_i m1 fs1 hflush
      have hset : (m1.logAndSet env ⟨key, "val", true⟩ fs1).2 = (m', fs') := by
        split at hrun
        · rename_i hl
          cases hrun
          rw [hl]
        · rename_i hl
          rw [hl]
          split at hrun <;> cases hrun <;> rfl
      have heff := m1.logAndSet_effects env fs1 ⟨key, "val", true⟩
      rw [hset] at heff
      have hholds := h.flushIfFull (hb.earlier heff) hflush
      have hlogged := @Holds.logAndSet P config m1 env fs1 hholds ⟨key, "val", true⟩ hval
      rwa [hset] at hlogged

theorem Holds.del (h : m.Holds P config fs) (hb : WithinBounds config fs') {key : Bytes}
    (hval : P "val") (hrun : m.del env key fs = (.ok out, m', fs')) : m'.Holds P config fs' := by
  unfold MemTableImpl.del at hrun
  split at hrun
  · exact h.delExisting hb hval hrun
  · split at hrun
    · cases hrun
    · cases hrun
      exact h
    · exact h.delExisting hb hval hrun

end MemTableImpl

/-! ## The database -/

/-- The value that the call puts has `P`. -/
def Call.Puts (P : Bytes → Prop) : Call → Prop
  | .put _ val => P val
  | _ => True

namespace DbImpl

/-- What the database gives has `P`. -/
def Holds (P : Bytes → Prop) (config : DbFactoryConfig)
    (x : DbImpl StorageManagerImpl × FileSystem) : Prop :=
  x.1.m_memTable.Holds P config x.2

theorem holds_createDbWithConfig (P : Bytes → Prop) (config : DbFactoryConfig) :
    Holds P config (createDbWithConfig config, FileSystem.empty) :=
  ⟨nofun, ⟨nofun, fun _ => rfl⟩, rfl⟩

variable {config : DbFactoryConfig} {x x' : DbImpl StorageManagerImpl × FileSystem}
  {resp : Response}

theorem Holds.get (h : Holds P config x) {key : Bytes} (hrun : x.1.get x.2 key = .ok resp) :
    ∀ data, resp.data = some data → P data := by
  intro data hdata
  unfold DbImpl.get at hrun
  split at hrun
  · rename_i entry hentry
    split at hrun
    · cases hrun
      cases hdata
    · cases hrun
      cases hdata
      exact h.skiplist entry (Keyed.mem_of_lookup hentry)
  · split at hrun
    · cases hrun
    · cases hrun
      cases hdata
    · rename_i entry hentry
      cases hrun
      cases hdata
      exact h.storage.get hentry

/-- **Every call** keeps what the database gives, and returns no other data. -/
theorem Holds.step (h : Holds P config x) (hb : WithinBounds config x'.2) (hval : P "val")
    {c : Call × Env} (hc : c.1.Puts P) (hrun : DbImpl.step x c = (.ok resp, x')) :
    Holds P config x' ∧ ∀ data, resp.data = some data → P data := by
  obtain ⟨c, env⟩ := c
  cases c with
  | put key val =>
    simp only [DbImpl.step, DbImpl.call, DbImpl.put] at hrun
    split at hrun <;> cases hrun <;> rename_i hput <;>
      exact ⟨h.put hb hc hput, fun _ hdata => by cases hdata⟩
  | get key =>
    simp only [DbImpl.step, DbImpl.call, Prod.mk.injEq] at hrun
    obtain ⟨hget, rfl⟩ := hrun
    exact ⟨h, h.get hget⟩
  | del key =>
    simp only [DbImpl.step, DbImpl.call, DbImpl.del] at hrun
    split at hrun <;> cases hrun <;> rename_i hdel <;>
      exact ⟨h.del hb hval hdel, fun _ hdata => by cases hdata⟩
  | forceFlushForTests =>
    simp only [DbImpl.step, DbImpl.call, forceFlushForTests] at hrun
    split at hrun <;> cases hrun
    rename_i hflush
    exact ⟨h.flushToDisk hb hflush, fun _ hdata => by cases hdata⟩
  | forceCompactForTests =>
    simp only [DbImpl.step, DbImpl.call, forceCompactForTests, Prod.mk.injEq] at hrun
    obtain ⟨hcompact, rfl⟩ := hrun
    split at hcompact <;> cases hcompact
    exact ⟨h, fun _ hdata => by cases hdata⟩

end DbImpl

end TinyKv
