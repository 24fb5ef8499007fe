import TinyKv.Abstract.Lsm
import TinyKv.Core.Proof.History

/-!
# The memtable and the database over their storage

The memtable asks four things of the storage manager (`StorageSpec`): that `get` reads the tables it
holds, that `compact` does nothing, that the log is no concern of it, and that a `write` adds a
table in front or throws and leaves the tables. `Holds sm fs tables` says which tables those are,
`Covers` which writes are meant. Then every call of the database answers as the abstract machine
does (`step_refines`), where a table can be written exactly when the storage manager writes it
(`writes`).
-/

namespace TinyKv

open Bytes

/-- What the memtable relies on. -/
structure StorageSpec (Holds : StorageManagerImpl → FileSystem → List (List Entry) → Prop)
    (Covers : StorageManagerImpl → Env → FileSystem → List Entry → Prop) : Prop where
  get_eq : ∀ {sm fs tables}, Holds sm fs tables →
    ∀ key, sm.get fs key = .ok (live (firstEntry tables key))
  compact_eq : ∀ {sm fs tables}, Holds sm fs tables → sm.compact = .ok none
  congr : ∀ {sm fs tables}, Holds sm fs tables → ∀ {fs' : FileSystem}, fs'.base = fs.base →
    drawnNames fs.effects ⊆ drawnNames fs'.effects → Holds sm fs' tables
  write : ∀ {sm fs tables env es}, Holds sm fs tables → Covers sm env fs es → env.NoFault →
    SortedEntries es → es.length < 2 ^ 31 → ∃ res sm' fs', sm.write env es fs = (res, sm', fs') ∧
      ((res = .ok none ∧ es ≠ [] ∧ Holds sm' fs' (es :: tables)) ∨
        ((∃ f, res = .error f) ∧ Holds sm' fs' tables))

/-- The capacity as a number of entries. -/
def capacityOf (config : DbFactoryConfig) : Nat := config.memtableCapacity.toInt.toNat

theorem capacityOf_lt (config : DbFactoryConfig) : capacityOf config < 2 ^ 31 := by
  have := config.memtableCapacity.toInt_lt
  unfold capacityOf
  omega

/-- The tables that the storage manager writes now. -/
def writes (m : MemTableImpl StorageManagerImpl) (env : Env) (fs : FileSystem) (es : List Entry) :
    Bool := decide ((m.m_storageManager.write env es fs).1 = .ok none)

/-- The memtable on the disk `fs` stands for the abstract state `s`. -/
structure Rep (config : DbFactoryConfig)
    (Holds : StorageManagerImpl → FileSystem → List (List Entry) → Prop)
    (m : MemTableImpl StorageManagerImpl) (fs : FileSystem) (s : Lsm) : Prop where
  size : m.m_size = config.memtableCapacity
  readOnly : m.m_readOnly = s.readOnly
  skiplist : m.m_skiplist = s.mem
  bounded : s.mem.size ≤ capacityOf config
  stored : Holds m.m_storageManager fs s.tables

section MemTable

variable {config : DbFactoryConfig}
  {Holds : StorageManagerImpl → FileSystem → List (List Entry) → Prop}
  {Covers : StorageManagerImpl → Env → FileSystem → List Entry → Prop}
  {m : MemTableImpl StorageManagerImpl} {fs : FileSystem} {s : Lsm} {env : Env}

theorem remove_ok (fs : FileSystem) : ∃ fs', WAL.remove none fs = (none, fs') ∧
    fs'.base = fs.base ∧ drawnNames fs'.effects = drawnNames fs.effects := by
  unfold WAL.remove
  dsimp only
  split
  · exact ⟨fs, rfl, rfl, rfl⟩
  · refine ⟨_, rfl, rfl, ?_⟩
    rw [FileSystem.record_effects, drawnNames_append]
    exact List.append_nil _

theorem StorageSpec.writes_cases (S : StorageSpec Holds Covers) (h : Rep config Holds m fs s)
    (henv : env.NoFault) (hcov : Covers m.m_storageManager env fs s.mem.toList) :
    ∃ res sm' fs', StorageManager.write m.m_storageManager env s.mem.toList fs = (res, sm', fs') ∧
      ((writes m env fs s.mem.toList = true ∧ res = .ok none ∧ s.mem.toList ≠ [] ∧
          Holds sm' fs' (s.mem.toList :: s.tables)) ∨
        (writes m env fs s.mem.toList = false ∧ (∃ f, res = .error f) ∧ Holds sm' fs' s.tables)) := by
  have hlen : s.mem.toList.length < 2 ^ 31 := by
    have := capacityOf_lt config
    have := h.bounded
    unfold SortedMap.size at this
    omega
  obtain ⟨res, sm', fs', hrun, hres⟩ := S.write h.stored hcov henv s.mem.sorted hlen
  refine ⟨res, sm', fs', hrun, ?_⟩
  rcases hres with ⟨rfl, hne, hst⟩ | ⟨⟨f, rfl⟩, hst⟩
  · exact .inl ⟨decide_eq_true (by rw [hrun]), rfl, hne, hst⟩
  · exact .inr ⟨decide_eq_false (by rw [hrun]; nofun), ⟨f, rfl⟩, hst⟩

/-- **`flushToDisk`** freezes the skip list or throws. -/
theorem flushToDisk_refines (S : StorageSpec Holds Covers) (h : Rep config Holds m fs s)
    (henv : env.NoFault) (hcov : Covers m.m_storageManager env fs s.mem.toList) :
    ∃ res m' fs', m.flushToDisk env fs = (res, m', fs') ∧
      Rep config Holds m' fs' (s.flush (writes m env fs)).2 ∧
      if (s.flush (writes m env fs)).1 then res = .ok none else ∃ f, res = .error f := by
  obtain ⟨res, sm', fs', hrun, hres⟩ := S.writes_cases h henv hcov
  rw [← h.skiplist] at hrun
  rcases hres with ⟨hw, rfl, -, hst⟩ | ⟨hw, ⟨f, rfl⟩, hst⟩
  · obtain ⟨fs'', hrem, hbase, hnames⟩ := remove_ok fs'
    refine ⟨.ok none,
      { m with m_readOnly := false, m_skiplist := SortedMap.empty, m_storageManager := sm' }, fs'',
      ?_, ?_, ?_⟩
    · simp only [MemTableImpl.flushToDisk, hrun, henv.remove, hrem]
    · simp only [Lsm.flush, if_pos hw]
      exact ⟨h.size, rfl, rfl, Nat.zero_le _, S.congr hst hbase fun _ h => hnames ▸ h⟩
    · simp [Lsm.flush, hw]
  · refine ⟨.error f, { m with m_readOnly := true, m_storageManager := sm' }, fs', ?_, ?_, ?_⟩
    · simp only [MemTableImpl.flushToDisk, hrun]
    · simp only [Lsm.flush, hw, Bool.false_eq_true, ↓reduceIte]
      exact ⟨h.size, rfl, h.skiplist, h.bounded, hst⟩
    · simp [Lsm.flush, hw]

theorem zero_le_of_one_le {x : Int32} (h : 1 ≤ x) : 0 ≤ x := by
  rw [Int32.le_iff_toInt_le] at h ⊢
  have h1 : (1 : Int32).toInt = 1 := by decide
  rw [h1] at h
  rw [Int32.toInt_zero]
  omega

theorem toNat_pos_of_one_le {x : Int32} (h : 1 ≤ x) : 0 < x.toInt.toNat := by
  rw [Int32.le_iff_toInt_le] at h
  have h1 : (1 : Int32).toInt = 1 := by decide
  omega

theorem getLength_eq_iff {l : SkipListImpl} (hb : l.size ≤ capacityOf config)
    (hcap : 0 ≤ config.memtableCapacity) :
    l.getLength = some config.memtableCapacity ↔ l.size = capacityOf config := by
  have hlt := capacityOf_lt config
  rw [Int32.le_iff_toInt_le, Int32.toInt_zero] at hcap
  rw [SkipListImpl.getLength, Option.some_inj, ← Int32.toInt_inj,
    Int32.toInt_ofNat_of_lt (by omega)]
  unfold capacityOf
  omega

theorem Rep.full_iff (h : Rep config Holds m fs s) (hcap : 0 ≤ config.memtableCapacity) :
    m.m_skiplist.getLength = some m.m_size ↔ s.mem.size = capacityOf config := by
  rw [h.size, h.skiplist]
  exact getLength_eq_iff h.bounded hcap

theorem logAndSet_refines (S : StorageSpec Holds Covers) (h : Rep config Holds m fs s)
    (henv : env.NoFault) (e : Entry) (hb : (s.mem.insert e).size ≤ capacityOf config) :
    ∃ m' fs', m.logAndSet env e fs = (none, m', fs') ∧
      Rep config Holds m' fs' { s with mem := s.mem.insert e } := by
  refine ⟨{ m with m_skiplist := m.m_skiplist.insert e }, WAL.appendBytes (WAL.record e) fs, ?_, ?_⟩
  · simp only [MemTableImpl.logAndSet, WAL.append, henv.append]
  · refine ⟨h.size, h.readOnly, ?_, hb, S.congr h.stored rfl ?_⟩
    · dsimp only
      rw [h.skiplist]
    · rw [WAL.appendBytes, FileSystem.record_effects, drawnNames_append]
      exact List.subset_append_left _ _

/-- What `put` and `del` have in common behind their tests: a flush when the skip list is full, and
the write of `e`. -/
theorem flushIfFull_refines (S : StorageSpec Holds Covers) (h : Rep config Holds m fs s)
    (hcap : 0 ≤ config.memtableCapacity) (henv : env.NoFault)
    (hcov : s.mem.size = capacityOf config → Covers m.m_storageManager env fs s.mem.toList)
    (e : Entry) :
    (∃ f m' fs', m.flushIfFull env fs = (.error f, m', fs') ∧
      (s.write (capacityOf config) (writes m env fs) e).1 = none ∧
      Rep config Holds m' fs' (s.write (capacityOf config) (writes m env fs) e).2) ∨
    (∃ m' fs' m'' fs'', m.flushIfFull env fs = (.ok none, m', fs') ∧
      m'.logAndSet env e fs' = (none, m'', fs'') ∧
      (s.write (capacityOf config) (writes m env fs) e).1 = some ⟨true, "OK", none⟩ ∧
      Rep config Holds m'' fs'' (s.write (capacityOf config) (writes m env fs) e).2) := by
  unfold MemTableImpl.flushIfFull
  by_cases hfull : s.mem.size = capacityOf config
  · have hcov := hcov hfull
    have hne : writes m env fs s.mem.toList = true → s.mem.toList ≠ [] := by
      intro hw
      obtain ⟨res, sm', fs', -, ⟨-, -, hne, -⟩ | ⟨hw', -, -⟩⟩ := S.writes_cases h henv hcov
      · exact hne
      · rw [hw] at hw'
        cases hw'
    have hsize := Lsm.size_write_le hne h.bounded e
    unfold Lsm.write at hsize ⊢
    simp only [if_pos ((h.full_iff hcap).2 hfull), if_pos hfull] at hsize ⊢
    have h' : Rep config Holds { m with m_readOnly := true } fs { s with readOnly := true } :=
      ⟨h.size, rfl, h.skiplist, h.bounded, h.stored⟩
    obtain ⟨res, m', fs', hrun, hrep, hres⟩ := flushToDisk_refines S h' henv hcov
    cases hw : writes m env fs s.mem.toList with
    | true =>
      have hflush : s.flush (writes m env fs) =
          (true, ⟨false, SortedMap.empty, s.mem.toList :: s.tables⟩) := if_pos hw
      have hflush' : Lsm.flush (writes { m with m_readOnly := true } env fs)
          { s with readOnly := true } =
          (true, ⟨false, SortedMap.empty, s.mem.toList :: s.tables⟩) := if_pos hw
      rw [hflush'] at hrep hres
      obtain rfl : res = .ok none := by simpa using hres
      rw [hflush] at hsize ⊢
      obtain ⟨m'', fs'', hlog, hrep'⟩ := logAndSet_refines S hrep henv e hsize
      exact .inr ⟨m', fs', m'', fs'', hrun, hlog, rfl, hrep'⟩
    | false =>
      have hne : ¬ writes m env fs s.mem.toList = true := by simp [hw]
      have hflush : s.flush (writes m env fs) = (false, { s with readOnly := true }) := if_neg hne
      have hflush' : Lsm.flush (writes { m with m_readOnly := true } env fs)
          { s with readOnly := true } = (false, { s with readOnly := true }) := if_neg hne
      rw [hflush'] at hrep hres
      obtain ⟨f, rfl⟩ : ∃ f, res = .error f := by simpa using hres
      rw [hflush]
      exact .inl ⟨f, m', fs', hrun, rfl, hrep⟩
  · have hins := SortedMap.size_insert_le s.mem e
    have hb := h.bounded
    unfold Lsm.write
    simp only [if_neg fun hf => hfull ((h.full_iff hcap).1 hf), if_neg hfull]
    obtain ⟨m'', fs'', hlog, hrep'⟩ := logAndSet_refines S h henv e (by omega)
    exact .inr ⟨m, fs, m'', fs'', rfl, hlog, trivial, hrep'⟩

end MemTable

/-! ## The database -/

section Db

variable {config : DbFactoryConfig}
  {Holds : StorageManagerImpl → FileSystem → List (List Entry) → Prop}
  {Covers : StorageManagerImpl → Env → FileSystem → List Entry → Prop}
  {m : MemTableImpl StorageManagerImpl} {fs : FileSystem} {s : Lsm} {env : Env}

theorem get_refines (S : StorageSpec Holds Covers) (h : Rep config Holds m fs s) (key : Bytes) :
    DbImpl.get ⟨m⟩ fs key = .ok (readResponse (s.read key)) := by
  have hget : m.get key = s.mem.find? key := by rw [MemTableImpl.get, h.skiplist]
  have hst : StorageManager.get m.m_storageManager fs key = _ := S.get_eq h.stored key
  simp only [DbImpl.get, hget, Lsm.read, Lsm.find]
  cases s.mem.find? key with
  | some e =>
    rw [Option.some_or, live_some]
    dsimp only
    cases e.tombstone <;> rfl
  | none =>
    rw [Option.none_or, hst]
    cases live (firstEntry s.tables key) <;> rfl

/-- A call starts a flush in the code exactly when it does in the abstract machine. -/
theorem startsFlush_iff (S : StorageSpec Holds Covers) (h : Rep config Holds m fs s)
    (hcap : 0 ≤ config.memtableCapacity) (c : Call) :
    DbImpl.StartsFlush ⟨m⟩ fs c ↔ s.StartsFlush (capacityOf config) c := by
  have hfull := h.full_iff hcap
  rw [h.skiplist] at hfull
  cases c with
  | put key val => simp only [DbImpl.StartsFlush, Lsm.StartsFlush, h.skiplist, hfull, h.readOnly]
  | get key => rfl
  | del key =>
    have hst : StorageManager.get m.m_storageManager fs key = _ := S.get_eq h.stored key
    simp only [DbImpl.StartsFlush, Lsm.StartsFlush, h.skiplist, hfull, h.readOnly, MemTableImpl.get,
      hst, Lsm.present, Bool.or_eq_true, Option.isSome_iff_exists, Except.ok.injEq]
  | forceFlushForTests => rfl
  | forceCompactForTests => rfl

theorem put_refines (S : StorageSpec Holds Covers) (h : Rep config Holds m fs s)
    (hcap : 0 ≤ config.memtableCapacity) (henv : env.NoFault) {key val : Bytes}
    (hcov : s.StartsFlush (capacityOf config) (.put key val) →
      Covers m.m_storageManager env fs s.mem.toList) :
    (DbImpl.put ⟨m⟩ env key val fs).1.toOption =
        (s.step (capacityOf config) (writes m env fs) (.put key val)).1 ∧
      Rep config Holds (DbImpl.put ⟨m⟩ env key val fs).2.1.m_memTable
        (DbImpl.put ⟨m⟩ env key val fs).2.2
        (s.step (capacityOf config) (writes m env fs) (.put key val)).2 := by
  cases hro : s.readOnly with
  | true =>
    simp only [DbImpl.put, MemTableImpl.put, h.readOnly, hro, Lsm.step, ↓reduceIte]
    exact ⟨rfl, h⟩
  | false =>
    simp only [DbImpl.put, MemTableImpl.put, h.readOnly, hro, Lsm.step, Bool.false_eq_true,
      ↓reduceIte]
    rcases flushIfFull_refines S h hcap henv (fun hfull => hcov ⟨hro, hfull⟩) ⟨key, val, false⟩ with
      ⟨f, m', fs', hfl, hres, hrep⟩ | ⟨m', fs', m'', fs'', hfl, hlog, hres, hrep⟩
    · simp only [hfl, hres]
      exact ⟨rfl, hrep⟩
    · simp only [hfl, hlog, hres]
      exact ⟨rfl, hrep⟩

theorem delExisting_refines (S : StorageSpec Holds Covers) (h : Rep config Holds m fs s)
    (hcap : 0 ≤ config.memtableCapacity) (henv : env.NoFault) (key : Bytes)
    (hcov : s.readOnly = false → s.mem.size = capacityOf config →
      Covers m.m_storageManager env fs s.mem.toList) :
    (s.readOnly = true ∧ m.delExisting env key fs =
      (.ok (some ⟨"Cannot DELETE: memtable in read-only mode"⟩), m, fs)) ∨
    (s.readOnly = false ∧
      ((∃ f m' fs', m.delExisting env key fs = (.error f, m', fs') ∧
        (s.write (capacityOf config) (writes m env fs) ⟨key, "val", true⟩).1 = none ∧
        Rep config Holds m' fs'
          (s.write (capacityOf config) (writes m env fs) ⟨key, "val", true⟩).2) ∨
      (∃ m' fs', m.delExisting env key fs = (.ok none, m', fs') ∧
        (s.write (capacityOf config) (writes m env fs) ⟨key, "val", true⟩).1 =
          some ⟨true, "OK", none⟩ ∧
        Rep config Holds m' fs'
          (s.write (capacityOf config) (writes m env fs) ⟨key, "val", true⟩).2))) := by
  cases hro : s.readOnly with
  | true =>
    refine .inl ⟨rfl, ?_⟩
    rw [MemTableImpl.delExisting, if_pos (h.readOnly.trans hro)]
  | false =>
    refine .inr ⟨rfl, ?_⟩
    simp only [MemTableImpl.delExisting, h.readOnly.trans hro, Bool.false_eq_true, ↓reduceIte]
    rcases flushIfFull_refines S h hcap henv (hcov hro) ⟨key, "val", true⟩ with
      ⟨f, m', fs', hfl, hres, hrep⟩ | ⟨m', fs', m'', fs'', hfl, hlog, hres, hrep⟩
    · simp only [hfl]
      exact .inl ⟨f, m', fs', rfl, hres, hrep⟩
    · simp only [hfl, hlog]
      exact .inr ⟨m'', fs'', rfl, hres, hrep⟩

theorem del_refines (S : StorageSpec Holds Covers) (h : Rep config Holds m fs s)
    (hcap : 0 ≤ config.memtableCapacity) (henv : env.NoFault) {key : Bytes}
    (hcov : s.StartsFlush (capacityOf config) (.del key) →
      Covers m.m_storageManager env fs s.mem.toList) :
    (DbImpl.del ⟨m⟩ env key fs).1.toOption =
        (s.step (capacityOf config) (writes m env fs) (.del key)).1 ∧
      Rep config Holds (DbImpl.del ⟨m⟩ env key fs).2.1.m_memTable (DbImpl.del ⟨m⟩ env key fs).2.2
        (s.step (capacityOf config) (writes m env fs) (.del key)).2 := by
  have hget : m.get key = s.mem.find? key := by rw [MemTableImpl.get, h.skiplist]
  have hst : StorageManager.get m.m_storageManager fs key = _ := S.get_eq h.stored key
  by_cases hp : s.present key = true
  · -- the key is found, in the skip list or in a table
    have hdel : m.del env key fs = m.delExisting env key fs := by
      simp only [MemTableImpl.del, hget, hst]
      simp only [Lsm.present, Bool.or_eq_true] at hp
      cases hm : s.mem.find? key with
      | some e => rfl
      | none =>
        rw [hm] at hp
        obtain ⟨e, he⟩ := Option.isSome_iff_exists.1 (hp.resolve_left (by simp))
        simp only [he]
    simp only [DbImpl.del, Lsm.step, hp, Bool.not_true, Bool.false_eq_true, ↓reduceIte, hdel]
    rcases delExisting_refines S h hcap henv key (fun hro hfull => hcov ⟨hp, hro, hfull⟩) with
      ⟨hro, hrun⟩ | ⟨hro, hrun⟩
    · simp only [hrun, hro, ↓reduceIte]
      exact ⟨rfl, h⟩
    · rcases hrun with ⟨f, m', fs', hrun, hres, hrep⟩ | ⟨m', fs', hrun, hres, hrep⟩
      · simp only [hrun, hro, Bool.false_eq_true, ↓reduceIte, hres]
        exact ⟨rfl, hrep⟩
      · simp only [hrun, hro, Bool.false_eq_true, ↓reduceIte, hres]
        exact ⟨rfl, hrep⟩
  · have hp' : s.present key = false := by simpa using hp
    simp only [Lsm.present, Bool.or_eq_false_iff, Option.isSome_eq_false_iff,
      Option.isNone_iff_eq_none] at hp'
    rw [hp'.1] at hget
    rw [hp'.2] at hst
    simp only [DbImpl.del, MemTableImpl.del, hget, hst, Lsm.step, hp, Bool.not_false, ↓reduceIte]
    exact ⟨rfl, h⟩

/-- **Every call** answers as the abstract machine does and keeps the representation. -/
theorem step_refines (S : StorageSpec Holds Covers) (hcap : 0 ≤ config.memtableCapacity)
    {x : DbImpl StorageManagerImpl × FileSystem} {c : Call × Env}
    (h : Rep config Holds x.1.m_memTable x.2 s) (henv : c.2.NoFault)
    (hcov : s.StartsFlush (capacityOf config) c.1 →
      Covers x.1.m_memTable.m_storageManager c.2 x.2 s.mem.toList) :
    (DbImpl.step x c).1.toOption =
        (s.step (capacityOf config) (writes x.1.m_memTable c.2 x.2) c.1).1 ∧
      Rep config Holds (DbImpl.step x c).2.1.m_memTable (DbImpl.step x c).2.2
        (s.step (capacityOf config) (writes x.1.m_memTable c.2 x.2) c.1).2 := by
  obtain ⟨⟨m⟩, fs⟩ := x
  obtain ⟨c, env⟩ := c
  cases c with
  | put key val => exact put_refines S h hcap henv hcov
  | get key =>
    refine ⟨?_, h⟩
    simp only [DbImpl.step, DbImpl.call, get_refines S h]
    rfl
  | del key => exact del_refines S h hcap henv hcov
  | forceFlushForTests =>
    obtain ⟨res, m', fs', hrun, hrep, hres⟩ := flushToDisk_refines S h henv (hcov trivial)
    simp only [DbImpl.step, DbImpl.call, DbImpl.forceFlushForTests, hrun, Lsm.step]
    dsimp only at hrep hres ⊢
    cases hf : (s.flush (writes m env fs)).1 with
    | true =>
      rw [hf, if_pos rfl] at hres
      subst hres
      exact ⟨rfl, hrep⟩
    | false =>
      rw [hf] at hres
      obtain ⟨f, rfl⟩ : ∃ f, res = .error f := by simpa using hres
      exact ⟨rfl, hrep⟩
  | forceCompactForTests =>
    refine ⟨?_, h⟩
    have hc : StorageManager.compact m.m_storageManager = _ := S.compact_eq h.stored
    simp only [DbImpl.step, DbImpl.call, DbImpl.forceCompactForTests, hc]
    rfl

end Db

end TinyKv
