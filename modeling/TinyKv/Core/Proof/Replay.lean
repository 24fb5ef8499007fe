import TinyKv.Core.Proof.LogMirror
import TinyKv.Core.Proof.Reload
import TinyKv.Wal.Proof.ReadBack
import Mathlib.Tactic.IntervalCases

/-!
# Replaying the log

`replayWal` sets the entries of the log one by one and flushes whenever the skip list is full, so
one log is spread over several tables. The tables go in front of level 0 in the order of the log:
after the replay every key reads as its last entry says, and a key without one as before
(`replayWal_redoes`).

* `ReplayInvariant`: what has to be kept by a flush and by a set, to be kept by a replay
  (`ReplayInvariant.replay`).
* `Replaying`: the skip list over the new tables over the old ones, after a part of the log.
-/

namespace TinyKv

open Bytes

/-! ## The loop -/

theorem getLength_pos_iff {l : SkipListImpl} {size : Int32} (hb : l.size ≤ size.toInt.toNat) :
    l.getLength.any (0 < ·) = true ↔ l.toList ≠ [] := by
  have hlt := size.toInt_lt
  have hlen : l.size = 0 ↔ l.toList = [] := List.length_eq_zero_iff
  rw [SkipListImpl.getLength, Option.any_some, decide_eq_true_iff, Int32.lt_iff_toInt_lt,
    Int32.toInt_ofNat_of_lt (by omega), Int32.toInt_zero, ne_eq, ← hlen]
  omega

theorem flushable_of_bounded {l : SkipListImpl} {size : Int32} (hb : l.size ≤ size.toInt.toNat)
    (hlog : ∀ e ∈ l.toList, e.Loggable) : Flushable l.toList := by
  refine ⟨l.sorted, ?_, hlog⟩
  have := size.toInt_lt
  unfold SortedMap.size at hb
  omega

theorem loggable_insert {l : SkipListImpl} (hlog : ∀ e ∈ l.toList, e.Loggable) {e : Entry}
    (he : e.Loggable) : ∀ x ∈ (l.insert e).toList, x.Loggable := by
  intro x hx
  rcases SortedMap.mem_insert hx with rfl | hx
  · exact he
  · exact hlog x hx

theorem remove_ok_wal (fs : FileSystem) : ∃ fs', WAL.remove none fs = (none, fs') ∧
    fs'.base = fs.base ∧ fs'.wal = none := by
  unfold WAL.remove
  cases hw : fs.wal with
  | none => exact ⟨fs, rfl, rfl, hw⟩
  | some bs => exact ⟨_, rfl, rfl, rfl⟩

/-- What a replay of `n` entries keeps: `I m fs i done` after the entries `done`, where the first `i`
environments have been used. -/
structure ReplayInvariant {σ : Type} [StorageManager σ] (size : Int32) (env : Nat → Env) (n : Nat)
    (I : MemTableImpl σ → FileSystem → Nat → List Entry → Prop) : Prop where
  capacity : ∀ {m fs i done}, I m fs i done → m.m_size = size
  bounded : ∀ {m fs i done}, I m fs i done → m.m_skiplist.size ≤ size.toInt.toNat
  skip : ∀ {m fs i done}, I m fs i done → I m fs (i + 1) done
  set : ∀ {m fs i done e}, I m fs i done → e.Loggable → m.m_skiplist.size < size.toInt.toNat →
    I { m with m_skiplist := m.m_skiplist.insert e } fs i (done ++ [e])
  flush : ∀ {m fs i done}, I m fs i done → i ≤ n → m.m_skiplist.toList ≠ [] →
    ∃ m' fs', m.flushToDisk (env i) fs = (.ok none, m', fs') ∧ I m' fs' (i + 1) done ∧
      m'.m_skiplist = SortedMap.empty
  release : ∀ {m fs i done fs'}, I m fs i done → fs'.base = fs.base →
    I { m with m_readOnly := false } fs' i done

namespace ReplayInvariant

variable {σ : Type} [StorageManager σ] {size : Int32} {env : Nat → Env} {n : Nat}
  {I : MemTableImpl σ → FileSystem → Nat → List Entry → Prop} {m : MemTableImpl σ} {fs : FileSystem}
  {i : Nat} {done : List Entry}

theorem full_iff (R : ReplayInvariant size env n I) (h : I m fs i done) (hsize : 1 ≤ size) :
    m.m_skiplist.getLength = some m.m_size ↔ m.m_skiplist.size = size.toInt.toNat := by
  rw [R.capacity h]
  exact @getLength_eq_iff { memtableCapacity := size } _ (R.bounded h) (zero_le_of_one_le hsize)

/-- **The loop of `replayWal`**, from the entry with the number `i` on. -/
theorem entries (R : ReplayInvariant size env n I) (hsize : 1 ≤ size) {entries : List Entry}
    (hlog : ∀ e ∈ entries, e.Loggable) (h : I m fs i done) (hn : i + entries.length ≤ n) :
    ∃ m' fs', m.replayEntries env i fs entries = (.ok (), m', fs') ∧
      I m' fs' (i + entries.length) (done ++ entries) := by
  have hpos := toNat_pos_of_one_le hsize
  induction entries generalizing m fs i done with
  | nil => exact ⟨m, fs, rfl, by simpa using h⟩
  | cons e entries ih =>
    have he := hlog e List.mem_cons_self
    have hrest : ∀ e ∈ entries, e.Loggable := fun x hx => hlog x (List.mem_cons_of_mem _ hx)
    have hlen : i + (e :: entries).length = i + 1 + entries.length := by
      rw [List.length_cons]
      omega
    have happ : done ++ e :: entries = done ++ [e] ++ entries := by simp
    rw [hlen] at hn ⊢
    rw [happ, MemTableImpl.replayEntries]
    by_cases hfull : m.m_skiplist.size = size.toInt.toNat
    · rw [if_pos ((R.full_iff h hsize).2 hfull)]
      have hne : m.m_skiplist.toList ≠ [] := by
        intro hnil
        rw [SortedMap.size, hnil, List.length_nil] at hfull
        omega
      obtain ⟨m', fs', hrun, h', hempty⟩ := R.flush h (by omega) hne
      have hroom : m'.m_skiplist.size < size.toInt.toNat := by
        rw [hempty]
        exact hpos
      rw [hrun]
      exact ih hrest (R.set h' he hroom) hn
    · rw [if_neg fun hl => hfull ((R.full_iff h hsize).1 hl)]
      have hlt : m.m_skiplist.size < size.toInt.toNat := lt_of_le_of_ne (R.bounded h) hfull
      exact ih hrest (R.set (R.skip h) he hlt) hn

/-- **The end of `replayWal`**: everything is in tables and the log is gone. -/
theorem finish (R : ReplayInvariant size env n I) (henv : (env i).NoFault) (h : I m fs i done)
    (hn : i ≤ n) :
    ∃ m' fs', m.finishReplay (env i) fs = (.ok none, m', fs') ∧ I m' fs' (i + 1) done ∧
      m'.m_skiplist = SortedMap.empty ∧ m'.m_readOnly = false ∧ fs'.wal = none := by
  have hremove : ∀ {m : MemTableImpl σ} {fs : FileSystem}, I m fs (i + 1) done →
      m.m_skiplist = SortedMap.empty →
      ∃ m' fs', (Except.ok none, { m with m_readOnly := false },
          (WAL.remove (env i).removeFault fs).2) = ((.ok none : Except Fault (Option Error)), m', fs') ∧
        I m' fs' (i + 1) done ∧ m'.m_skiplist = SortedMap.empty ∧ m'.m_readOnly = false ∧
        fs'.wal = none := by
    intro m fs h hempty
    obtain ⟨fs', hrem, hbase, hwal⟩ := remove_ok_wal fs
    rw [henv.remove, hrem]
    exact ⟨_, fs', rfl, R.release h hbase, hempty, rfl, hwal⟩
  unfold MemTableImpl.finishReplay
  dsimp only
  by_cases hne : m.m_skiplist.toList = []
  · rw [if_neg fun hp => (getLength_pos_iff (R.bounded h)).1 hp hne]
    exact hremove (R.skip h) (SortedMap.ext hne)
  · rw [if_pos ((getLength_pos_iff (R.bounded h)).2 hne)]
    obtain ⟨m', fs', hrun, h', hempty⟩ := R.flush h hn hne
    rw [hrun]
    exact hremove h' hempty

/-- **A replay** of a log that can be read. -/
theorem replay (R : ReplayInvariant size env n I) (hsize : 1 ≤ size) (henv : (env n).NoFault)
    {entries : List Entry} (hentries : WAL.getEntries fs = some entries) (hn : entries.length = n)
    (h : I { m with m_readOnly := true } fs 0 []) :
    ∃ m' fs', m.replayWal env fs = (.ok none, m', fs') ∧ I m' fs' (n + 1) entries ∧
      m'.m_skiplist = SortedMap.empty ∧ m'.m_readOnly = false ∧ fs'.wal = none := by
  subst hn
  have hlog : ∀ e ∈ entries, e.Loggable := by
    rw [WAL.getEntries_eq] at hentries
    exact WAL.loggable_of_readRecords _ hentries
  obtain ⟨m1, fs1, hloop, h1⟩ := R.entries hsize hlog h (by omega)
  rw [Nat.zero_add, List.nil_append] at h1
  obtain ⟨m', fs', hfinish, h'⟩ := R.finish henv h1 le_rfl
  refine ⟨m', fs', ?_, h'⟩
  simp only [MemTableImpl.replayWal, hentries, hloop, hfinish]

end ReplayInvariant

/-! ## A flush -/

/-- A manager for each level, with tables in level 0 only. -/
structure OnlyLevel0 (sm : StorageManagerImpl) (fs : FileSystem) (readers : List TableReader)
    (d : Dir) : Prop where
  managers : ∃ rest, sm.m_levelManagers = sm.level0 readers :: rest ∧
    ∀ lm ∈ rest, lm.m_tableReaders = []
  dir : fs.dir? (levelName 0) = some d

section

variable {m : MemTableImpl StorageManagerImpl} {fs : FileSystem} {readers : List TableReader}
  {tables : List (List Entry)} {d : Dir} {env : Env}

/-- **A flush under a new name** moves the skip list in front of the tables. -/
theorem flushToDisk_level0 (h : OnlyLevel0 m.m_storageManager fs readers d)
    (hs : ServesAll fs readers tables) (henv : env.NoFault)
    (hfresh : d.find? (generateSSTableFileName env) = none) (hf : Flushable m.m_skiplist.toList)
    (hne : m.m_skiplist.toList ≠ []) :
    ∃ r sm' fs' content, m.flushToDisk env fs = (.ok none, { m with
        m_skiplist := SortedMap.empty, m_readOnly := false, m_storageManager := sm' }, fs') ∧
      OnlyLevel0 sm' fs' (r :: readers)
        (d.insert (generateSSTableFileName env, .regular content)) ∧
      ServesAll fs' (r :: readers) (m.m_skiplist.toList :: tables) ∧ fs'.wal = none := by
  obtain ⟨rest, hm, hrest⟩ := h.managers
  obtain ⟨r, hrun, hserves, -⟩ := StorageManagerImpl.writeLevel0_eq hm h.dir
    (fun p hp => by rw [hfresh] at hp; cases hp) henv
    (TableFormatKind.writable_of_small hne hf.small) hf.sorted hf.length
    (hf.size_lt m.m_storageManager.m_tableFormat _ _)
  have hwrite : StorageManager.write m.m_storageManager env m.m_skiplist.toList fs =
      m.m_storageManager.writeLevel0 env m.m_skiplist.toList fs := by
    show m.m_storageManager.write env m.m_skiplist.toList fs = _
    rw [StorageManagerImpl.write, if_neg (by simp [hm])]
  obtain ⟨fs', hrem, hbase, hwal⟩ :=
    remove_ok_wal (m.m_storageManager.written env m.m_skiplist.toList d fs)
  have hfile : (m.m_storageManager.written env m.m_skiplist.toList d fs).Le fs' := by
    intro l n c hc
    simpa only [FileSystem.file?, FileSystem.dir?, hbase] using hc
  refine ⟨r, { m.m_storageManager with
      m_systemContext := m.m_storageManager.m_systemContext.next.2
      m_levelManagers := m.m_storageManager.level0 (r :: readers) :: rest },
    fs', m.m_storageManager.newContent env m.m_skiplist.toList, ?_, ⟨⟨rest, rfl, hrest⟩, ?_⟩, ?_,
    hwal⟩
  · simp only [MemTableImpl.flushToDisk, hwrite, hrun, henv.remove, hrem]
  · rw [FileSystem.dir?, hbase]
    exact (FileSystem.dir?_setDir ..).trans (if_pos rfl)
  · have hle : fs.Le (m.m_storageManager.written env m.m_skiplist.toList _ fs) :=
      StorageManagerImpl.le_written h.dir hfresh
    exact .cons (hserves.mono hfile) (hs.mono (hle.trans hfile))

end

/-! ## Replaying over tables in level 0 -/

section Loop

variable {size : Int32} {tables₀ : List (List Entry)} {d₀ : Dir} {env : Nat → Env}
  {m : MemTableImpl StorageManagerImpl} {fs : FileSystem} {i : Nat} {done : List Entry}

/-- After the entries `done`, over a storage with the tables `tables₀` in the directory `d₀`: the
skip list over the tables reads as `done` over `tables₀`, and the new files have names of the first
`i` environments. -/
structure Replaying (size : Int32) (tables₀ : List (List Entry)) (d₀ : Dir) (env : Nat → Env)
    (m : MemTableImpl StorageManagerImpl) (fs : FileSystem) (i : Nat) (done : List Entry) : Prop where
  capacity : m.m_size = size
  bounded : m.m_skiplist.size ≤ size.toInt.toNat
  loggable : ∀ e ∈ m.m_skiplist.toList, e.Loggable
  storage : ∃ readers tables d, OnlyLevel0 m.m_storageManager fs readers d ∧
    ServesAll fs readers tables ∧
    (∀ p ∈ d.toList, p ∈ d₀.toList ∨ ∃ j < i, p.1 = generateSSTableFileName (env j)) ∧
    ∀ k, (m.m_skiplist.find? k).or (firstEntry tables k) =
      (lookup done.reverse k).or (firstEntry tables₀ k)

/-- The environments from `i` to `n` name their tables apart, from each other and from what is in
the directory already. -/
structure NamesApart (d₀ : Dir) (env : Nat → Env) (n : Nat) : Prop where
  distinct : ∀ i j, i < j → j ≤ n →
    generateSSTableFileName (env i) ≠ generateSSTableFileName (env j)
  fresh : ∀ i ≤ n, d₀.find? (generateSSTableFileName (env i)) = none

theorem Replaying.mono (h : Replaying size tables₀ d₀ env m fs i done) {i' : Nat} (hi : i ≤ i') :
    Replaying size tables₀ d₀ env m fs i' done := by
  obtain ⟨readers, tables, d, hl, hs, hnames, hfind⟩ := h.storage
  refine ⟨h.capacity, h.bounded, h.loggable, readers, tables, d, hl, hs, fun p hp => ?_, hfind⟩
  exact (hnames p hp).imp id fun ⟨j, hj, he⟩ => ⟨j, by omega, he⟩

/-- **A flush in the middle**: the skip list becomes a table. -/
theorem Replaying.flush (h : Replaying size tables₀ d₀ env m fs i done) (henv : (env i).NoFault)
    {n : Nat} (hnames : NamesApart d₀ env n) (hi : i ≤ n) (hne : m.m_skiplist.toList ≠ []) :
    ∃ sm' fs', m.flushToDisk (env i) fs = (.ok none, { m with
        m_skiplist := SortedMap.empty, m_readOnly := false, m_storageManager := sm' }, fs') ∧
      Replaying size tables₀ d₀ env { m with
        m_skiplist := SortedMap.empty, m_readOnly := false, m_storageManager := sm' } fs' (i + 1)
        done ∧ fs'.wal = none := by
  obtain ⟨readers, tables, d, hl, hs, hold, hfind⟩ := h.storage
  have hfresh : d.find? (generateSSTableFileName (env i)) = none := by
    apply Keyed.lookup_eq_none.2
    intro p hp he
    rcases hold p hp with hp | ⟨j, hj, hpj⟩
    · exact Keyed.lookup_eq_none.1 (hnames.fresh i hi) p hp he
    · exact hnames.distinct j i hj hi (hpj.symm.trans he)
  obtain ⟨r, sm', fs', content, hrun, hl', hs', hwal⟩ :=
    flushToDisk_level0 hl hs henv hfresh (flushable_of_bounded h.bounded h.loggable) hne
  refine ⟨sm', fs', hrun, ⟨h.capacity, Nat.zero_le _, nofun, _, _, _, hl', hs', fun p hp => ?_,
    fun k => ?_⟩, hwal⟩
  · rcases SortedMap.mem_insert hp with rfl | hp
    · exact .inr ⟨i, by omega, rfl⟩
    · exact (hold p hp).imp id fun ⟨j, hj, he⟩ => ⟨j, by omega, he⟩
  · rw [SortedMap.find?_empty, Option.none_or, firstEntry_cons]
    exact hfind k

/-- **`m_skiplist.set`** of the next entry. -/
theorem Replaying.set (h : Replaying size tables₀ d₀ env m fs i done) {e : Entry} (he : e.Loggable)
    (hroom : m.m_skiplist.size < size.toInt.toNat) :
    Replaying size tables₀ d₀ env { m with m_skiplist := m.m_skiplist.insert e } fs i
      (done ++ [e]) := by
  obtain ⟨readers, tables, d, hl, hs, hnames, hfind⟩ := h.storage
  refine ⟨h.capacity, ?_, loggable_insert h.loggable he, readers, tables, d, hl, hs, hnames,
    fun k => ?_⟩
  · have := SortedMap.size_insert_le m.m_skiplist e
    dsimp only
    omega
  · rw [List.reverse_append, List.reverse_singleton, List.singleton_append, lookup,
      Keyed.lookup_cons]
    dsimp only
    rw [SortedMap.find?_insert]
    split
    · rfl
    · exact hfind k

/-- **A replay under names of their own** keeps the entries of the log in front of the tables. -/
theorem replayInvariant_replaying (henv : ∀ i, (env i).NoFault) {n : Nat}
    (hnames : NamesApart d₀ env n) :
    ReplayInvariant size env n (Replaying size tables₀ d₀ env) := by
  refine ⟨fun h => h.capacity, fun h => h.bounded, fun h => h.mono (Nat.le_succ _),
    fun h he hroom => h.set he hroom, fun h hi hne => ?_, fun h hbase => ?_⟩
  · obtain ⟨sm', fs', hrun, h', -⟩ := h.flush (henv _) hnames hi hne
    exact ⟨_, fs', hrun, h', rfl⟩
  · obtain ⟨readers, tables, d, hl, hs, hold, hfind⟩ := h.storage
    refine ⟨h.capacity, h.bounded, h.loggable, readers, tables, d, ⟨hl.managers, ?_⟩,
      hs.mono fun l n c hc => ?_, hold, hfind⟩
    · rw [← hl.dir, FileSystem.dir?, FileSystem.dir?, hbase]
    · simpa only [FileSystem.file?, FileSystem.dir?, hbase] using hc

end Loop

theorem get_of_empty {m : MemTableImpl StorageManagerImpl} {fs : FileSystem}
    {readers : List TableReader} {tables : List (List Entry)} {d : Dir}
    (hempty : m.m_skiplist = SortedMap.empty) (h : OnlyLevel0 m.m_storageManager fs readers d)
    (hs : ServesAll fs readers tables) (k : Bytes) :
    DbImpl.get ⟨m⟩ fs k = .ok (readResponse ((live (firstEntry tables k)).map Entry.val)) := by
  obtain ⟨rest, hm, hrest⟩ := h.managers
  have hget : StorageManager.get m.m_storageManager fs k = .ok (live (firstEntry tables k)) :=
    StorageManagerImpl.get_level0 hm hrest hs k
  simp only [DbImpl.get, MemTableImpl.get, hempty, SortedMap.find?_empty, hget]
  cases live (firstEntry tables k) <;> rfl

/-- **Replaying a log redoes its operations.** -/
theorem replayWal_redoes {m : MemTableImpl StorageManagerImpl} {fs : FileSystem}
    {readers : List TableReader} {tables : List (List Entry)} {d : Dir} {entries : List Entry}
    {env : Nat → Env} (hsize : 1 ≤ m.m_size) (hempty : m.m_skiplist = SortedMap.empty)
    (hentries : WAL.getEntries fs = some entries)
    (hstorage : OnlyLevel0 m.m_storageManager fs readers d) (hserves : ServesAll fs readers tables)
    (henv : ∀ i, (env i).NoFault) (hnames : NamesApart d env entries.length) :
    ∃ m' fs', m.replayWal env fs = (.ok none, m', fs') ∧
      (∀ k, DbImpl.get ⟨m'⟩ fs' k = match lookup entries.reverse k with
        | some e =>
          .ok (if e.tombstone then ⟨false, "Key does not exist", none⟩
            else ⟨true, "OK", some e.val⟩)
        | none => DbImpl.get ⟨m⟩ fs k) ∧
      m'.m_skiplist = SortedMap.empty ∧ fs'.wal = none ∧ m'.m_readOnly = false := by
  have hstart : Replaying m.m_size tables d env { m with m_readOnly := true } fs 0 [] := by
    refine ⟨rfl, ?_, ?_, readers, tables, d, hstorage, hserves, fun p hp => .inl hp, fun k => ?_⟩
    · rw [hempty]
      exact Nat.zero_le _
    · rw [hempty]
      exact nofun
    · rw [hempty]
      rfl
  obtain ⟨m', fs', hrun, h', hempty', hro, hwal⟩ :=
    (replayInvariant_replaying henv hnames).replay hsize (henv _) hentries rfl hstart
  refine ⟨m', fs', hrun, fun k => ?_, hempty', hwal, hro⟩
  obtain ⟨readers', tables', d', hl', hs', -, hfind⟩ := h'.storage
  have hk := hfind k
  rw [hempty', SortedMap.find?_empty, Option.none_or] at hk
  rw [get_of_empty hempty' hl' hs', get_of_empty hempty hstorage hserves, hk]
  cases hlast : lookup entries.reverse k with
  | none => rfl
  | some e =>
    rw [Option.some_or, live_some]
    cases he : e.tombstone <;> simp [he, readResponse]

/-- A memtable of one entry over a table with `a`, and a log that overwrites and deletes. -/
def replaySample : MemTableImpl StorageManagerImpl × FileSystem :=
  ({ m_size := 1
     m_storageManager :=
      { m_maxLevel := 0
        m_basePath := ""
        m_tableFormat := .InMemory
        m_levelManagers := [⟨0, "", [.inMemory ⟨⟨0, 0, "a", "a"⟩, [⟨"a", "0", false⟩]⟩]⟩] }
     m_wal := ⟨"./wal", 0⟩ },
   { LevelManagerImpl.newLevelDisk with
     wal := some ([⟨"b", "1", false⟩, ⟨"b", "2", false⟩, ⟨"a", "", true⟩].flatMap WAL.record) })

theorem getEntries_replaySample : WAL.getEntries replaySample.2 =
    some [⟨"b", "1", false⟩, ⟨"b", "2", false⟩, ⟨"a", "", true⟩] := by
  have hlog := @WAL.readRecords_log [⟨"b", "1", false⟩, ⟨"b", "2", false⟩, ⟨"a", "", true⟩]
    (by decide) [] rfl
  rw [List.append_nil] at hlog
  rw [WAL.getEntries_eq]
  exact hlog

theorem replayWal_redoes_spread :
    ∃ m' fs', replaySample.1.replayWal (fun i => { nameCounter := UInt64.ofNat i }) replaySample.2 =
        (.ok none, m', fs') ∧
      DbImpl.get ⟨m'⟩ fs' "b" = .ok ⟨true, "OK", some (ofString "2")⟩ ∧
      DbImpl.get ⟨m'⟩ fs' "a" = .ok ⟨false, "Key does not exist", none⟩ := by
  obtain ⟨m', fs', hrun, hget, -⟩ := @replayWal_redoes replaySample.1 replaySample.2
    [.inMemory ⟨⟨0, 0, "a", "a"⟩, [⟨"a", "0", false⟩]⟩] [[⟨"a", "0", false⟩]] SortedMap.empty
    [⟨"b", "1", false⟩, ⟨"b", "2", false⟩, ⟨"a", "", true⟩]
    (fun i => { nameCounter := UInt64.ofNat i }) (by decide) rfl getEntries_replaySample
    ⟨⟨[], rfl, nofun⟩, by decide +kernel⟩
    (.cons (.inMemory (by decide) (by decide) (by decide)) .nil) (fun _ => ⟨fun _ => rfl, rfl, rfl⟩)
    ⟨fun i j hij hj => by
      simp only [List.length_cons, List.length_nil] at hj
      interval_cases j <;> interval_cases i <;> decide +kernel, fun _ _ => rfl⟩
  exact ⟨m', fs', hrun, hget "b", hget "a"⟩

end TinyKv
