import TinyKv.Core.Proof.Recovery

/-!
# A crash in a replay

`replayWal` removes the log with every flush, and what it has not yet flushed is then in memory only:
were the log larger than a memtable, a crash between two of its flushes would lose the rest. The logs
that the database leaves are not, since a full memtable is flushed before the next record is appended
(`LogFits`, kept by every call at each of its effects: `step_fits`, `run_fits`). The replay of such a
log is one flush, and a crash at any of its effects changes no read (`replayWal_safe`).
-/

namespace TinyKv

open Bytes

/-- A memtable that takes the records of the log is not full before the last one. -/
def LogFits (config : DbFactoryConfig) (wal : Option Bytes) : Prop :=
  ∃ entries, WAL.readRecords (wal.getD []) = some entries ∧
    (SortedMap.empty.insertAll entries.dropLast : SkipListImpl).size < capacityOf config

theorem LogFits.none {config : DbFactoryConfig} (hcap : 1 ≤ config.memtableCapacity) :
    LogFits config none :=
  ⟨[], WAL.readRecords_tail rfl, toNat_pos_of_one_le hcap⟩

theorem size_insertAll_dropLast_le (l : SkipListImpl) (entries : List Entry) :
    (l.insertAll entries.dropLast).size ≤ (l.insertAll entries).size := by
  induction entries using List.reverseRecOn with
  | nil => exact Nat.le_refl _
  | append_singleton entries e _ =>
    rw [List.dropLast_concat, SortedMap.insertAll, SortedMap.insertAll, List.foldl_concat]
    exact SortedMap.size_le_insert _ _

theorem size_insertAll_le_dropLast (l : SkipListImpl) (entries : List Entry) :
    (l.insertAll entries).size ≤ (l.insertAll entries.dropLast).size + 1 := by
  induction entries using List.reverseRecOn with
  | nil => exact Nat.le_succ _
  | append_singleton entries e _ =>
    rw [List.dropLast_concat, SortedMap.insertAll, SortedMap.insertAll, List.foldl_concat]
    exact SortedMap.size_insert_le _ _

theorem Safe.last {G : Disk → Prop} {a b : List Effect} (h : Safe G a b) : G (Disk.after b) :=
  h.2 b (.between h.1 (List.prefix_refl b))

/-! ## A flush -/

section Flush

variable {config : DbFactoryConfig} {m : MemTableImpl StorageManagerImpl} {fs : FileSystem}
  {G : Disk → Prop}

/-- What a flush or a replay comes to, with `G` at every point of the way. -/
structure Keeps (G : Disk → Prop) (m : MemTableImpl StorageManagerImpl) (fs : FileSystem)
    (res : Except Fault (Option Error)) (m' : MemTableImpl StorageManagerImpl) (fs' : FileSystem) :
    Prop where
  safe : Safe G fs.effects fs'.effects
  wal : (Disk.after fs'.effects).wal = fs'.wal
  log : fs'.wal = fs.wal ∨ fs'.wal = none
  size : m'.m_size = m.m_size
  tableFormat : m'.m_storageManager.m_tableFormat = m.m_storageManager.m_tableFormat
  flushed : res = .ok none → m'.m_skiplist = SortedMap.empty

/-- **What a crash in a flush may leave**: the disk of before, the table on it, or the table and no
log. -/
theorem flushToDisk_safe (hf : Flushable m.m_skiplist.toList)
    (hfmt : m.m_storageManager.m_tableFormat = config.tableFormat)
    (hwal : (Disk.after fs.effects).wal = fs.wal) (hG : G (Disk.after fs.effects))
    (htable : m.m_skiplist.toList ≠ [] → ∀ timestamp fileNum (d : Disk),
      d.tables = config.tableFormat.content m.m_skiplist.toList timestamp fileNum ::
        (Disk.after fs.effects).tables → d.wal = fs.wal ∨ d.wal = none → G d) (env : Env) :
    ∃ res m' fs', m.flushToDisk env fs = (res, m', fs') ∧ Keeps G m fs res m' fs' ∧
      (res = .ok none → fs'.wal = none) := by
  obtain ⟨res, sm', fs1, hrun, hsame, hleaves⟩ := write_leaves env hf m.m_storageManager fs
  have hrun' : StorageManager.write m.m_storageManager env m.m_skiplist.toList fs =
      (res, sm', fs1) := hrun
  rw [hfmt] at hleaves
  have hdrawn : ∀ name, Disk.after (fs.effects ++ [.nameDrawn name]) = Disk.after fs.effects :=
    fun name => Disk.after_snoc _ _
  rcases hleaves with ⟨hne, hq⟩ | ⟨rfl, hne, name, path, ts, fn, hq⟩
  · have hflush : m.flushToDisk env fs =
        (res, { m with m_readOnly := true, m_storageManager := sm' }, fs1) := by
      simp only [MemTableImpl.flushToDisk, hrun']
      cases res with
      | error f => rfl
      | ok err =>
        cases err with
        | none => exact absurd rfl hne
        | some err => rfl
    have hkept : Safe G fs.effects fs1.effects ∧ Disk.after fs1.effects = Disk.after fs.effects ∧
        fs1.wal = fs.wal := by
      rcases hq with hq | ⟨name, hq⟩
      · rw [hq.effects]
        exact ⟨.refl hG, rfl, hq.wal⟩
      · rw [hq.effects, FileSystem.record_effects, hdrawn]
        exact ⟨safe_nameDrawn hG name, rfl, hq.wal⟩
    obtain ⟨hsafe, hdisk, hlog⟩ := hkept
    exact ⟨res, _, fs1, hflush, ⟨hsafe, by rw [hdisk, hwal, hlog], .inl hlog, rfl, hsame,
      fun hok => absurd hok hne⟩, fun hok => absurd hok hne⟩
  · have heff : fs1.effects = fs.effects ++ [.nameDrawn name] ++
        [.tableCreated path (config.tableFormat.content m.m_skiplist.toList ts fn)] := hq.effects
    have hdisk : Disk.after fs1.effects = { Disk.after fs.effects with
        tables := config.tableFormat.content m.m_skiplist.toList ts fn ::
          (Disk.after fs.effects).tables } := by
      rw [heff, Disk.after_snoc, hdrawn]
      rfl
    have hwal1 : fs1.wal = fs.wal := hq.wal
    have hG1 : G (Disk.after fs1.effects) :=
      htable hne ts fn _ (by rw [hdisk]) (.inl (by rw [hdisk]; exact hwal))
    have hsafe : Safe G fs.effects fs1.effects := by
      refine (safe_nameDrawn hG name).trans ?_
      rw [heff]
      refine .snoc (by rwa [hdrawn]) ?_ fun _ _ h => by cases h
      rwa [heff, Disk.after_snoc] at hG1
    have hdwal : (Disk.after fs1.effects).wal = fs1.wal := by
      rw [hdisk, hwal1]
      exact hwal
    simp only [MemTableImpl.flushToDisk, hrun', WAL.remove]
    cases env.removeFault with
    | some what =>
      exact ⟨_, _, fs1, rfl, ⟨hsafe, hdwal, .inl hwal1, rfl, hsame, fun hok => by cases hok⟩,
        fun hok => by cases hok⟩
    | none =>
      cases hw : fs1.wal with
      | none => exact ⟨_, _, fs1, rfl, ⟨hsafe, hdwal, .inr hw, rfl, hsame, fun _ => rfl⟩, fun _ => hw⟩
      | some bytes =>
        refine ⟨_, _, _, rfl, ⟨hsafe.trans (.snoc hG1 ?_ fun _ _ h => by cases h), ?_, .inr rfl, rfl,
          hsame, fun _ => rfl⟩, fun _ => rfl⟩
        · exact htable hne ts fn _ (by rw [hdisk]; rfl) (.inr rfl)
        · rw [FileSystem.record_effects, Disk.after_snoc]
          rfl

end Flush

/-! ## The logs of a run -/

section Run

variable {config : DbFactoryConfig} {m : MemTableImpl StorageManagerImpl} {fs : FileSystem}
  {tables : List (List Entry)}

theorem flushToDisk_fits (h : DiskRep config m fs tables) (hcap : 1 ≤ config.memtableCapacity)
    (hfits : LogFits config fs.wal) (env : Env) :
    Safe (fun d => LogFits config d.wal) fs.effects (m.flushToDisk env fs).2.2.effects ∧
      LogFits config (m.flushToDisk env fs).2.2.wal := by
  have hG : ∀ wal, wal = fs.wal ∨ wal = none → LogFits config wal := by
    rintro wal (rfl | rfl)
    · exact hfits
    · exact .none hcap
  obtain ⟨res, m', fs', hrun, hkeeps, -⟩ :=
    @flushToDisk_safe config m fs (fun d => LogFits config d.wal) h.flushable h.tableFormat h.wal
      (hG _ (.inl h.wal)) (fun _ _ _ d _ hd => hG d.wal hd) env
  rw [hrun]
  exact ⟨hkeeps.safe, hG _ hkeeps.log⟩

theorem DiskRep.fits_torn (h : DiskRep config m fs tables)
    (hroom : m.m_skiplist.size < capacityOf config) {torn : Bytes} (htorn : WAL.readRecord torn = .tail) :
    LogFits config (some (fs.wal.getD [] ++ torn)) := by
  obtain ⟨entries, hget, hset⟩ := h.entries
  obtain ⟨log, hwal, hlog, -⟩ := h.logged
  have hread := WAL.readRecords_log hlog (rfl : WAL.readRecord [] = .tail)
  rw [List.append_nil, ← hwal, ← WAL.getEntries_eq, hget, Option.some_inj] at hread
  refine ⟨entries, ?_, (size_insertAll_dropLast_le _ _).trans_lt ?_⟩
  · rw [Option.getD_some, hwal, WAL.readRecords_log hlog htorn, hread]
  · rw [SortedMap.size, hset, List.length_map]
    exact hroom

theorem DiskRep.fits_append (h : DiskRep config m fs tables)
    (hroom : m.m_skiplist.size < capacityOf config) {e : Entry} (he : e.Loggable) :
    LogFits config (some (fs.wal.getD [] ++ WAL.record e)) := by
  obtain ⟨entries, hget, hset⟩ := h.entries
  obtain ⟨log, hwal, hlog, -⟩ := h.logged
  have hread := WAL.readRecords_log hlog (rfl : WAL.readRecord [] = .tail)
  rw [List.append_nil, ← hwal, ← WAL.getEntries_eq, hget, Option.some_inj] at hread
  have hlog' : ∀ x ∈ log ++ [e], x.Loggable := by
    intro x hx
    rcases List.mem_append.1 hx with hx | hx
    · exact hlog x hx
    · rwa [List.mem_singleton.1 hx]
  have hread' := WAL.readRecords_log hlog' (rfl : WAL.readRecord [] = .tail)
  refine ⟨(log ++ [e]).map Entry.persisted, ?_, ?_⟩
  · rw [Option.getD_some, hwal, ← hread', List.flatMap_append, List.flatMap_singleton, List.append_nil]
  · rw [List.map_append, List.map_singleton, List.dropLast_concat, ← hread, SortedMap.size, hset,
      List.length_map]
    exact hroom

/-- **`m_wal.append`** to the log of a memtable that is not full. -/
theorem logAndSet_fits (h : DiskRep config m fs tables) (hroom : m.m_skiplist.size < capacityOf config)
    {e : Entry} (he : e.Loggable) {env : Env} (henv : env.Untorn) (hfits : LogFits config fs.wal) :
    Safe (fun d => LogFits config d.wal) fs.effects (m.logAndSet env e fs).2.2.effects ∧
      LogFits config (m.logAndSet env e fs).2.2.wal := by
  have hfits' : LogFits config (Disk.after fs.effects).wal := by rwa [h.wal]
  -- bytes that reach the log, all of them or the first ones
  have hbytes : ∀ bytes, LogFits config (some (fs.wal.getD [] ++ bytes)) →
      (∀ n < bytes.length, LogFits config (some (fs.wal.getD [] ++ bytes.take n))) →
      Safe (fun d => LogFits config d.wal) fs.effects (WAL.appendBytes bytes fs).effects ∧
        LogFits config (WAL.appendBytes bytes fs).wal := by
    intro bytes hall hsome
    refine ⟨.snoc hfits' ?_ ?_, hall⟩
    · simpa only [Disk.apply, h.wal] using hall
    · intro bytes' n heq hn
      cases heq
      simpa only [Disk.apply, h.wal] using hsome n hn
  have hnothing := hbytes [] (h.fits_torn hroom rfl) fun n hn => absurd hn (Nat.not_lt_zero n)
  unfold MemTableImpl.logAndSet WAL.append
  cases hf : env.appendFault with
  | some f =>
    have hz := henv f hf
    cases f with
    | openFailed => exact ⟨.refl hfits', hfits⟩
    | headerFailed n =>
      obtain rfl : n = 0 := hz
      exact hnothing
    | payloadFailed n =>
      obtain rfl : n = 0 := hz
      exact hnothing
    | flushFailed n =>
      obtain rfl : n = 0 := hz
      exact hnothing
  | none =>
    exact hbytes _ (h.fits_append hroom he)
      fun n hn => h.fits_torn hroom (WAL.readRecord_torn he hn)

/-- What a call does to the files: nothing, a flush, or an append to the log of a memtable that is
not full or has just been flushed. -/
inductive FilePath (m : MemTableImpl StorageManagerImpl) (env : Env) (fs : FileSystem) (c : Call) :
    FileSystem → Prop
  | none : FilePath m env fs c fs
  | flush (readOnly : Bool) :
    FilePath m env fs c ({ m with m_readOnly := readOnly }.flushToDisk env fs).2.2
  | append {m1 : MemTableImpl StorageManagerImpl} {fs1 : FileSystem} {e : Entry}
    (hflush : m.flushIfFull env fs = (.ok Option.none, m1, fs1)) (he : c.entry? = some e) :
    FilePath m env fs c (m1.logAndSet env e fs1).2.2

theorem filePath_flushIfFull (m : MemTableImpl StorageManagerImpl) (env : Env) (fs : FileSystem)
    (c : Call) : FilePath m env fs c (m.flushIfFull env fs).2.2 := by
  unfold MemTableImpl.flushIfFull
  split
  · exact .flush true
  · exact .none

theorem filePath_put (m : MemTableImpl StorageManagerImpl) (env : Env) (fs : FileSystem)
    (key val : Bytes) : FilePath m env fs (.put key val) (m.put env key val fs).2.2 := by
  have hpath := filePath_flushIfFull m env fs (.put key val)
  unfold MemTableImpl.put
  split
  · exact .none
  · split <;> rename_i heq
    · rwa [heq] at hpath
    · rwa [heq] at hpath
    · exact .append heq rfl

theorem filePath_delExisting (m : MemTableImpl StorageManagerImpl) (env : Env) (fs : FileSystem)
    (key : Bytes) : FilePath m env fs (.del key) (m.delExisting env key fs).2.2 := by
  have hpath := filePath_flushIfFull m env fs (.del key)
  unfold MemTableImpl.delExisting
  split
  · exact .none
  · split <;> rename_i heq
    · rwa [heq] at hpath
    · rwa [heq] at hpath
    · have happend := FilePath.append heq (show Call.entry? (.del key) = _ from rfl)
      split <;> rename_i hlog
      · rwa [hlog] at happend
      · rw [hlog] at happend
        split <;> exact happend

theorem filePath_step (x : DbImpl StorageManagerImpl × FileSystem) (c : Call × Env) :
    FilePath x.1.m_memTable c.2 x.2 c.1 (DbImpl.step x c).2.2 := by
  obtain ⟨⟨m⟩, fs⟩ := x
  obtain ⟨c, env⟩ := c
  cases c with
  | put key val =>
    simp only [DbImpl.step, DbImpl.call, DbImpl.put_snd]
    exact filePath_put m env fs key val
  | get key => exact .none
  | del key =>
    simp only [DbImpl.step, DbImpl.call, DbImpl.del_snd, MemTableImpl.del]
    split
    · exact filePath_delExisting m env fs key
    · split
      · exact .none
      · exact .none
      · exact filePath_delExisting m env fs key
  | forceFlushForTests =>
    simp only [DbImpl.step, DbImpl.call, DbImpl.forceFlushForTests_snd]
    exact .flush m.m_readOnly
  | forceCompactForTests => exact .none

theorem flushIfFull_room (h : DiskRep config m fs tables) (hcap : 1 ≤ config.memtableCapacity)
    {env : Env} {m1 : MemTableImpl StorageManagerImpl} {fs1 : FileSystem}
    (hrun : m.flushIfFull env fs = (.ok none, m1, fs1)) : m1.m_skiplist.size < capacityOf config := by
  have hfull := getLength_eq_iff h.bounded (zero_le_of_one_le hcap)
  rw [← h.size] at hfull
  unfold MemTableImpl.flushIfFull at hrun
  split at hrun
  · obtain ⟨res, m', fs', tables', hflush, -, -, -, hempty⟩ :=
      flushToDisk_disk (h.congr (.refl fs) rfl true) env
    rw [hflush] at hrun
    cases hrun
    rw [hempty rfl]
    exact toNat_pos_of_one_le hcap
  · rename_i hnot
    cases hrun
    exact lt_of_le_of_ne h.bounded fun hf => hnot (hfull.2 hf)

theorem loggable_of_entry {c : Call} (hc : c.Loggable) {e : Entry} (he : c.entry? = some e) :
    e.Loggable := by
  cases c with
  | put key val =>
    cases he
    exact hc
  | del key =>
    cases he
    exact ⟨hc, show (("val" : Bytes)).length ≤ 2 ^ 30 by decide⟩
  | get key | forceFlushForTests | forceCompactForTests => cases he

/-- **Every call** leaves a log that fits, at each of its effects. -/
theorem step_fits (hcap : 1 ≤ config.memtableCapacity) {x : DbImpl StorageManagerImpl × FileSystem}
    (h : DiskRep config x.1.m_memTable x.2 tables) (hfits : LogFits config x.2.wal)
    {c : Call × Env} (hc : c.1.Loggable) (henv : c.2.Untorn) :
    Safe (fun d => LogFits config d.wal) x.2.effects (DbImpl.step x c).2.2.effects ∧
      LogFits config (DbImpl.step x c).2.2.wal := by
  have hpath := filePath_step x c
  generalize (DbImpl.step x c).2.2 = fs' at hpath
  cases hpath with
  | none => exact ⟨.refl (by rwa [h.wal]), hfits⟩
  | flush readOnly => exact flushToDisk_fits (h.congr (.refl x.2) rfl readOnly) hcap hfits c.2
  | @append m1 fs1 e hflush he =>
    obtain ⟨res, m', fs', tables', hrun, h', -⟩ := flushIfFull_disk h hcap c.2
    rw [hflush] at hrun
    cases hrun
    have hbefore : Safe (fun d => LogFits config d.wal) x.2.effects fs1.effects ∧
        LogFits config fs1.wal := by
      have hfst : fs1 = (x.1.m_memTable.flushIfFull c.2 x.2).2.2 := by rw [hflush]
      rw [hfst, MemTableImpl.flushIfFull]
      split
      · exact flushToDisk_fits (h.congr (.refl x.2) rfl true) hcap hfits c.2
      · exact ⟨.refl (by rwa [h.wal]), hfits⟩
    obtain ⟨hsafe, hfits'⟩ := logAndSet_fits h' (flushIfFull_room h hcap hflush)
      (loggable_of_entry hc he) henv hbefore.2
    exact ⟨hbefore.1.trans hsafe, hfits'⟩

/-- **Every run**, from any state whose log holds the memtable and fits it. -/
theorem run_fits (hcap : 1 ≤ config.memtableCapacity) {x : DbImpl StorageManagerImpl × FileSystem}
    (h : DiskRep config x.1.m_memTable x.2 tables) (hfits : LogFits config x.2.wal)
    {steps : List (Call × Env)} (hsteps : ∀ c ∈ steps, c.1.Loggable ∧ c.2.Untorn) :
    ∃ tables', DiskRep config (Machine.run DbImpl.step x steps).2.1.m_memTable
        (Machine.run DbImpl.step x steps).2.2 tables' ∧
      LogFits config (Machine.run DbImpl.step x steps).2.2.wal ∧
      ∀ k, overlay (Machine.run DbImpl.step x steps).2.1.m_memTable.m_skiplist.find? tables' k =
        (lastAcked (history steps (Machine.run DbImpl.step x steps).1) k).getD
          (overlay x.1.m_memTable.m_skiplist.find? tables k) := by
  induction steps using List.reverseRecOn with
  | nil => exact ⟨tables, h, hfits, fun _ => rfl⟩
  | append_singleton steps c ih =>
    obtain ⟨tables', h', hfits', hover⟩ := ih fun c hc => hsteps c (List.mem_append_left _ hc)
    obtain ⟨hc, henv⟩ := hsteps c (List.mem_append_right _ List.mem_cons_self)
    obtain ⟨tables'', h'', hover', -⟩ := step_disk hcap h' hc henv
    have hlen : (Machine.run DbImpl.step x steps).1.length = steps.length := Machine.length_run ..
    rw [Machine.run_snoc]
    refine ⟨tables'', h'', (step_fits hcap h' hfits' hc henv).2, fun k => ?_⟩
    rw [hover', hover, history_snoc hlen, lastAcked_snoc]
    cases acked k (c.1, (DbImpl.step (Machine.run DbImpl.step x steps).2 c).1.toOption) <;> rfl

end Run

/-! ## The replay of a log that fits -/

/-- A disk with these reads, whose log a replay can take as a whole. -/
structure Recoverable (config : DbFactoryConfig) (val : Bytes → Option Bytes) (d : Disk) : Prop where
  reads : ReadsAs config.tableFormat val d
  fits : LogFits config d.wal
  written : ∃ tables, List.Forall₂ (Written config.tableFormat) d.tables tables

section Replay

variable {config : DbFactoryConfig} {fs : FileSystem} {val : Bytes → Option Bytes}

theorem read_of_readRecords {d : Disk} {entries : List Entry} {tables : List (List Entry)}
    (hlog : WAL.readRecords (d.wal.getD []) = some entries)
    (hw : List.Forall₂ (Written config.tableFormat) d.tables tables) (k : Bytes) :
    d.read config.tableFormat k =
      some ((live ((lookup entries.reverse k).or (firstEntry tables k))).map Entry.val) :=
  @read_eq_firstEntry config d { FileSystem.empty with wal := d.wal } entries tables rfl
    (by rw [WAL.getEntries_eq]; exact hlog) hw k

/-- **The loop of `replayWal`** over a log that fits: no flush. -/
theorem replayEntries_fits (hcap : 1 ≤ config.memtableCapacity) {m : MemTableImpl StorageManagerImpl}
    (hsize : m.m_size = config.memtableCapacity) {entries : List Entry}
    (hfits : (m.m_skiplist.insertAll entries.dropLast).size < capacityOf config) (env : Nat → Env)
    (i : Nat) (fs : FileSystem) :
    m.replayEntries env i fs entries =
      (.ok (), { m with m_skiplist := m.m_skiplist.insertAll entries }, fs) := by
  induction entries generalizing m i with
  | nil => rfl
  | cons e entries ih =>
    have hroom : m.m_skiplist.size < capacityOf config :=
      (SortedMap.size_le_insertAll _ _).trans_lt hfits
    have hnot : ¬ m.m_skiplist.getLength = some m.m_size := by
      rw [hsize, getLength_eq_iff hroom.le (zero_le_of_one_le hcap)]
      exact hroom.ne
    rw [MemTableImpl.replayEntries, if_neg hnot]
    cases entries with
    | nil => rfl
    | cons e' entries =>
      exact ih (m := { m with m_skiplist := m.m_skiplist.insert e }) hsize hfits (i + 1)

theorem flushable_of_log {bytes : Bytes} {entries : List Entry}
    (hlog : WAL.readRecords bytes = some entries)
    (hfits : (SortedMap.empty.insertAll entries.dropLast : SkipListImpl).size < capacityOf config) :
    Flushable (SortedMap.empty.insertAll entries : SkipListImpl).toList := by
  refine ⟨SortedMap.sorted _, ?_, fun e he => ?_⟩
  · have hlt := capacityOf_lt config
    have hle := size_insertAll_le_dropLast SortedMap.empty entries
    unfold SortedMap.size at hle hfits
    omega
  · have hfind := (Keyed.lookup_eq_some (SortedMap.sorted _)).2 ⟨he, rfl⟩
    have hmem := Keyed.mem_of_lookup ((find?_insertAll_empty entries e.key).symm.trans hfind)
    exact WAL.loggable_of_readRecords _ hlog e (List.mem_reverse.1 hmem)

/-- The table that a replay writes has the reads of the log. -/
theorem Recoverable.table {d d' : Disk} (h : Recoverable config val d) {entries : List Entry}
    (hlog : WAL.readRecords (d.wal.getD []) = some entries)
    (hflush : Flushable (SortedMap.empty.insertAll entries : SkipListImpl).toList)
    (hne : (SortedMap.empty.insertAll entries : SkipListImpl).toList ≠ [])
    (hcap : 1 ≤ config.memtableCapacity) {timestamp : TimestampType} {fileNum : FileNumber}
    (htables : d'.tables = config.tableFormat.content
      (SortedMap.empty.insertAll entries : SkipListImpl).toList timestamp fileNum :: d.tables)
    (hwal : d'.wal = d.wal ∨ d'.wal = none) : Recoverable config val d' := by
  obtain ⟨tables, hw⟩ := h.written
  have hw' : List.Forall₂ (Written config.tableFormat) d'.tables
      ((SortedMap.empty.insertAll entries : SkipListImpl).toList :: tables) := by
    rw [htables]
    exact .cons ⟨timestamp, fileNum, rfl, hflush.loadable hne _ _ _⟩ hw
  have hfirst : ∀ k, firstEntry ((SortedMap.empty.insertAll entries : SkipListImpl).toList :: tables) k =
      (lookup entries.reverse k).or (firstEntry tables k) := fun k => by
    rw [firstEntry_cons, ← find?_insertAll_empty]
    rfl
  refine ⟨fun k => ?_, ?_, _, hw'⟩
  · rw [← h.reads k, read_of_readRecords hlog hw]
    rcases hwal with hwal | hwal
    · rw [read_of_readRecords (hwal ▸ hlog) hw', hfirst, ← Option.or_assoc, Option.or_self]
    · rw [@read_of_readRecords config d' [] _ (hwal ▸ WAL.readRecords_tail rfl) hw', hfirst]
      rfl
  · rcases hwal with hwal | hwal
    · exact hwal ▸ h.fits
    · exact hwal ▸ .none hcap

/-- A log without a record can go. -/
theorem Recoverable.removed {d : Disk} (h : Recoverable config val d) {entries : List Entry}
    (hlog : WAL.readRecords (d.wal.getD []) = some entries)
    (hnil : (SortedMap.empty.insertAll entries : SkipListImpl).toList = [])
    (hcap : 1 ≤ config.memtableCapacity) : Recoverable config val { d with wal := none } := by
  obtain ⟨tables, hw⟩ := h.written
  refine ⟨fun k => ?_, .none hcap, tables, hw⟩
  have hnone : lookup entries.reverse k = none := by
    rw [← find?_insertAll_empty, SortedMap.find?, hnil]
    rfl
  rw [← h.reads k, read_of_readRecords hlog hw, hnone]
  exact @read_of_readRecords config { d with wal := none } [] tables (WAL.readRecords_tail rfl) hw k

/-- **The end of `replayWal`**: a flush, unless there is nothing to flush, and the log goes. -/
theorem finishReplay_safe (hcap : 1 ≤ config.memtableCapacity)
    (hwal : (Disk.after fs.effects).wal = fs.wal) (h : Recoverable config val (Disk.after fs.effects))
    {m : MemTableImpl StorageManagerImpl} {entries : List Entry}
    (hlog : WAL.readRecords ((Disk.after fs.effects).wal.getD []) = some entries)
    (hskip : m.m_skiplist = SortedMap.empty.insertAll entries)
    (hflush : Flushable m.m_skiplist.toList) (hbounded : m.m_skiplist.size ≤ capacityOf config)
    (hfmt : m.m_storageManager.m_tableFormat = config.tableFormat) (env : Env) :
    ∃ res m' fs', m.finishReplay env fs = (res, m', fs') ∧
      Keeps (Recoverable config val) m fs res m' fs' := by
  unfold MemTableImpl.finishReplay
  dsimp only
  by_cases hne : m.m_skiplist.toList = []
  · rw [if_neg fun hp => (getLength_pos_iff hbounded).1 hp hne]
    have hempty : m.m_skiplist = SortedMap.empty := SortedMap.ext hne
    refine ⟨_, _, _, rfl, ?_⟩
    unfold WAL.remove
    split
    · exact ⟨.refl h, hwal, .inl rfl, rfl, rfl, fun _ => hempty⟩
    · split
      · exact ⟨.refl h, hwal, .inl rfl, rfl, rfl, fun _ => hempty⟩
      · refine ⟨.snoc h (h.removed hlog (hskip ▸ hne) hcap) nofun, ?_, .inr rfl, rfl, rfl,
          fun _ => hempty⟩
        rw [FileSystem.record_effects, Disk.after_snoc]
        rfl
  · rw [if_pos ((getLength_pos_iff hbounded).2 hne)]
    obtain ⟨res, m', fs', hrun, hkeeps, hgone⟩ := @flushToDisk_safe config m fs
      (Recoverable config val) hflush hfmt hwal h
      (fun hne _ _ d htables hd => by
        rw [hskip] at hflush hne htables
        exact h.table hlog hflush hne hcap htables (hwal ▸ hd)) env
    rw [hrun]
    cases res with
    | error f => exact ⟨_, _, _, rfl, hkeeps⟩
    | ok err =>
      cases err with
      | some err => exact ⟨_, _, _, rfl, { hkeeps with flushed := fun hok => by cases hok }⟩
      | none =>
        -- the flush has removed the log
        have hnothing : (WAL.remove env.removeFault fs').2 = fs' := by
          unfold WAL.remove
          rw [hgone rfl]
          split <;> rfl
        dsimp only
        rw [hnothing]
        exact ⟨_, _, _, rfl, { hkeeps with }⟩

/-- **A replay**, crashed at any of its effects or not, changes no read. -/
theorem replayWal_safe (hcap : 1 ≤ config.memtableCapacity) (hwal : (Disk.after fs.effects).wal = fs.wal)
    (h : Recoverable config val (Disk.after fs.effects)) (env : Nat → Env) :
    ∃ res m' fs', (createDbWithConfig config).m_memTable.replayWal env fs = (res, m', fs') ∧
      Keeps (Recoverable config val) (createDbWithConfig config).m_memTable fs res m' fs' := by
  obtain ⟨entries, hlog, hfits⟩ := h.fits
  have hget : WAL.getEntries fs = some entries := by
    rw [WAL.getEntries_eq, ← hwal]
    exact hlog
  simp only [MemTableImpl.replayWal, hget]
  rw [replayEntries_fits hcap rfl hfits env 0 fs]
  have hle := size_insertAll_le_dropLast SortedMap.empty entries
  obtain ⟨res, m', fs', hrun, hkeeps⟩ := finishReplay_safe hcap hwal h hlog
    (m := { (createDbWithConfig config).m_memTable with
      m_readOnly := true, m_skiplist := SortedMap.empty.insertAll entries })
    rfl (flushable_of_log hlog hfits) (hle.trans hfits) rfl (env entries.length)
  exact ⟨res, m', fs', hrun, { hkeeps with }⟩

end Replay

end TinyKv
