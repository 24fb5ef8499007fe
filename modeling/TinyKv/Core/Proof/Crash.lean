import TinyKv.Core.Proof.Disk
import TinyKv.Core.Proof.KeyValue

/-!
# The write path is crash consistent

At every point of every run the disk alone tells what has been acknowledged, up to the operation
that the crash interrupts (`crash_consistent`). The environment may make calls fail; only the log
must not be left with a part of a record by anything but the crash (`Env.Untorn`).

* `DiskRep`: the log holds the memtable, the table files hold the frozen tables.
* `flushToDisk_disk`, `write_disk`: what a flush and a write do to that, at each of their effects.
-/

namespace TinyKv

open Bytes

/-- The bytes of the record that a failed append leaves in the log. -/
def AppendFault.written : AppendFault → Nat
  | .openFailed => 0
  | .headerFailed n => n
  | .payloadFailed n => n
  | .flushFailed n => n

/-- An append that fails leaves nothing in the log. -/
def Env.Untorn (env : Env) : Prop := ∀ f, env.appendFault = some f → f.written = 0

/-- What a flush writes: at most `2 ^ 31` sorted entries with short strings. -/
structure Flushable (es : List Entry) : Prop where
  sorted : SortedEntries es
  length : es.length < 2 ^ 31
  loggable : ∀ e ∈ es, e.Loggable

theorem Flushable.small {es : List Entry} (h : Flushable es) : ∀ e ∈ es, e.Small := fun e he => by
  obtain ⟨hk, hv⟩ := h.loggable e he
  exact ⟨by omega, by omega⟩

theorem Flushable.size_lt {es : List Entry} (h : Flushable es) (fmt : TableFormatKind)
    (timestamp : TimestampType) (fileNum : FileNumber) :
    fmt = .BlockBased → (fmt.content es timestamp fileNum).length < 2 ^ 63 := by
  rintro rfl
  exact BlockBasedTableFormat.length_encodeTable_lt h.length (fun e he => (h.loggable e he).1)
    (fun e he => (h.loggable e he).persisted) timestamp fileNum

theorem Flushable.loadable {es : List Entry} (h : Flushable es) (hne : es ≠ [])
    (fmt : TableFormatKind) (timestamp : TimestampType) (fileNum : FileNumber) :
    LevelManagerImpl.Loadable fmt es timestamp fileNum :=
  ⟨hne, h.sorted, h.length, h.small, h.size_lt fmt timestamp fileNum⟩

/-! ## What a flush writes, whatever fails -/

section Effects

variable {es : List Entry} {fs : FileSystem} (env : Env)

/-- What a writer leaves: one table more, or nothing. -/
def WroteTable (fmt : TableFormatKind) (path : TablePath) (es : List Entry)
    (timestamp : TimestampType) (fileNum : FileNumber) (fs : FileSystem)
    (res : Except Fault TableReader × FileSystem) : Prop :=
  (∃ f fs', res = (.error f, fs') ∧ fs.Quiet fs') ∨
  (∃ r fs', res = (.ok r, fs') ∧ es ≠ [] ∧
    (fs.record (.tableCreated path (fmt.content es timestamp fileNum))).Quiet fs')

/-- What is known of a writer in any environment, as far as the effects go. -/
theorem wroteTable (path : TablePath) (timestamp : TimestampType) (fileNum : FileNumber)
    (fs : FileSystem) (h : Flushable es) (fmt : TableFormatKind) :
    WroteTable fmt path es timestamp fileNum fs
      (fmt.writeTable env path es timestamp fileNum fs) := by
  obtain ⟨f, fs1, hrun, ht⟩ | ⟨hne, r, fs1, hrun, ht, -⟩ :=
    TableFormatKind.writeTable_leaves env path timestamp fileNum fs fmt h.sorted h.length
      (h.size_lt fmt timestamp fileNum)
  · exact .inl ⟨f, fs1, hrun, ht.effects, ht.wal⟩
  · have hq : fs.Quiet fs1 := ⟨ht.effects, ht.wal⟩
    exact .inr ⟨r, _, hrun, hne, hq.record _⟩

/-- What a write of the storage manager leaves: perhaps a name drawn, or a table more. -/
def WriteLeaves (fmt : TableFormatKind) (es : List Entry) (fs : FileSystem)
    (res : Except Fault (Option Error)) (fs' : FileSystem) : Prop :=
  (res ≠ .ok none ∧ (fs.Quiet fs' ∨ ∃ name, (fs.record (.nameDrawn name)).Quiet fs')) ∨
  (res = .ok none ∧ es ≠ [] ∧ ∃ name path timestamp fileNum,
    ((fs.record (.nameDrawn name)).record
      (.tableCreated path (fmt.content es timestamp fileNum))).Quiet fs')

theorem writeLevel0_leaves (h : Flushable es) (sm : StorageManagerImpl) (fs : FileSystem) :
    ∃ res sm' fs', sm.writeLevel0 env es fs = (res, sm', fs') ∧
      sm'.m_tableFormat = sm.m_tableFormat ∧ WriteLeaves sm.m_tableFormat es fs res fs' := by
  unfold StorageManagerImpl.writeLevel0
  split
  · exact ⟨_, _, _, rfl, rfl, .inl ⟨(fun hok => by cases hok), .inl (.refl fs)⟩⟩
  · rename_i lm rest _
    rw [LevelManagerImpl.createTable_eq]
    rcases wroteTable env (lm.newPath env) env.now sm.m_systemContext.counter
        (fs.record (.nameDrawn (generateSSTableFileName env))) h sm.m_tableFormat with
      ⟨f, fs', hrun, hq⟩ | ⟨r, fs', hrun, hne, hq⟩
    · simp only [hrun, Except.map]
      exact ⟨_, _, _, rfl, rfl, .inl ⟨(fun hok => by cases hok), .inr ⟨_, hq⟩⟩⟩
    · simp only [hrun, Except.map]
      exact ⟨_, _, _, rfl, rfl, .inr ⟨rfl, hne, _, _, _, _, hq⟩⟩

theorem write_leaves (h : Flushable es) (sm : StorageManagerImpl) (fs : FileSystem) :
    ∃ res sm' fs', sm.write env es fs = (res, sm', fs') ∧
      sm'.m_tableFormat = sm.m_tableFormat ∧ WriteLeaves sm.m_tableFormat es fs res fs' := by
  unfold StorageManagerImpl.write
  split
  · have hq := sm.initLevels_quiet env fs
    have hfmt := sm.initLevels_tableFormat env fs
    cases hinit : sm.initLevels env fs with
    | mk res rest =>
      obtain ⟨sm1, fs1⟩ := rest
      rw [hinit] at hq hfmt
      dsimp only at hq hfmt
      cases res with
      | error f => exact ⟨_, _, _, rfl, hfmt, .inl ⟨nofun, .inl hq⟩⟩
      | ok err =>
        obtain ⟨res, sm', fs', hrun, hfmt', hleaves⟩ := writeLevel0_leaves env h sm1 fs1
        refine ⟨res, sm', fs', hrun, hfmt'.trans hfmt, ?_⟩
        rw [hfmt] at hleaves
        rcases hleaves with ⟨hne, hl⟩ | ⟨hok, hne, name, path, ts, fn, hl⟩
        · refine .inl ⟨hne, ?_⟩
          rcases hl with hl | ⟨name, hl⟩
          · exact .inl (hq.trans hl)
          · exact .inr ⟨name, (hq.record _).trans hl⟩
        · exact .inr ⟨hok, hne, name, path, ts, fn, ((hq.record _).record _).trans hl⟩
  · exact writeLevel0_leaves env h sm fs

end Effects

/-! ## The memtable and its disk -/

/-- The log holds the memtable, the table files hold the frozen tables. -/
structure DiskRep (config : DbFactoryConfig) (m : MemTableImpl StorageManagerImpl)
    (fs : FileSystem) (tables : List (List Entry)) : Prop where
  size : m.m_size = config.memtableCapacity
  tableFormat : m.m_storageManager.m_tableFormat = config.tableFormat
  bounded : m.m_skiplist.size ≤ capacityOf config
  loggable : ∀ e ∈ m.m_skiplist.toList, e.Loggable
  wal : (Disk.after fs.effects).wal = fs.wal
  logged : Logged (fs.wal.getD []) m.m_skiplist.find?
  written : List.Forall₂ (Written config.tableFormat) (Disk.after fs.effects).tables tables

/-- Every key has this value on the disk. -/
def ReadsAs (fmt : TableFormatKind) (val : Bytes → Option Bytes) (d : Disk) : Prop :=
  ∀ k, d.read fmt k = some (val k)

/-- A flush changes no read, before the log is removed and after. -/
theorem overlay_flush (mem : SkipListImpl) (tables : List (List Entry)) :
    overlay mem.find? (mem.toList :: tables) = overlay mem.find? tables ∧
      overlay (fun _ => none) (mem.toList :: tables) = overlay mem.find? tables := by
  have hl : ∀ k, lookup mem.toList k = mem.find? k := fun _ => rfl
  refine ⟨funext fun k => ?_, funext fun k => ?_⟩
  · simp only [overlay, firstEntry_cons, hl]
    cases mem.find? k <;> rfl
  · simp only [overlay, firstEntry_cons, hl, Option.none_or]

section MemTable

variable {config : DbFactoryConfig} {m : MemTableImpl StorageManagerImpl} {fs fs' : FileSystem}
  {tables : List (List Entry)} {env : Env}

theorem DiskRep.readsAs (h : DiskRep config m fs tables) :
    ReadsAs config.tableFormat (overlay m.m_skiplist.find? tables) (Disk.after fs.effects) :=
  Disk.read_eq (by rw [h.wal, List.append_nil]) h.logged rfl h.written

theorem DiskRep.flushable (h : DiskRep config m fs tables) : Flushable m.m_skiplist.toList := by
  refine ⟨m.m_skiplist.sorted, ?_, h.loggable⟩
  have := capacityOf_lt config
  have := h.bounded
  unfold SortedMap.size at this
  omega

theorem DiskRep.congr (h : DiskRep config m fs tables) (hq : fs.Quiet fs')
    {sm : StorageManagerImpl} (hfmt : sm.m_tableFormat = m.m_storageManager.m_tableFormat)
    (readOnly : Bool) :
    DiskRep config { m with m_readOnly := readOnly, m_storageManager := sm } fs' tables :=
  ⟨h.size, hfmt.trans h.tableFormat, h.bounded, h.loggable, by rw [hq.effects, hq.wal, h.wal],
    hq.wal ▸ h.logged, hq.effects ▸ h.written⟩

theorem DiskRep.nameDrawn (h : DiskRep config m fs tables) (name : Bytes) :
    DiskRep config m (fs.record (.nameDrawn name)) tables := by
  have hd : Disk.after (fs.record (.nameDrawn name)).effects = Disk.after fs.effects := by
    rw [FileSystem.record_effects, Disk.after_snoc]
    rfl
  exact ⟨h.size, h.tableFormat, h.bounded, h.loggable, by rw [hd]; exact h.wal, h.logged,
    by rw [hd]; exact h.written⟩

/-- With the memtable frozen its entries are there twice. -/
theorem DiskRep.tableCreated (h : DiskRep config m fs tables) (hne : m.m_skiplist.toList ≠ [])
    (path : TablePath) (timestamp : TimestampType) (fileNum : FileNumber) :
    DiskRep config m (fs.record (.tableCreated path
        (config.tableFormat.content m.m_skiplist.toList timestamp fileNum)))
      (m.m_skiplist.toList :: tables) := by
  have hd : Disk.after (fs.record (.tableCreated path (config.tableFormat.content
      m.m_skiplist.toList timestamp fileNum))).effects = _ := Disk.after_snoc _ _
  refine ⟨h.size, h.tableFormat, h.bounded, h.loggable, ?_, h.logged, ?_⟩
  · rw [hd]
    exact h.wal
  · rw [hd]
    exact .cons ⟨timestamp, fileNum, rfl, h.flushable.loadable hne _ _ _⟩ h.written

theorem safe_nameDrawn {G : Disk → Prop} {effects : List Effect} (h : G (Disk.after effects))
    (name : Bytes) : Safe G effects (effects ++ [.nameDrawn name]) :=
  .snoc h h nofun

/-- The log goes when its entries are in a table. -/
theorem remove_disk (h : DiskRep config m fs (m.m_skiplist.toList :: tables)) :
    ∃ fs', WAL.remove none fs = (none, fs') ∧
      DiskRep config { m with m_skiplist := SortedMap.empty, m_readOnly := false } fs'
        (m.m_skiplist.toList :: tables) ∧
      Safe (ReadsAs config.tableFormat (overlay m.m_skiplist.find? tables)) fs.effects
        fs'.effects := by
  have hreads := h.readsAs
  rw [(overlay_flush _ _).1] at hreads
  cases hw : fs.wal with
  | none =>
    refine ⟨fs, by simp only [WAL.remove, hw], ⟨h.size, h.tableFormat, Nat.zero_le _, nofun, h.wal,
      ?_, h.written⟩, .refl hreads⟩
    rw [hw]
    exact Logged.nil
  | some bytes =>
    have h' : DiskRep config { m with m_skiplist := SortedMap.empty, m_readOnly := false }
        ({ fs with wal := none }.record .walRemoved) (m.m_skiplist.toList :: tables) := by
      refine ⟨h.size, h.tableFormat, Nat.zero_le _, nofun, ?_, Logged.nil, ?_⟩
      · rw [FileSystem.record_effects, Disk.after_snoc]
        rfl
      · rw [FileSystem.record_effects, Disk.after_snoc]
        exact h.written
    refine ⟨_, by simp only [WAL.remove, hw], h', .snoc hreads ?_ nofun⟩
    have := h'.readsAs
    rw [FileSystem.record_effects, Disk.after_snoc] at this
    rw [← (overlay_flush m.m_skiplist tables).2]
    exact this

/-- **A flush**, crashed at any of its effects or not, changes no read of the disk. -/
theorem flushToDisk_disk (h : DiskRep config m fs tables) (env : Env) :
    ∃ res m' fs' tables', m.flushToDisk env fs = (res, m', fs') ∧
      DiskRep config m' fs' tables' ∧
      overlay m'.m_skiplist.find? tables' = overlay m.m_skiplist.find? tables ∧
      Safe (ReadsAs config.tableFormat (overlay m.m_skiplist.find? tables)) fs.effects fs'.effects ∧
      (res = .ok none → m'.m_skiplist = SortedMap.empty) := by
  obtain ⟨res, sm', fs1, hrun, hfmt, hleaves⟩ := write_leaves env h.flushable m.m_storageManager fs
  have hrun' : StorageManager.write m.m_storageManager env m.m_skiplist.toList fs =
      (res, sm', fs1) := hrun
  rw [h.tableFormat] at hleaves
  rcases hleaves with ⟨hne, hq⟩ | ⟨rfl, hne, name, path, ts, fn, hq⟩
  · -- no table: the log stays
    have hflush : m.flushToDisk env fs =
        (res, { m with m_readOnly := true, m_storageManager := sm' }, fs1) := by
      simp only [MemTableImpl.flushToDisk, hrun']
      cases res with
      | error f => rfl
      | ok err =>
        cases err with
        | none => exact absurd rfl hne
        | some err => rfl
    refine ⟨res, _, fs1, tables, hflush, ?_, rfl, ?_, fun hok => absurd hok hne⟩
    · rcases hq with hq | ⟨name, hq⟩
      · exact h.congr hq hfmt true
      · exact (h.nameDrawn name).congr hq hfmt true
    · rcases hq with hq | ⟨name, hq⟩
      · rw [hq.effects]
        exact .refl h.readsAs
      · rw [hq.effects]
        exact safe_nameDrawn h.readsAs name
  · -- a table, and then the log goes or stays
    have h2 := (h.nameDrawn name).tableCreated hne path ts fn
    have h3 := h2.congr hq hfmt true
    have hsafe : Safe (ReadsAs config.tableFormat (overlay m.m_skiplist.find? tables)) fs.effects
        fs1.effects := by
      rw [hq.effects]
      refine (safe_nameDrawn h.readsAs name).trans (.snoc (h.nameDrawn name).readsAs ?_
        fun _ _ hbytes => by cases hbytes)
      have := h2.readsAs
      rwa [(overlay_flush _ _).1, FileSystem.record_effects, Disk.after_snoc] at this
    simp only [MemTableImpl.flushToDisk, hrun']
    cases hf : env.removeFault with
    | some what =>
      exact ⟨_, _, _, _, rfl, h3, (overlay_flush _ _).1, hsafe, fun hok => by cases hok⟩
    | none =>
      obtain ⟨fs2, hrem, h4, hsafe'⟩ := remove_disk h3
      simp only [hrem]
      exact ⟨_, _, _, _, rfl, h4, (overlay_flush _ _).2, hsafe.trans hsafe', fun _ => rfl⟩

theorem flushIfFull_disk (h : DiskRep config m fs tables) (hcap : 1 ≤ config.memtableCapacity)
    (env : Env) :
    ∃ res m' fs' tables', m.flushIfFull env fs = (res, m', fs') ∧
      DiskRep config m' fs' tables' ∧
      overlay m'.m_skiplist.find? tables' = overlay m.m_skiplist.find? tables ∧
      Safe (ReadsAs config.tableFormat (overlay m.m_skiplist.find? tables)) fs.effects fs'.effects ∧
      (res = .ok none → ∀ e, (m'.m_skiplist.insert e).size ≤ capacityOf config) := by
  have hpos : 1 ≤ capacityOf config := toNat_pos_of_one_le hcap
  have hfull := getLength_eq_iff h.bounded (zero_le_of_one_le hcap)
  rw [← h.size] at hfull
  unfold MemTableImpl.flushIfFull
  by_cases hf : m.m_skiplist.size = capacityOf config
  · rw [if_pos (hfull.2 hf)]
    obtain ⟨res, m', fs', tables', hrun, hrep, hover, hsafe, hempty⟩ :=
      flushToDisk_disk (h.congr (.refl fs) rfl true) env
    refine ⟨res, m', fs', tables', hrun, hrep, hover, hsafe, fun hok e => ?_⟩
    have := SortedMap.size_insert_le m'.m_skiplist e
    rw [hempty hok, SortedMap.size_empty] at this
    rw [hempty hok]
    omega
  · rw [if_neg fun hl => hf (hfull.1 hl)]
    refine ⟨.ok none, m, fs, tables, rfl, h, rfl, .refl h.readsAs, fun _ e => ?_⟩
    have := SortedMap.size_insert_le m.m_skiplist e
    have := h.bounded
    omega

/-! ## A write -/

/-- Every key has this value on the disk, or the one that the entry in flight gives it. -/
def ReadsEither (fmt : TableFormatKind) (val : Bytes → Option Bytes) (e : Entry) (d : Disk) : Prop :=
  ∀ k, d.read fmt k = some (val k) ∨
    e.key = k ∧ d.read fmt k = some ((live (some e)).map Entry.val)

theorem overlay_insert (mem : SkipListImpl) (tables : List (List Entry)) (e : Entry) (k : Bytes) :
    overlay (mem.insert e).find? tables k =
      if e.key = k then (live (some e)).map Entry.val else overlay mem.find? tables k := by
  simp only [overlay, SortedMap.find?_insert]
  split <;> rfl

theorem apply_walAppended_wal (d : Disk) (bytes : Bytes) :
    (d.apply (.walAppended bytes)).wal.getD [] = d.wal.getD [] ++ bytes := rfl

theorem DiskRep.appendBytes (h : DiskRep config m fs tables) {mem : SkipListImpl} {bytes : Bytes}
    (hlog : Logged (fs.wal.getD [] ++ bytes) mem.find?) (hb : mem.size ≤ capacityOf config)
    (hl : ∀ e ∈ mem.toList, e.Loggable) :
    DiskRep config { m with m_skiplist := mem } (WAL.appendBytes bytes fs) tables := by
  have hd : Disk.after (WAL.appendBytes bytes fs).effects =
      (Disk.after fs.effects).apply (.walAppended bytes) := Disk.after_snoc _ _
  refine ⟨h.size, h.tableFormat, hb, hl, ?_, hlog, ?_⟩
  · rw [hd]
    simp only [Disk.apply, h.wal]
    rfl
  · rw [hd]
    exact h.written

theorem appendNothing_disk (h : DiskRep config m fs tables) (e : Entry) :
    DiskRep config m (WAL.appendBytes [] fs) tables ∧
      Safe (ReadsEither config.tableFormat (overlay m.m_skiplist.find? tables) e) fs.effects
        (WAL.appendBytes [] fs).effects := by
  have h' : DiskRep config m (WAL.appendBytes [] fs) tables :=
    h.appendBytes (by rw [List.append_nil]; exact h.logged) h.bounded h.loggable
  refine ⟨h', .snoc (fun k => .inl (h.readsAs k)) (fun k => .inl ?_) ?_⟩
  · have := h'.readsAs k
    rwa [WAL.appendBytes, FileSystem.record_effects, Disk.after_snoc] at this
  · intro bytes n hbytes hn
    cases hbytes
    cases hn

/-- **`m_wal.append` and `m_skiplist.set`**: the write is on the disk as a whole or not at all. -/
theorem logAndSet_disk (h : DiskRep config m fs tables) (henv : env.Untorn) {e : Entry}
    (he : e.Loggable) (hb : (m.m_skiplist.insert e).size ≤ capacityOf config) :
    ∃ err m' fs', m.logAndSet env e fs = (err, m', fs') ∧ DiskRep config m' fs' tables ∧
      (∀ k, overlay m'.m_skiplist.find? tables k = if err = none ∧ e.key = k then
        (live (some e)).map Entry.val else overlay m.m_skiplist.find? tables k) ∧
      Safe (ReadsEither config.tableFormat (overlay m.m_skiplist.find? tables) e) fs.effects
        fs'.effects := by
  have hreads : ReadsEither config.tableFormat (overlay m.m_skiplist.find? tables) e
      (Disk.after fs.effects) := fun k => .inl (h.readsAs k)
  have hnothing := appendNothing_disk h e
  have hfail : ∀ err : Error, ∀ k, overlay m.m_skiplist.find? tables k =
      if some err = none ∧ e.key = k then (live (some e)).map Entry.val
      else overlay m.m_skiplist.find? tables k := fun err k => by simp
  unfold MemTableImpl.logAndSet WAL.append
  cases hf : env.appendFault with
  | some f =>
    have hz := henv f hf
    cases f with
    | openFailed => exact ⟨_, m, fs, rfl, h, hfail _, .refl hreads⟩
    | headerFailed n =>
      obtain rfl : n = 0 := hz
      exact ⟨_, m, _, rfl, hnothing.1, hfail _, hnothing.2⟩
    | payloadFailed n =>
      obtain rfl : n = 0 := hz
      exact ⟨_, m, _, rfl, hnothing.1, hfail _, hnothing.2⟩
    | flushFailed n =>
      obtain rfl : n = 0 := hz
      exact ⟨_, m, _, rfl, hnothing.1, hfail _, hnothing.2⟩
  | none =>
    have h' := h.appendBytes (h.logged.append he) hb fun x hx => by
      rcases SortedMap.mem_insert hx with rfl | hx
      · exact he
      · exact h.loggable x hx
    refine ⟨_, _, _, rfl, h', fun k => ?_, .snoc hreads (fun k => ?_) ?_⟩
    · rw [overlay_insert]
      simp
    · have := h'.readsAs k
      rw [WAL.appendBytes, FileSystem.record_effects, Disk.after_snoc, overlay_insert] at this
      split at this
      · rename_i hk
        exact .inr ⟨hk, this⟩
      · exact .inl this
    · intro bytes n hbytes hn k
      cases hbytes
      have hwal := apply_walAppended_wal (Disk.after fs.effects) ((WAL.record e).take n)
      rw [h.wal] at hwal
      exact .inl (Disk.read_eq hwal h.logged (WAL.readRecord_torn he hn) h.written k)

/-- What a write of `e` leaves, acknowledged or not. -/
def WriteDisk (config : DbFactoryConfig) (m : MemTableImpl StorageManagerImpl) (fs : FileSystem)
    (tables : List (List Entry)) (e : Entry) (ack : Bool) (m' : MemTableImpl StorageManagerImpl)
    (fs' : FileSystem) : Prop :=
  ∃ tables', DiskRep config m' fs' tables' ∧
    (∀ k, overlay m'.m_skiplist.find? tables' k = if ack ∧ e.key = k then
      (live (some e)).map Entry.val else overlay m.m_skiplist.find? tables k) ∧
    Safe (ReadsEither config.tableFormat (overlay m.m_skiplist.find? tables) e) fs.effects
      fs'.effects

theorem WriteDisk.refused (h : DiskRep config m fs tables) (e : Entry) :
    WriteDisk config m fs tables e false m fs :=
  ⟨tables, h, fun k => by simp, .refl fun k => .inl (h.readsAs k)⟩

/-- **A write of `e`**, behind a flush if the memtable is full. -/
theorem write_disk (h : DiskRep config m fs tables) (hcap : 1 ≤ config.memtableCapacity)
    (henv : env.Untorn) {e : Entry} (he : e.Loggable) :
    (∃ res m' fs', m.flushIfFull env fs = (res, m', fs') ∧ res ≠ .ok none ∧
      WriteDisk config m fs tables e false m' fs') ∨
    (∃ m1 fs1 err m' fs', m.flushIfFull env fs = (.ok none, m1, fs1) ∧
      m1.logAndSet env e fs1 = (err, m', fs') ∧
      WriteDisk config m fs tables e (err == none) m' fs') := by
  obtain ⟨res, m1, fs1, tables1, hflush, h1, hover, hsafe, hroom⟩ := flushIfFull_disk h hcap env
  have hsafe' : Safe (ReadsEither config.tableFormat (overlay m.m_skiplist.find? tables) e)
      fs.effects fs1.effects := hsafe.mono fun d hd k => .inl (hd k)
  by_cases hok : res = .ok none
  · subst hok
    obtain ⟨err, m', fs', hlog, h', hover', hsafe2⟩ := logAndSet_disk h1 henv he (hroom rfl e)
    rw [hover] at hover' hsafe2
    exact .inr ⟨m1, fs1, err, m', fs', hflush, hlog, tables1, h', by simpa using hover',
      hsafe'.trans hsafe2⟩
  · exact .inl ⟨res, m1, fs1, hflush, hok, tables1, h1, fun k => by simp [hover], hsafe'⟩

theorem put_disk (h : DiskRep config m fs tables) (hcap : 1 ≤ config.memtableCapacity)
    (henv : env.Untorn) (key val : Bytes) (he : Entry.Loggable ⟨key, val, false⟩) :
    ∃ res m' fs', m.put env key val fs = (res, m', fs') ∧
      WriteDisk config m fs tables ⟨key, val, false⟩ (res == .ok none) m' fs' := by
  unfold MemTableImpl.put
  cases m.m_readOnly with
  | true => exact ⟨_, m, fs, rfl, .refused h _⟩
  | false =>
    rcases write_disk h hcap henv he with
      ⟨res, m', fs', hflush, hne, hw⟩ | ⟨m1, fs1, err, m', fs', hflush, hlog, hw⟩
    · simp only [Bool.false_eq_true, ↓reduceIte, hflush]
      cases res with
      | error f => exact ⟨_, m', fs', rfl, hw⟩
      | ok err =>
        cases err with
        | none => exact absurd rfl hne
        | some err => exact ⟨_, m', fs', rfl, hw⟩
    · simp only [Bool.false_eq_true, ↓reduceIte, hflush, hlog]
      refine ⟨_, m', fs', rfl, ?_⟩
      cases err <;> exact hw

theorem delExisting_disk (h : DiskRep config m fs tables) (hcap : 1 ≤ config.memtableCapacity)
    (henv : env.Untorn) (key : Bytes) (he : Entry.Loggable ⟨key, "val", true⟩) :
    ∃ res m' fs', m.delExisting env key fs = (res, m', fs') ∧
      WriteDisk config m fs tables ⟨key, "val", true⟩ (res == .ok none) m' fs' := by
  unfold MemTableImpl.delExisting
  cases m.m_readOnly with
  | true => exact ⟨_, m, fs, rfl, .refused h _⟩
  | false =>
    rcases write_disk h hcap henv he with
      ⟨res, m', fs', hflush, hne, hw⟩ | ⟨m1, fs1, err, m', fs', hflush, hlog, hw⟩
    · simp only [Bool.false_eq_true, ↓reduceIte, hflush]
      cases res with
      | error f => exact ⟨_, m', fs', rfl, hw⟩
      | ok err =>
        cases err with
        | none => exact absurd rfl hne
        | some err => exact ⟨_, m', fs', rfl, hw⟩
    · simp only [Bool.false_eq_true, ↓reduceIte, hflush, hlog]
      cases err with
      | none => exact ⟨_, m', fs', rfl, hw⟩
      | some err => exact ⟨_, m', fs', rfl, hw⟩

theorem del_disk (h : DiskRep config m fs tables) (hcap : 1 ≤ config.memtableCapacity)
    (henv : env.Untorn) (key : Bytes) (he : Entry.Loggable ⟨key, "val", true⟩) :
    ∃ res m' fs', m.del env key fs = (res, m', fs') ∧
      WriteDisk config m fs tables ⟨key, "val", true⟩ (res == .ok none) m' fs' := by
  unfold MemTableImpl.del
  cases m.get key with
  | some _ => exact delExisting_disk h hcap henv key he
  | none =>
    dsimp only
    cases StorageManager.get m.m_storageManager fs key with
    | error f => exact ⟨_, m, fs, rfl, .refused h _⟩
    | ok found =>
      cases found with
      | none => exact ⟨_, m, fs, rfl, .refused h _⟩
      | some e => exact delExisting_disk h hcap henv key he

end MemTable

/-! ## Calls and runs -/

/-- Keys and values of at most `2 ^ 30` bytes. -/
def Call.Loggable : Call → Prop
  | .put key val => key.length ≤ 2 ^ 30 ∧ val.length ≤ 2 ^ 30
  | .get key | .del key => key.length ≤ 2 ^ 30
  | _ => True

/-- What a crash in the call `c` may leave: every key has its value, or the one that `c` gives it. -/
def CrashReads (fmt : TableFormatKind) (val : Bytes → Option Bytes) (c : Call) (d : Disk) : Prop :=
  ∀ k, d.read fmt k = some (val k) ∨
    ∃ e, c.entry? = some e ∧ e.key = k ∧ d.read fmt k = some ((live (some e)).map Entry.val)

section Run

variable {config : DbFactoryConfig} {tables : List (List Entry)}
  {x : DbImpl StorageManagerImpl × FileSystem} {c : Call × Env}

/-- What a call leaves, on the disk and at every point of the way. -/
def StepDisk (config : DbFactoryConfig) (tables : List (List Entry))
    (x : DbImpl StorageManagerImpl × FileSystem) (c : Call) (res : Except Fault Response)
    (y : DbImpl StorageManagerImpl × FileSystem) : Prop :=
  ∃ tables', DiskRep config y.1.m_memTable y.2 tables' ∧
    (∀ k, overlay y.1.m_memTable.m_skiplist.find? tables' k =
      (acked k (c, res.toOption)).getD (overlay x.1.m_memTable.m_skiplist.find? tables k)) ∧
    Safe (CrashReads config.tableFormat (overlay x.1.m_memTable.m_skiplist.find? tables) c)
      x.2.effects y.2.effects

theorem WriteDisk.step {m m' : MemTableImpl StorageManagerImpl} {fs fs' : FileSystem} {e : Entry}
    {ack : Bool} (h : WriteDisk config m fs tables e ack m' fs') {c : Call} (hc : c.entry? = some e)
    {res : Except Fault Response}
    (hres : ∀ k, acked k (c, res.toOption) =
      if ack ∧ e.key = k then some ((live (some e)).map Entry.val) else none) :
    StepDisk config tables (⟨m⟩, fs) c res (⟨m'⟩, fs') := by
  obtain ⟨tables', hrep, hover, hsafe⟩ := h
  refine ⟨tables', hrep, fun k => ?_, hsafe.mono fun d hd k => ?_⟩
  · rw [hres, hover]
    split <;> rfl
  · exact (hd k).imp id fun ⟨hk, hr⟩ => ⟨e, hc, hk, hr⟩

theorem StepDisk.refl (h : DiskRep config x.1.m_memTable x.2 tables) {c : Call}
    {res : Except Fault Response} (hres : ∀ k, acked k (c, res.toOption) = none) :
    StepDisk config tables x c res x :=
  ⟨tables, h, fun k => by rw [hres]; rfl, .refl fun k => .inl (h.readsAs k)⟩

/-- **Every call.** -/
theorem step_disk (hcap : 1 ≤ config.memtableCapacity)
    (h : DiskRep config x.1.m_memTable x.2 tables) (hc : c.1.Loggable) (henv : c.2.Untorn) :
    StepDisk config tables x c.1 (DbImpl.step x c).1 (DbImpl.step x c).2 := by
  obtain ⟨⟨m⟩, fs⟩ := x
  obtain ⟨c, env⟩ := c
  cases c with
  | put key val =>
    obtain ⟨res, m', fs', hrun, hw⟩ := put_disk h hcap henv key val hc
    simp only [DbImpl.step, DbImpl.call, DbImpl.put, hrun]
    cases res with
    | error f => exact hw.step rfl fun k => by simp [acked, Except.toOption]
    | ok err =>
      cases err with
      | none => exact hw.step rfl fun k => by simp [acked, Except.toOption, live_some]
      | some err => exact hw.step rfl fun k => by simp [acked, Except.toOption]
  | get key => exact .refl h fun k => rfl
  | del key =>
    obtain ⟨res, m', fs', hrun, hw⟩ := del_disk h hcap henv key
      ⟨hc, show (("val" : Bytes)).length ≤ 2 ^ 30 by decide⟩
    simp only [DbImpl.step, DbImpl.call, DbImpl.del, hrun]
    cases res with
    | error f => exact hw.step rfl fun k => by simp [acked, Except.toOption]
    | ok err =>
      cases err with
      | none => exact hw.step rfl fun k => by simp [acked, Except.toOption, live_some]
      | some err => exact hw.step rfl fun k => by simp [acked, Except.toOption]
  | forceFlushForTests =>
    obtain ⟨res, m', fs', tables', hrun, hrep, hover, hsafe, -⟩ := flushToDisk_disk h env
    have hstep : ∀ res : Except Fault Response,
        StepDisk config tables (⟨m⟩, fs) .forceFlushForTests res (⟨m'⟩, fs') := fun res =>
      ⟨tables', hrep, fun k => congrFun hover k, hsafe.mono fun d hd k => .inl (hd k)⟩
    simp only [DbImpl.step, DbImpl.call, DbImpl.forceFlushForTests, hrun]
    cases res with
    | error f => exact hstep _
    | ok err => exact hstep _
  | forceCompactForTests => exact .refl h fun k => rfl

theorem createDb_disk (config : DbFactoryConfig) :
    DiskRep config (createDbWithConfig config).m_memTable FileSystem.empty [] :=
  ⟨rfl, rfl, Nat.zero_le _, nofun, rfl, Logged.nil, .nil⟩

/-- **Every run** leaves the acknowledged writes on the disk. -/
theorem run_disk (hcap : 1 ≤ config.memtableCapacity) {steps : List (Call × Env)}
    (hsteps : ∀ c ∈ steps, c.1.Loggable ∧ c.2.Untorn) :
    ∃ tables, DiskRep config (runFresh config steps).2.1.m_memTable (runFresh config steps).2.2
        tables ∧
      overlay (runFresh config steps).2.1.m_memTable.m_skiplist.find? tables = fun k =>
        (lastAcked (history steps (runFresh config steps).1) k).getD none := by
  induction steps using List.reverseRecOn with
  | nil => exact ⟨[], createDb_disk config, rfl⟩
  | append_singleton steps c ih =>
    obtain ⟨tables, h, hover⟩ := ih fun c hc => hsteps c (List.mem_append_left _ hc)
    obtain ⟨hc, henv⟩ := hsteps c (List.mem_append_right _ List.mem_cons_self)
    obtain ⟨tables', h', hover', -⟩ := step_disk hcap h hc henv
    have hrun : runFresh config (steps ++ [c]) = ((runFresh config steps).1 ++
        [(DbImpl.step (runFresh config steps).2 c).1], (DbImpl.step (runFresh config steps).2 c).2) :=
      Machine.run_snoc ..
    have hlen : (runFresh config steps).1.length = steps.length := Machine.length_run ..
    rw [hrun]
    refine ⟨tables', h', funext fun k => ?_⟩
    rw [hover', hover, history_snoc hlen, lastAcked_snoc]
    cases acked k (c.1, (DbImpl.step (runFresh config steps).2 c).1.toOption) <;> rfl

end Run

/-- **The write path is crash consistent.** Between two calls the disk gives every key the result of
its last acknowledged write; after a crash in a call it does so or gives the result of that call. -/
theorem crash_consistent {config : DbFactoryConfig} (hcap : 1 ≤ config.memtableCapacity)
    {steps : List (Call × Env)} (hsteps : ∀ c ∈ steps, c.1.Loggable ∧ c.2.Untorn) :
    (∀ k, (Disk.after (runFresh config steps).2.2.effects).read config.tableFormat k =
      some ((lastAcked (history steps (runFresh config steps).1) k).getD none)) ∧
    ∀ (c : Call) (env : Env), c.Loggable → env.Untorn → ∀ p,
      CrashPoint (runFresh config steps).2.2.effects
        (DbImpl.step (runFresh config steps).2 (c, env)).2.2.effects p → ∀ k,
      (Disk.after p).read config.tableFormat k =
        some ((lastAcked (history steps (runFresh config steps).1) k).getD none) ∨
      ∃ e, c.entry? = some e ∧ e.key = k ∧
        (Disk.after p).read config.tableFormat k = some ((live (some e)).map Entry.val) := by
  obtain ⟨tables, h, hover⟩ := run_disk hcap hsteps
  refine ⟨fun k => ?_, fun c env hc henv p hp k => ?_⟩
  · rw [h.readsAs k, hover]
  · obtain ⟨-, -, -, hsafe⟩ := step_disk hcap h (c := (c, env)) hc henv
    have := hsafe.2 p hp k
    rwa [hover] at this

/-- A put that finds the memtable full, crashed between the table and the removal of the log. -/
theorem crash_consistent_midFlush :
    let x := runFresh { memtableCapacity := 1 } [(.put "a" "1", {})]
    let y := DbImpl.step x.2 (.put "b" "2", {})
    y.2.2.effects.length = 5 ∧
      (Disk.after (y.2.2.effects.take 3)).read .InMemory "a" =
        some (some (ofString "1")) := by
  intro x y
  have hpoint : CrashPoint x.2.2.effects y.2.2.effects (y.2.2.effects.take 3) :=
    .between (by decide +kernel) (List.take_prefix _ _)
  have h := (@crash_consistent { memtableCapacity := 1 } (by decide) [(.put "a" "1", {})] (by
    intro c hc
    rw [List.mem_singleton.1 hc]
    exact ⟨⟨by decide, by decide⟩, nofun⟩)).2 (.put "b" "2") {} ⟨by decide, by decide⟩ nofun
    (y.2.2.effects.take 3) hpoint "a"
  refine ⟨by decide +kernel, ?_⟩
  rcases h with h | ⟨e, he, hk, -⟩
  · have hlast : lastAcked (history [(.put "a" "1", {})]
        (runFresh { memtableCapacity := 1 } [(.put "a" "1", {})]).1) "a" =
        some (some (ofString "1")) := by decide +kernel
    rw [hlast] at h
    exact h
  · cases he
    exact absurd hk (by decide)

end TinyKv
