import TinyKv.Core.Proof.MemTable
import TinyKv.Core.Proof.Storage

/-!
# One process lifetime

The storage manager of a database that started on empty directories holds the tables it has written
(`Stored`), so the database answers as the abstract machine does: every call (`step_refines_fresh`)
and every run (`run_refines`), as long as nothing in the environment fails and, in the block-based
format, the names drawn stay distinct and the files below `2 ^ 63` bytes (`Fits`).

* `write_refines`: one table more, or an exception and the tables as before.
-/

namespace TinyKv

open Bytes

/-- The tables that a database with this configuration can write. -/
def canWrite (config : DbFactoryConfig) (es : List Entry) : Bool :=
  decide (config.maxLevels ≠ Int32.maxValue ∧ config.tableFormat.Writable es)

/-- The readers serve the tables; in-memory readers do so on any disk. -/
structure Held (config : DbFactoryConfig) (fs : FileSystem) (readers : List TableReader)
    (tables : List (List Entry)) : Prop where
  serves : ServesAll fs readers tables
  anywhere : config.tableFormat = .InMemory → ∀ fs', ServesAll fs' readers tables

theorem Held.mono {config : DbFactoryConfig} {fs fs' : FileSystem} {readers : List TableReader}
    {tables : List (List Entry)} (h : Held config fs readers tables)
    (hle : config.tableFormat = .BlockBased → fs.Le fs') : Held config fs' readers tables := by
  refine ⟨?_, h.anywhere⟩
  cases hfmt : config.tableFormat with
  | InMemory => exact h.anywhere hfmt fs'
  | BlockBased => exact h.serves.mono (hle hfmt)

/-- The storage manager holds the tables `tables`, newest first. -/
structure Stored (config : DbFactoryConfig) (sm : StorageManagerImpl) (fs : FileSystem)
    (tables : List (List Entry)) : Prop where
  maxLevel : sm.m_maxLevel = config.maxLevels
  tableFormat : sm.m_tableFormat = config.tableFormat
  levels : (sm.m_levelManagers = [] ∧ tables = [] ∧ BaseOk sm.m_maxLevel fs ∧
      fs.dir? (levelName 0) = none) ∨
    (config.maxLevels ≠ Int32.maxValue ∧ ∃ readers d, sm.Loaded fs readers d ∧
      Held config fs readers tables ∧ ∀ p ∈ d.toList, p.1 ∈ drawnNames fs.effects)

section Storage

variable {config : DbFactoryConfig} {sm : StorageManagerImpl} {fs : FileSystem}
  {tables : List (List Entry)} {env : Env} {es : List Entry} {readers : List TableReader} {d : Dir}

theorem Stored.get_eq (h : Stored config sm fs tables) (key : Bytes) :
    sm.get fs key = .ok (live (firstEntry tables key)) := by
  rcases h.levels with ⟨hnil, rfl, -, -⟩ | ⟨-, readers, d, hl, hs, -⟩
  · rw [StorageManagerImpl.get, hnil]
    rfl
  · exact StorageManagerImpl.get_eq hl hs.serves key

theorem Stored.compact_eq (h : Stored config sm fs tables) : sm.compact = .ok none := by
  rcases h.levels with ⟨hnil, -, -, -⟩ | ⟨-, readers, d, hl, -, -⟩
  · rw [StorageManagerImpl.compact, hnil]
    rfl
  · exact StorageManagerImpl.compact_eq hl

theorem Stored.congr (h : Stored config sm fs tables) {fs' : FileSystem} (hb : fs'.base = fs.base)
    (he : drawnNames fs.effects ⊆ drawnNames fs'.effects) : Stored config sm fs' tables := by
  have hfile : ∀ l n, fs'.file? l n = fs.file? l n := fun l n => by
    simp only [FileSystem.file?, FileSystem.dir?, hb]
  refine ⟨h.maxLevel, h.tableFormat, ?_⟩
  rcases h.levels with ⟨hnil, ht, hbase, hdir⟩ | ⟨hmax, readers, d, hl, hs, hnames⟩
  · refine .inl ⟨hnil, ht, hbase.congr hb, ?_⟩
    rw [← hdir]
    simp only [FileSystem.dir?, hb]
  · exact .inr ⟨hmax, readers, d, hl.congr hb,
      hs.mono fun _ l n c hc => (hfile l n).trans hc, fun p hp => he (hnames p hp)⟩

theorem writeLevel0_refines (hl : sm.Loaded fs readers d) (hs : Held config fs readers tables)
    (hnames : ∀ p ∈ d.toList, p.1 ∈ drawnNames fs.effects)
    (hmaxL : sm.m_maxLevel = config.maxLevels) (hfmt : sm.m_tableFormat = config.tableFormat)
    (hmax : config.maxLevels ≠ Int32.maxValue) (henv : env.NoFault) (hsort : SortedEntries es)
    (hlen : es.length < 2 ^ 31)
    (hfits : config.tableFormat = .BlockBased → Fits (sm.writeLevel0 env es fs).2.2.effects) :
    ∃ res sm' fs', sm.writeLevel0 env es fs = (res, sm', fs') ∧ fs'.wal = fs.wal ∧
      if canWrite config es then res = .ok none ∧ Stored config sm' fs' (es :: tables)
      else (∃ f, res = .error f) ∧ Stored config sm' fs' tables := by
  have hfresh : generateSSTableFileName env ∉ drawnNames fs.effects →
      d.find? (generateSSTableFileName env) = none := fun hn => by
    apply Keyed.lookup_eq_none.2
    intro p hp he
    apply hn
    rw [← he]
    exact hnames p hp
  by_cases hw : sm.m_tableFormat.Writable es
  · have hcan : canWrite config es = true := decide_eq_true ⟨hmax, hfmt ▸ hw⟩
    rw [StorageManagerImpl.writeLevel0_snd hl henv hw hsort hlen,
      StorageManagerImpl.written_effects] at hfits
    have hsize : sm.m_tableFormat = .BlockBased → (sm.newContent env es).length < 2 ^ 63 := by
      intro hbb
      apply (hfits (hfmt.symm.trans hbb)).sizes
      rw [tableContents_append]
      exact List.mem_append_right _ List.mem_cons_self
    obtain ⟨r, sm', hrun, hsame, hserves, hmem, hl'⟩ :=
      StorageManagerImpl.writeLevel0_ok hl henv hw hsort hlen hsize
    have hle : config.tableFormat = .BlockBased → fs.Le (sm.written env es d fs) :=
      fun hbb => StorageManagerImpl.le_written hl.dir (hfresh (hfits hbb).fresh)
    refine ⟨_, _, _, hrun, rfl, ?_⟩
    rw [if_pos hcan]
    refine ⟨rfl, hsame.maxLevel.trans hmaxL, hsame.tableFormat.trans hfmt,
      .inr ⟨hmax, _, _, hl', ⟨.cons hserves (hs.mono hle).serves, fun hfm fs' =>
        .cons (hmem (hfmt.trans hfm) fs') (hs.anywhere hfm fs')⟩, fun p hp => ?_⟩⟩
    rw [StorageManagerImpl.written_effects, drawnNames_append]
    rcases SortedMap.mem_insert hp with rfl | hp
    · exact List.mem_append_right _ List.mem_cons_self
    · exact List.mem_append_left _ (hnames p hp)
  · have hcan : ¬ canWrite config es = true := fun h => hw (hfmt ▸ (of_decide_eq_true h).2)
    obtain ⟨f, sm', fs', d', hrun, hsame, hl', heff, hwal, hd', hle⟩ :=
      StorageManagerImpl.writeLevel0_error hl henv hw
    rw [hrun] at hfits
    dsimp only at hfits
    rw [heff] at hfits
    refine ⟨_, _, _, hrun, hwal, ?_⟩
    rw [if_neg hcan]
    refine ⟨⟨f, rfl⟩, hsame.maxLevel.trans hmaxL, hsame.tableFormat.trans hfmt,
      .inr ⟨hmax, _, _, hl', hs.mono fun hbb => hle (hfresh (hfits hbb).fresh), fun p hp => ?_⟩⟩
    rw [heff, drawnNames_append]
    rcases hd' p hp with hp | ⟨hp, -⟩
    · exact List.mem_append_left _ (hnames p hp)
    · rw [hp]
      exact List.mem_append_right _ List.mem_cons_self

/-- **`StorageManagerImpl::write`**: one table more, or an exception and the tables as before. -/
theorem write_refines (h : Stored config sm fs tables) (h0 : 0 ≤ config.maxLevels)
    (henv : env.NoFault) (hsort : SortedEntries es) (hlen : es.length < 2 ^ 31)
    (hfits : config.tableFormat = .BlockBased → Fits (sm.write env es fs).2.2.effects) :
    ∃ res sm' fs', sm.write env es fs = (res, sm', fs') ∧ fs'.wal = fs.wal ∧
      if canWrite config es then res = .ok none ∧ Stored config sm' fs' (es :: tables)
      else (∃ f, res = .error f) ∧ Stored config sm' fs' tables := by
  rcases h.levels with ⟨hnil, rfl, hbase, hdir⟩ | ⟨hmax, readers, d, hl, hs, hnames⟩
  · by_cases hmax : config.maxLevels = Int32.maxValue
    · -- the overflow of `reserve` ends every load
      have hcan : ¬ canWrite config es = true := fun hc => (of_decide_eq_true hc).1 hmax
      have hinit := StorageManagerImpl.initLevels_overflow henv hbase (h.maxLevel.trans hmax)
      refine ⟨.error .signedOverflow, { sm with m_levelManagers := [] }, fs, ?_, rfl, ?_⟩
      · rw [StorageManagerImpl.write, if_pos (by simp [hnil]), hinit]
      · rw [if_neg hcan]
        exact ⟨⟨_, rfl⟩, h.maxLevel, h.tableFormat, .inl ⟨rfl, rfl, hbase, hdir⟩⟩
    · have hload : sm.Level0Loads env fs [] := by
        rw [StorageManagerImpl.Level0Loads, hdir]
      obtain ⟨sm1, fs1, hrun, hsame, -, hfiles, hl⟩ := StorageManagerImpl.write_unloaded hnil henv
        hbase (h.maxLevel ▸ h0) (h.maxLevel ▸ hmax) (by simp [hdir]) hload es
      rw [hrun] at hfits ⊢
      rw [hdir, Option.getD_none] at hl
      obtain ⟨res, sm', fs', hrun', hwal, hres⟩ := writeLevel0_refines hl
        ⟨.nil, fun _ _ => .nil⟩ (fun p hp => by cases hp) (hsame.maxLevel.trans h.maxLevel)
        (hsame.tableFormat.trans h.tableFormat) hmax henv hsort hlen hfits
      exact ⟨res, sm', fs', hrun', hwal.trans hfiles.wal, hres⟩
  · rw [StorageManagerImpl.write_loaded hl] at hfits ⊢
    exact writeLevel0_refines hl hs hnames h.maxLevel h.tableFormat hmax henv hsort hlen hfits

end Storage

theorem canWrite_nil (config : DbFactoryConfig) : canWrite config [] = false :=
  decide_eq_false fun h => h.2.ne rfl

/-- The writes that one lifetime covers. -/
def Fitting (config : DbFactoryConfig) (sm : StorageManagerImpl) (env : Env) (fs : FileSystem)
    (es : List Entry) : Prop :=
  config.tableFormat = .BlockBased → Fits (sm.write env es fs).2.2.effects

theorem stored_spec {config : DbFactoryConfig} (h0 : 0 ≤ config.maxLevels) :
    StorageSpec (Stored config) (Fitting config) where
  get_eq h key := h.get_eq key
  compact_eq h := h.compact_eq
  congr h _ hb he := h.congr hb he
  write := by
    intro sm fs tables env es h hfits henv hsort hlen
    obtain ⟨res, sm', fs', hrun, -, hres⟩ := write_refines h h0 henv hsort hlen hfits
    refine ⟨res, sm', fs', hrun, ?_⟩
    split at hres
    · rename_i hcan
      refine .inl ⟨hres.1, ?_, hres.2⟩
      rintro rfl
      rw [canWrite_nil] at hcan
      cases hcan
    · exact .inr hres

/-! ## The database -/

/-- The database on its disk stands for the abstract state. -/
def DbRep (config : DbFactoryConfig) (x : DbImpl StorageManagerImpl × FileSystem) (s : Lsm) : Prop :=
  Rep config (Stored config) x.1.m_memTable x.2 s

theorem createDb_rep {config : DbFactoryConfig} :
    DbRep config (createDbWithConfig config, FileSystem.empty) {} :=
  ⟨rfl, rfl, rfl, Nat.zero_le _, rfl, rfl, .inl ⟨rfl, rfl, BaseOk.empty _, rfl⟩⟩

section Db

variable {config : DbFactoryConfig} {s : Lsm} {x : DbImpl StorageManagerImpl × FileSystem}
  {c : Call × Env}

theorem write_effects_step (hro : x.1.StartsFlush x.2 c.1) :
    (x.1.m_memTable.m_storageManager.write c.2 x.1.m_memTable.m_skiplist.toList x.2).2.2.effects <+:
      (DbImpl.step x c).2.2.effects := by
  obtain ⟨⟨m⟩, fs⟩ := x
  obtain ⟨c, env⟩ := c
  have hfull : m.m_skiplist.getLength = some m.m_size →
      (m.m_storageManager.write env m.m_skiplist.toList fs).2.2.effects <+:
        (m.flushIfFull env fs).2.2.effects := fun hfull => by
    rw [MemTableImpl.flushIfFull, if_pos hfull]
    exact MemTableImpl.write_effects_flushToDisk { m with m_readOnly := true } env fs
  cases c with
  | put key val =>
    simp only [DbImpl.step, DbImpl.call, DbImpl.put_snd]
    exact (hfull hro.2).trans (m.flushIfFull_effects_put env fs key val hro.1)
  | get key => exact hro.elim
  | del key =>
    obtain ⟨hp, hro, hf⟩ := hro
    simp only [DbImpl.step, DbImpl.call, DbImpl.del_snd, MemTableImpl.del_eq_delExisting hp]
    exact (hfull hf).trans (m.flushIfFull_effects_delExisting env fs key hro)
  | forceFlushForTests =>
    simp only [DbImpl.step, DbImpl.call, DbImpl.forceFlushForTests_snd]
    exact m.write_effects_flushToDisk env fs
  | forceCompactForTests => exact hro.elim

/-- **Every call** of a database in its first lifetime. -/
theorem step_refines_fresh (h0 : 0 ≤ config.maxLevels) (hcap : 0 ≤ config.memtableCapacity)
    (h : DbRep config x s) (henv : c.2.NoFault)
    (hfits : config.tableFormat = .BlockBased → Fits (DbImpl.step x c).2.2.effects) :
    (DbImpl.step x c).1.toOption = (s.step (capacityOf config) (canWrite config) c.1).1 ∧
      DbRep config (DbImpl.step x c).2 (s.step (capacityOf config) (canWrite config) c.1).2 := by
  have hcov : s.StartsFlush (capacityOf config) c.1 →
      Fitting config x.1.m_memTable.m_storageManager c.2 x.2 s.mem.toList := by
    intro hfl hbb
    rw [← h.skiplist]
    exact (hfits hbb).earlier
      (write_effects_step ((startsFlush_iff (stored_spec h0) h hcap c.1).2 hfl))
  have hwrites : s.StartsFlush (capacityOf config) c.1 →
      writes x.1.m_memTable c.2 x.2 s.mem.toList = canWrite config s.mem.toList := by
    intro hfl
    have hlen : s.mem.toList.length < 2 ^ 31 := by
      have := capacityOf_lt config
      have := h.bounded
      unfold SortedMap.size at this
      omega
    obtain ⟨res, sm', fs', hrun, -, hres⟩ :=
      write_refines h.stored h0 henv s.mem.sorted hlen (hcov hfl)
    unfold writes
    rw [hrun]
    split at hres
    · rename_i hcan
      rw [hcan, hres.1]
      rfl
    · rename_i hcan
      obtain ⟨⟨f, rfl⟩, -⟩ := hres
      rw [Bool.not_eq_true] at hcan
      rw [hcan]
      rfl
  have h := step_refines (stored_spec h0) hcap h henv hcov
  rwa [Lsm.step_congr hwrites] at h

/-- **Every run**: the answers are those of the abstract machine, and the last states correspond. -/
theorem run_refines (h0 : 0 ≤ config.maxLevels) (hcap : 0 ≤ config.memtableCapacity)
    (h : DbRep config x s) (steps : List (Call × Env))
    (henv : ∀ c ∈ steps, c.2.NoFault) (hfits : config.tableFormat = .BlockBased →
      Fits (Machine.run DbImpl.step x steps).2.2.effects) :
    (Machine.run DbImpl.step x steps).1.map Except.toOption =
        (Machine.run (Lsm.step (capacityOf config) (canWrite config)) s (steps.map Prod.fst)).1 ∧
      DbRep config (Machine.run DbImpl.step x steps).2
        (Machine.run (Lsm.step (capacityOf config) (canWrite config)) s (steps.map Prod.fst)).2 := by
  have hI : List.Forall₂ (fun (c : Call × Env) (c' : Call) => c.2.NoFault ∧ c.1 = c') steps
      (steps.map Prod.fst) := by
    rw [List.forall₂_map_right_iff, List.forall₂_same]
    exact fun c hc => ⟨henv c hc, rfl⟩
  obtain ⟨hout, hrep⟩ := Machine.run_sim (O := fun r o => r.toOption = o)
    (R := DbRep config) (G := fun x => config.tableFormat = .BlockBased → Fits x.2.effects)
    (fun x c hf hbb => Fits.of_step (hf hbb))
    (fun x s c c' hc hx hf => by
      obtain ⟨he, rfl⟩ := hc
      exact step_refines_fresh h0 hcap hx he hf) h hI hfits
  refine ⟨?_, hrep⟩
  rwa [← List.forall₂_eq_eq_eq, List.forall₂_map_left_iff]

end Db

end TinyKv
