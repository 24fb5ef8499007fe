import TinyKv.Core.Proof.Interrupted

/-!
# Durability

Processes one after the other on the same directories. Each begins with `replayWal` on what the one
before has left, and each crashes, in its replay (`Lived.replay`) or in a call (`Lived.run`), at any
effect or in the middle of an append to the log.

* `durable`: whatever the number of crashes, the disk has every acknowledged write, and of the calls
  that crashed some have taken effect and the others not at all.
* `recovery`: a replay that ends gives the database back what the disk has.
-/

namespace TinyKv

open Bytes

/-- A process that crashed in a call: the calls before with their answers, and that call. -/
structure Life where
  calls : List (Call × Option Response)
  inFlight : Call

/-- The calls of all processes, with those of the calls in flight that have taken effect. -/
def tookEffect (lives : List Life) (took : List Bool) : List (Call × Option Response) :=
  (lives.zip took).flatMap fun x =>
    x.1.calls ++ if x.2 then [(x.1.inFlight, some ⟨true, "OK", none⟩)] else []

/-- The effects that have reached the disk in these lives. A process takes calls when its replay has
returned without an error and has left no log. -/
inductive Lived (config : DbFactoryConfig) : List Life → List Effect → Prop
  | new : Lived config [] []
  | replay {lives : List Life} {fs : FileSystem} {q : List Effect} (h : Lived config lives fs.effects)
    (hwal : fs.wal = (Disk.after fs.effects).wal) (env : Nat → Env)
    (hq : CrashPoint fs.effects
      ((createDbWithConfig config).m_memTable.replayWal env fs).2.2.effects q) : Lived config lives q
  | run {lives : List Life} {fs fs' : FileSystem} {m : MemTableImpl StorageManagerImpl}
    {steps : List (Call × Env)} {c : Call} {env : Env} {q : List Effect}
    (h : Lived config lives fs.effects) (hwal : fs.wal = (Disk.after fs.effects).wal)
    (envs : Nat → Env)
    (hreplay : (createDbWithConfig config).m_memTable.replayWal envs fs = (.ok none, m, fs'))
    (hgone : fs'.wal = none) (hsteps : ∀ s ∈ steps, s.1.Loggable ∧ s.2.Untorn) (hc : c.Loggable)
    (henv : env.Untorn)
    (hq : CrashPoint (Machine.run DbImpl.step (⟨m⟩, fs') steps).2.2.effects
      (DbImpl.step (Machine.run DbImpl.step (⟨m⟩, fs') steps).2 (c, env)).2.2.effects q) :
    Lived config (lives ++ [⟨history steps (Machine.run DbImpl.step (⟨m⟩, fs') steps).1, c⟩]) q

/-! ## Histories -/

theorem lastAcked_append (log log' : List (Call × Option Response)) (k : Bytes) :
    lastAcked (log ++ log') k = (lastAcked log' k).or (lastAcked log k) := by
  simp only [lastAcked, List.reverse_append, List.findSome?_append]

theorem tookEffect_snoc {lives : List Life} {took : List Bool} (h : took.length = lives.length)
    (l : Life) (b : Bool) :
    tookEffect (lives ++ [l]) (took ++ [b]) = tookEffect lives took ++
      (l.calls ++ if b then [(l.inFlight, some ⟨true, "OK", none⟩)] else []) := by
  rw [tookEffect, List.zip_append h.symm, List.flatMap_append]
  simp [tookEffect]

/-- What a crash in a call leaves is what is left without the call, or with it. -/
theorem CrashReads.resolve {fmt : TableFormatKind} {val : Bytes → Option Bytes} {c : Call} {d : Disk}
    (h : CrashReads fmt val c d) :
    ∃ took : Bool, ∀ k, d.read fmt k =
      some ((lastAcked (if took then [(c, some ⟨true, "OK", none⟩)] else []) k).getD (val k)) := by
  cases hc : c.entry? with
  | none =>
    refine ⟨false, fun k => ?_⟩
    rcases h k with h | ⟨e, he, -⟩
    · exact h
    · rw [hc] at he
      cases he
  | some e =>
    by_cases htook : d.read fmt e.key = some ((live (some e)).map Entry.val)
    · refine ⟨true, fun k => ?_⟩
      rw [if_pos rfl, lastAcked, List.reverse_singleton, List.findSome?_singleton, acked_some, hc,
        Option.bind_some]
      by_cases hk : e.key = k
      · subst hk
        simpa using htook
      · rw [if_neg fun h => hk h.1]
        rcases h k with h | ⟨e', he', hk', -⟩
        · exact h
        · rw [hc, Option.some_inj] at he'
          exact absurd (he' ▸ hk') hk
    · refine ⟨false, fun k => ?_⟩
      rcases h k with h | ⟨e', he', rfl, hread⟩
      · exact h
      · rw [hc, Option.some_inj] at he'
        subst he'
        exact absurd hread htook

theorem exists_tables {fmt : TableFormatKind} {contents : List Bytes}
    (h : ∀ content ∈ contents, ∃ es, Written fmt content es) :
    ∃ tables, List.Forall₂ (Written fmt) contents tables := by
  induction contents with
  | nil => exact ⟨[], .nil⟩
  | cons content contents ih =>
    obtain ⟨es, hes⟩ := h content List.mem_cons_self
    obtain ⟨tables, htables⟩ := ih fun c hc => h c (List.mem_cons_of_mem _ hc)
    exact ⟨es :: tables, .cons hes htables⟩

/-! ## Every life -/

section

variable {config : DbFactoryConfig}

theorem Recoverable.new (hcap : 1 ≤ config.memtableCapacity) :
    Recoverable config (fun _ => none) (Disk.after []) := by
  refine ⟨fun k => ?_, .none hcap, [], .nil⟩
  rw [@read_of_readRecords config (Disk.after []) [] [] (WAL.readRecords_tail rfl) .nil]
  rfl

/-- **A replay that has ended** leaves an empty memtable over the reads of the disk. -/
theorem Recoverable.replayed (hcap : 1 ≤ config.memtableCapacity) {fs fs' : FileSystem}
    {val : Bytes → Option Bytes} (h : Recoverable config val (Disk.after fs.effects))
    (hwal : (Disk.after fs.effects).wal = fs.wal) {envs : Nat → Env}
    {m : MemTableImpl StorageManagerImpl}
    (hreplay : (createDbWithConfig config).m_memTable.replayWal envs fs = (.ok none, m, fs'))
    (hgone : fs'.wal = none) :
    ∃ tables, DiskRep config m fs' tables ∧ overlay m.m_skiplist.find? tables = val := by
  obtain ⟨res, m', fs'', hrun, hkeeps⟩ := replayWal_safe hcap hwal h envs
  rw [hreplay] at hrun
  cases hrun
  have hempty := hkeeps.flushed rfl
  obtain ⟨hreads, -, tables, hw⟩ := hkeeps.safe.last
  refine ⟨tables, ⟨hkeeps.size, hkeeps.tableFormat, ?_, ?_, hkeeps.wal, ?_, hw⟩, funext fun k => ?_⟩
  · rw [hempty]
    exact Nat.zero_le _
  · rw [hempty]
    exact List.forall_mem_nil _
  · rw [hgone, hempty]
    exact Logged.nil
  · have hread := hreads k
    rw [@read_of_readRecords config _ [] tables (by rw [hkeeps.wal, hgone]; exact WAL.readRecords_tail rfl)
      hw, Option.some_inj] at hread
    rw [overlay, hempty, SortedMap.find?_empty]
    exact hread

/-- **Every life** leaves a disk from which the next can recover. -/
theorem Lived.recoverable (hcap : 1 ≤ config.memtableCapacity) {lives : List Life} {p : List Effect}
    (h : Lived config lives p) :
    ∃ took : List Bool, took.length = lives.length ∧
      Recoverable config (fun k => (lastAcked (tookEffect lives took) k).getD none) (Disk.after p) := by
  induction h with
  | new => exact ⟨[], rfl, .new hcap⟩
  | replay _ hwal env hq ih =>
    obtain ⟨took, hlen, hrec⟩ := ih
    obtain ⟨res, m', fs', hrun, hkeeps⟩ := replayWal_safe hcap hwal.symm hrec env
    rw [hrun] at hq
    exact ⟨took, hlen, hkeeps.safe.2 _ hq⟩
  | @run lives fs fs' m steps c env q _ hwal envs hreplay hgone hsteps hc henv hq ih =>
    obtain ⟨took, hlen, hrec⟩ := ih
    obtain ⟨tables, hrep, hover⟩ := hrec.replayed hcap hwal.symm hreplay hgone
    obtain ⟨tables', hrep', hfits', hover'⟩ :=
      @run_fits config tables hcap (⟨m⟩, fs') hrep (by rw [hgone]; exact .none hcap) steps hsteps
    obtain ⟨tables'', hrep'', -, hsafe⟩ := step_disk hcap hrep' (c := (c, env)) hc henv
    obtain ⟨b, hb⟩ := (hsafe.2 q hq).resolve
    refine ⟨took ++ [b], by simp [hlen], fun k => ?_,
      (step_fits hcap hrep' hfits' (c := (c, env)) hc henv).1.2 q hq,
      exists_tables (written_of_crash hq hrep''.written)⟩
    rw [hb k, hover' k, hover, tookEffect_snoc hlen, lastAcked_append, lastAcked_append, Option.getD_or,
      Option.getD_or]

end

/-- **Durability.** Any number of processes, each of which replays the log that it finds and crashes, in
the replay or in a call, at any effect or in the middle of an append to the log. A process takes calls
only if its replay has returned without an error and has left no log. Directories of levels may not be
created, the log not be removed, and an append to it fail if it leaves nothing there; a table file that
has been opened is written as a whole, under a name that no other one has. Of the calls in flight some
have taken effect; with these, every key reads on the disk as its last acknowledged write in any of the
lives. -/
theorem durable {config : DbFactoryConfig} (hcap : 1 ≤ config.memtableCapacity) {lives : List Life}
    {p : List Effect} (h : Lived config lives p) :
    ∃ took : List Bool, took.length = lives.length ∧ ∀ k,
      (Disk.after p).read config.tableFormat k =
        some ((lastAcked (tookEffect lives took) k).getD none) := by
  obtain ⟨took, hlen, hrec⟩ := h.recoverable hcap
  exact ⟨took, hlen, hrec.reads⟩

/-- **Recovery.** After any number of lives, a new database on what the disk then holds, with its tables
listed newest first, whose names the replay does not draw again, and no failing file operation, can
read its log and ends its replay without an error. Then

* if the log had a whole record, every key has its last acknowledged write in any of the lives, or that
  of a call in flight which has taken effect;
* if it had none, no key is found: the levels have not been loaded. -/
theorem recovery {config : DbFactoryConfig} (hcap : 1 ≤ config.memtableCapacity)
    (hlev : 0 ≤ config.maxLevels) (hmax : config.maxLevels ≠ Int32.maxValue) {lives : List Life}
    {p : List Effect} (h : Lived config lives p) {fs : FileSystem} {envs : Nat → Env}
    (hdisk : HoldsDisk config envs (Disk.after p) fs) (henvs : ∀ i, (envs i).NoFault) :
    ∃ entries, WAL.getEntries fs = some entries ∧
      (NamesApart (tableDir fs) envs entries.length →
        ∃ took m' fs', took.length = lives.length ∧
          (createDbWithConfig config).m_memTable.replayWal envs fs = (.ok none, m', fs') ∧
          (entries ≠ [] → ∀ k, DbImpl.get ⟨m'⟩ fs' k =
            .ok (readResponse ((lastAcked (tookEffect lives took) k).getD none))) ∧
          (entries = [] → ∀ k, DbImpl.get ⟨m'⟩ fs' k = .ok (readResponse none))) := by
  obtain ⟨took, hlen, hreads, ⟨entries, hlog, -⟩, tables, hw⟩ := h.recoverable hcap
  have hentries : WAL.getEntries fs = some entries := by
    rw [WAL.getEntries_eq, hdisk.wal]
    exact hlog
  refine ⟨entries, hentries, fun hnames => ?_⟩
  obtain ⟨m', fs', hrun, -, -, -, hnil, hget⟩ :=
    replay_new hcap hlev hmax hdisk (written_of_mem hw) henvs hentries hnames
  exact ⟨took, m', fs', hlen, hrun, fun hne k => hget hne k _ (hreads k), hnil⟩

/-! A put that finds the memtable full, crashed between its table and the removal of the log. -/

def crashConfig : DbFactoryConfig := { memtableCapacity := 1, maxLevels := 0 }

def crashSteps : List (Call × Env) := [(.put "a" "1", {}), (.put "b" "2", { nameCounter := 2 })]

def crashEffects : List Effect :=
  (DbImpl.step (runFresh crashConfig crashSteps).2 (.put "b" "3", { nameCounter := 1 })).2.2.effects.take 7

/-- The directory of level 0 that it leaves. -/
def crashDir : Dir :=
  ((SortedMap.empty : Dir).insert
      (("table-2" : Bytes), .regular (TableFormatKind.InMemory.content [⟨"a", "1", false⟩] 0 0))).insert
    (("table-1" : Bytes), .regular (TableFormatKind.InMemory.content [⟨"b", "2", false⟩] 0 1))

/-- What it leaves. -/
def crashFiles : FileSystem :=
  { FileSystem.empty.setDir (levelName 0) crashDir with wal := some (WAL.record ⟨"b", "2", false⟩) }

def replayEnvs (i : Nat) : Env := { nameCounter := UInt64.ofNat (i + 3) }

theorem holdsDisk_crashFiles :
    HoldsDisk crashConfig replayEnvs (Disk.after crashEffects) crashFiles := by
  have hlist : (listing {} crashFiles).map Prod.snd =
      (Disk.after crashEffects).tables.map FileNode.regular := by decide +kernel
  exact ⟨((BaseOk.empty _).setDir (i := 0) (by decide) crashDir nofun).congr rfl, by decide +kernel,
    fun _ => hlist⟩

theorem getEntries_crashFiles : WAL.getEntries crashFiles = some [⟨"b", "2", false⟩] := by
  have hlog := @WAL.readRecords_log [⟨"b", "2", false⟩] (by decide) [] rfl
  rw [List.append_nil] at hlog
  rw [WAL.getEntries_eq]
  exact hlog

def crashLife : Life := ⟨history crashSteps (runFresh crashConfig crashSteps).1, .put "b" "3"⟩

theorem lived_crash : Lived crashConfig [crashLife] crashEffects := by
  have hput : ∀ key val : Bytes, key.length ≤ 2 ^ 30 → val.length ≤ 2 ^ 30 →
      (Call.put key val).Loggable := fun _ _ hk hv => ⟨hk, hv⟩
  have hsteps : ∀ c ∈ crashSteps, c.1.Loggable ∧ c.2.Untorn := by
    intro c hc
    simp only [crashSteps, List.mem_cons, List.not_mem_nil, or_false] at hc
    rcases hc with rfl | rfl
    · exact ⟨hput _ _ (by decide) (by decide), nofun⟩
    · exact ⟨hput _ _ (by decide) (by decide), nofun⟩
  have hbefore : (runFresh crashConfig crashSteps).2.2.effects <+: crashEffects := by decide +kernel
  exact @Lived.run crashConfig [] FileSystem.empty FileSystem.empty
    (createDbWithConfig crashConfig).m_memTable crashSteps (.put "b" "3") { nameCounter := 1 } _ .new rfl
    replayEnvs (replayWal_nil (WAL.getEntries_eq _ ▸ WAL.readRecords_tail rfl)) rfl hsteps
    (hput _ _ (by decide) (by decide)) nofun (.between hbefore (List.take_prefix _ _))

theorem lastAcked_crashLife {took : List Bool} (h : took.length = [crashLife].length) :
    lastAcked (tookEffect [crashLife] took) "a" = some (some (ofString "1")) := by
  match took, h with
  | [true], _ => decide +kernel
  | [false], _ => decide +kernel

/-! A replay that crashed in turn, when its table had been written. -/

def interruptedFiles : FileSystem := { crashFiles with effects := crashEffects }

def interruptedEffects : List Effect :=
  ((createDbWithConfig crashConfig).m_memTable.replayWal replayEnvs interruptedFiles).2.2.effects.take 9

theorem durable_interrupted :
    interruptedEffects.length = 9 ∧ crashEffects.length = 7 ∧
      (Disk.after interruptedEffects).read .InMemory "a" = some (some (ofString "1")) := by
  have hreplay : crashEffects <+: interruptedEffects := by decide +kernel
  obtain ⟨took, hlen, hread⟩ := @durable crashConfig (by decide) [crashLife] interruptedEffects
    (@Lived.replay crashConfig [crashLife] interruptedFiles _ lived_crash (by decide +kernel) replayEnvs
      (.between hreplay (List.take_prefix _ _)))
  refine ⟨by decide +kernel, by decide +kernel, ?_⟩
  have h := hread "a"
  rw [lastAcked_crashLife hlen] at h
  exact h

theorem recovery_midFlush :
    ∃ m' fs', (createDbWithConfig crashConfig).m_memTable.replayWal replayEnvs crashFiles =
        (.ok none, m', fs') ∧
      DbImpl.get ⟨m'⟩ fs' "a" = .ok ⟨true, "OK", some (ofString "1")⟩ := by
  obtain ⟨entries, hentries, hreplay⟩ := @recovery crashConfig (by decide) (by decide) (by decide)
    [crashLife] crashEffects lived_crash crashFiles replayEnvs holdsDisk_crashFiles
    fun _ => ⟨fun _ => rfl, rfl, rfl⟩
  rw [getEntries_crashFiles, Option.some_inj] at hentries
  subst hentries
  obtain ⟨took, m', fs', hlen, hrun, hget, -⟩ := hreplay ⟨fun i j hij hj => by
    simp only [List.length_cons, List.length_nil] at hj
    interval_cases j <;> interval_cases i
    decide +kernel, fun i hi => by
    simp only [List.length_cons, List.length_nil] at hi
    interval_cases i <;> decide +kernel⟩
  refine ⟨m', fs', hrun, (hget (by simp) "a").trans ?_⟩
  rw [lastAcked_crashLife hlen]
  rfl

end TinyKv
