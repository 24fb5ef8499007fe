import TinyKv.Api.CommandHandler
import TinyKv.Core.Proof.KeyValue

/-!
# Which requests take the server down

An exception leaves `execute` exactly when a request starts a flush (`StartsFlush`) of a skip list
that cannot be written (`CanFlush`): `serveLine_returns_iff` for one line, `server_returns_iff` for
every sequence of lines.
-/

namespace TinyKv

open Bytes protocol

/-- The call that a request line makes, if it makes one. -/
def callOf (line : Bytes) : Option Call :=
  match decodeLine line with
  | .ok ⟨.GET, key :: _⟩ => some (.get key)
  | .ok ⟨.PUT, key :: val :: _⟩ => some (.put key val)
  | .ok ⟨.DEL, key :: _⟩ => some (.del key)
  | .ok ⟨._FLUSH, _⟩ => some .forceFlushForTests
  | _ => none

/-- The line makes a call that starts a flush: `_FLUSH`, a `PUT` on a full memtable, or a `DEL` of a
key that is there on a full memtable. -/
def StartsFlush (db : DbImpl StorageManagerImpl) (fs : FileSystem) (line : Bytes) : Prop :=
  ∃ c, callOf line = some c ∧ db.StartsFlush fs c

/-- The skip list can be written to a table: it is not empty, the levels can be counted, and in the
block-based format no key and no live value has `2 ^ 32` bytes or more. -/
def CanFlush (config : DbFactoryConfig) (skiplist : SkipListImpl) : Prop :=
  skiplist.toList ≠ [] ∧ config.maxLevels ≠ Int32.maxValue ∧
    (config.tableFormat = .BlockBased → ∀ e ∈ skiplist.toList,
      e.key.length < 2 ^ 32 ∧ (e.tombstone = false → e.val.length < 2 ^ 32))

theorem canWrite_iff {config : DbFactoryConfig} {l : SkipListImpl} :
    canWrite config l.toList = true ↔ CanFlush config l := by
  have hsmall : ∀ e : Entry, e.persisted.Small ↔
      e.key.length < 2 ^ 32 ∧ (e.tombstone = false → e.val.length < 2 ^ 32) := by
    intro e
    simp only [Entry.Small, Entry.persisted]
    cases e.tombstone <;> simp
  simp only [canWrite, CanFlush, decide_eq_true_eq]
  cases config.tableFormat with
  | InMemory =>
    simp only [TableFormatKind.Writable]
    constructor
    · exact fun h => ⟨h.2, h.1, fun hbb => by cases hbb⟩
    · exact fun h => ⟨h.2.1, h.1⟩
  | BlockBased =>
    simp only [TableFormatKind.Writable, hsmall]
    constructor
    · exact fun h => ⟨h.2.1, h.1, fun _ => h.2.2⟩
    · exact fun h => ⟨h.2.1, h.1, h.2.2 trivial⟩

/-! ## One line -/

section Line

variable {x : DbImpl StorageManagerImpl × FileSystem}

/-- What a line that makes no call is answered with. -/
def lineReplies : List Bytes :=
  ["empty command", "Usage: GET <key>", "Usage: PUT <key> <value>", "Usage: DEL <key>", "Bye",
    "Unknown command"]

theorem decodeLine_error {line err : Bytes} (h : decodeLine line = .error err) :
    err = ("empty command" : Bytes) := by
  unfold decodeLine at h
  split at h
  · cases h
    rfl
  · cases h

/-- A line makes its call, or is answered from the line alone. -/
theorem serveLine_eq (x : DbImpl StorageManagerImpl × FileSystem) (line : Bytes × Env) :
    (∃ c, callOf line.1 = some c ∧ serveLine x line = DbImpl.step x (c, line.2)) ∨
      (callOf line.1 = none ∧ ∃ r, serveLine x line = (.ok r, x) ∧ r.data = none ∧
        r.message ∈ lineReplies) := by
  unfold callOf serveLine
  cases hreq : decodeLine line.1 with
  | error err => exact .inr ⟨rfl, _, rfl, rfl, by simp [decodeLine_error hreq, lineReplies]⟩
  | ok req =>
    obtain ⟨cmd, args⟩ := req
    cases cmd with
    | GET =>
      cases args with
      | nil => exact .inr ⟨rfl, _, rfl, rfl, by simp [lineReplies]⟩
      | cons key args => exact .inl ⟨_, rfl, rfl⟩
    | PUT =>
      cases args with
      | nil => exact .inr ⟨rfl, _, rfl, rfl, by simp [lineReplies]⟩
      | cons key args =>
        cases args with
        | nil => exact .inr ⟨rfl, _, rfl, rfl, by simp [lineReplies]⟩
        | cons val args => exact .inl ⟨_, rfl, rfl⟩
    | DEL =>
      cases args with
      | nil => exact .inr ⟨rfl, _, rfl, rfl, by simp [lineReplies]⟩
      | cons key args => exact .inl ⟨_, rfl, rfl⟩
    | _FLUSH => exact .inl ⟨_, rfl, rfl⟩
    | EXIT => exact .inr ⟨rfl, _, rfl, rfl, by simp [lineReplies]⟩
    | UNKNOWN => exact .inr ⟨rfl, _, rfl, rfl, by simp [lineReplies]⟩

variable {config : DbFactoryConfig} {s : Lsm}

/-- **One line is answered exactly when it starts no flush of a skip list that cannot be
written.** -/
theorem serveLine_returns_iff (h0 : 0 ≤ config.maxLevels) (hcap : 0 ≤ config.memtableCapacity)
    (h : DbRep config x s) {line : Bytes × Env} (henv : line.2.NoFault)
    (hfits : config.tableFormat = .BlockBased → Fits (serveLine x line).2.2.effects) :
    (∃ r, (serveLine x line).1 = .ok r) ↔
      (StartsFlush x.1 x.2 line.1 → CanFlush config x.1.m_memTable.m_skiplist) := by
  have hstarts : ∀ c, x.1.StartsFlush x.2 c ↔ _ := startsFlush_iff (stored_spec h0) h hcap
  rw [StartsFlush, ← canWrite_iff, h.skiplist]
  rcases serveLine_eq x line with ⟨c, hc, hrun⟩ | ⟨hc, r, hrun, -⟩
  · rw [hrun] at hfits ⊢
    have hout := (step_refines_fresh (c := (c, line.2)) h0 hcap h henv hfits).1
    have hok : (∃ r, (DbImpl.step x (c, line.2)).1 = .ok r) ↔
        ¬ (DbImpl.step x (c, line.2)).1.toOption = none := by
      cases (DbImpl.step x (c, line.2)).1 <;> simp [Except.toOption]
    rw [hok, hout, Lsm.step_eq_none_iff, hc]
    simp only [Option.some.injEq, exists_eq_left', hstarts, not_and, Bool.not_eq_false]
  · rw [hrun, hc]
    simp

end Line

/-! ## Every sequence of lines -/

/-- The calls that lines make. -/
def callsOf (lines : List (Bytes × Env)) : List (Call × Env) :=
  lines.filterMap fun line => (callOf line.1).map fun c => (c, line.2)

theorem callsOf_cons (line : Bytes × Env) (lines : List (Bytes × Env)) :
    callsOf (line :: lines) =
      (((callOf line.1).map fun c => (c, line.2)).toList ++ callsOf lines) := by
  simp only [callsOf, List.filterMap_cons]
  cases callOf line.1 <;> rfl

theorem run_serveLine_snd (x : DbImpl StorageManagerImpl × FileSystem) (lines : List (Bytes × Env)) :
    (Machine.run serveLine x lines).2 = (Machine.run DbImpl.step x (callsOf lines)).2 := by
  induction lines generalizing x with
  | nil => rfl
  | cons line lines ih =>
    rw [Machine.run_cons]
    dsimp only
    rcases serveLine_eq x line with ⟨c, hc, hrun⟩ | ⟨hc, r, hrun, -⟩
    · rw [hrun, ih, callsOf_cons, hc]
      rfl
    · rw [hrun, ih, callsOf_cons, hc]
      rfl

theorem serveLine_effects (x : DbImpl StorageManagerImpl × FileSystem) (line : Bytes × Env) :
    x.2.effects <+: (serveLine x line).2.2.effects := by
  rcases serveLine_eq x line with ⟨c, -, hrun⟩ | ⟨-, r, hrun, -⟩
  · rw [hrun]
    exact DbImpl.step_effects x (c, line.2)
  · rw [hrun]

theorem run_serveLine_effects (x : DbImpl StorageManagerImpl × FileSystem)
    (lines : List (Bytes × Env)) : x.2.effects <+: (Machine.run serveLine x lines).2.2.effects :=
  Machine.run_rel (R := fun x y => x.2.effects <+: y.2.effects) (fun _ => List.prefix_refl _)
    List.IsPrefix.trans serveLine_effects x lines

/-- The server from its start on empty directories. -/
def serveFresh (config : DbFactoryConfig) (lines : List (Bytes × Env)) :
    List (Except Fault Response) × DbImpl StorageManagerImpl × FileSystem :=
  Machine.run serveLine (createDbWithConfig config, FileSystem.empty) lines

/-- **Every line is answered exactly when none starts a flush of a skip list that cannot be
written.** -/
theorem server_returns_iff {config : DbFactoryConfig} (hcap : 1 ≤ config.memtableCapacity)
    (hlev : 0 ≤ config.maxLevels) {lines : List (Bytes × Env)} (henv : ∀ l ∈ lines, l.2.NoFault)
    (hfits : config.tableFormat = .BlockBased → Fits (serveFresh config lines).2.2.effects) :
    (∀ r ∈ (serveFresh config lines).1, ∃ resp, r = .ok resp) ↔
      ∀ pre line post, lines = pre ++ line :: post →
        StartsFlush (serveFresh config pre).2.1 (serveFresh config pre).2.2 line.1 →
          CanFlush config (serveFresh config pre).2.1.m_memTable.m_skiplist := by
  refine Machine.run_forall_iff
    (C := fun (x : DbImpl StorageManagerImpl × FileSystem) (line : Bytes × Env) =>
      StartsFlush x.1 x.2 line.1 → CanFlush config x.1.m_memTable.m_skiplist) ?_
  intro pre line post hsplit
  have hcap0 := zero_le_of_one_le hcap
  -- what the whole run satisfies holds up to this line
  have hfits1 : config.tableFormat = .BlockBased →
      Fits (serveLine (serveFresh config pre).2 line).2.2.effects := by
    intro hbb
    apply (hfits hbb).earlier
    rw [hsplit, serveFresh, serveFresh, Machine.run_append, Machine.run_cons]
    exact run_serveLine_effects _ post
  have hfits0 : config.tableFormat = .BlockBased →
      Fits (runFresh config (callsOf pre)).2.2.effects := by
    intro hbb
    rw [runFresh, ← run_serveLine_snd]
    exact (hfits1 hbb).earlier (serveLine_effects _ line)
  have henv0 : ∀ c ∈ callsOf pre, c.2.NoFault := by
    intro c hc
    obtain ⟨l, hl, hlc⟩ := List.mem_filterMap.1 hc
    obtain ⟨c', -, rfl⟩ := Option.map_eq_some_iff.1 hlc
    exact henv l (by rw [hsplit]; exact List.mem_append_left _ hl)
  have hrep := (runFresh_refines config hlev hcap0 henv0 hfits0).2
  rw [runFresh, ← run_serveLine_snd] at hrep
  exact serveLine_returns_iff hlev hcap0 hrep (henv line (by simp [hsplit])) hfits1

/-- A put, its flush and a read: every line is answered, and the flush finds the put. -/
theorem server_returns_put_flush_get :
    (∀ r ∈ (serveFresh {} [("PUT a 1", {}), ("_FLUSH", {}), ("get a", {})]).1, ∃ resp, r = .ok resp) ∧
      CanFlush {} (serveFresh {} [("PUT a 1", {})]).2.1.m_memTable.m_skiplist := by
  have hrun : (serveFresh {} [("PUT a 1", {}), ("_FLUSH", {}), ("get a", {})]).1 =
      [.ok ⟨true, "OK", none⟩, .ok ⟨true, "OK", none⟩, .ok ⟨true, "OK", some "1"⟩] := by
    decide +kernel
  have hall : ∀ r ∈ (serveFresh {} [("PUT a 1", {}), ("_FLUSH", {}), ("get a", {})]).1,
      ∃ resp, r = .ok resp := by
    rw [hrun]
    simp
  have henv : ∀ l ∈ ([("PUT a 1", {}), ("_FLUSH", {}), ("get a", {})] : List (Bytes × Env)),
      l.2.NoFault := by
    intro l hl
    simp only [List.mem_cons, List.not_mem_nil, or_false] at hl
    rcases hl with rfl | rfl | rfl <;> exact ⟨fun _ => rfl, rfl, rfl⟩
  have hflush : StartsFlush (serveFresh {} [("PUT a 1", {})]).2.1
      (serveFresh {} [("PUT a 1", {})]).2.2 "_FLUSH" := by
    have hcall : callOf "_FLUSH" = some .forceFlushForTests := by decide +kernel
    exact ⟨_, hcall, trivial⟩
  exact ⟨hall, (@server_returns_iff {} (by decide) (by decide) _ henv nofun).1 hall
    [("PUT a 1", {})] ("_FLUSH", {}) [("get a", {})] rfl hflush⟩

/-- **The first request of a client can be the last**: `_FLUSH` on a new database throws. -/
theorem flush_of_empty_throws :
    ¬ ∀ r ∈ (serveFresh {} [("_FLUSH", {})]).1, ∃ resp, r = .ok resp := by
  have hrun : (serveFresh {} [("_FLUSH", {})]).1 =
      [.error (.runtimeError "SSTableWriter::write(): Cannot write empty SSTable")] := by
    decide +kernel
  intro h
  obtain ⟨resp, hresp⟩ := h _ (by rw [hrun]; exact List.mem_cons_self)
  cases hresp

end TinyKv
