import TinyKv.Core.Proof.Replay
import TinyKv.Lib.Run
import Mathlib.Data.List.Infix

/-!
# The capacity of the memtable

A write finds the skip list full by an equality, so the list must never be larger than `m_size`.
`put` and `del` do not set an entry when their flush has failed; the loop of `replayWal` does. So the
list stays within its capacity iff no round of a replay fails to flush a full list that lacks the
key of the round (`capacity_iff`): over any storage manager, with any failures, on any disks.
-/

namespace TinyKv

open Bytes

/-- A call of the memtable, with the disk it finds; `replayWal` takes an environment for each
entry. -/
inductive MemTableCall where
  | put (env : Env) (key val : Bytes) (fs : FileSystem)
  | del (env : Env) (key : Bytes) (fs : FileSystem)
  | flushToDisk (env : Env) (fs : FileSystem)
  | replayWal (env : Nat → Env) (fs : FileSystem)

namespace MemTableImpl

variable {σ : Type} [StorageManager σ]

/-- The memtable after a call, whether it returns or throws. -/
def after (m : MemTableImpl σ) : MemTableCall → MemTableImpl σ
  | .put env key val fs => (m.put env key val fs).2.1
  | .del env key fs => (m.del env key fs).2.1
  | .flushToDisk env fs => (m.flushToDisk env fs).2.1
  | .replayWal env fs => (m.replayWal env fs).2.1

/-- The memtable after each round of the loop of `replayWal`. -/
def afterRounds (m : MemTableImpl σ) (env : Nat → Env) (fs : FileSystem) : List (MemTableImpl σ) :=
  ((WAL.getEntries fs).getD []).inits.map fun done =>
    ({ m with m_readOnly := true }.replayEntries env 0 fs done).2.1

/-- The states that a call goes through. -/
def states (m : MemTableImpl σ) (c : MemTableCall) : List (MemTableImpl σ) :=
  match c with
  | .replayWal env fs => m.afterRounds env fs ++ [m.after c]
  | _ => [m.after c]

/-- A call, as a step of the memtable. -/
def visit (m : MemTableImpl σ) (c : MemTableCall) : List (MemTableImpl σ) × MemTableImpl σ :=
  (m.states c, m.after c)

/-- A flush of the memtable returns an error: the storage manager does, or the log cannot be
removed. -/
def FlushReturnsError (m : MemTableImpl σ) (env : Env) (fs : FileSystem) : Prop :=
  (∃ err, (StorageManager.write m.m_storageManager env m.m_skiplist.toList fs).1 = .ok (some err)) ∨
    (StorageManager.write m.m_storageManager env m.m_skiplist.toList fs).1 = .ok none ∧
      env.removeFault ≠ none

/-- A round of the loop of `replayWal` that finds the skip list full without the key of its entry
does not fail to flush it. -/
def RoundFits (m : MemTableImpl σ) (env : Env) (fs : FileSystem) (e : Entry) : Prop :=
  m.m_skiplist.getLength = some m.m_size → m.m_skiplist.find? e.key = none →
    ¬ m.FlushReturnsError env fs

/-- Every round of a replay fits, in the state that the rounds before it have left. -/
def CallFits (m : MemTableImpl σ) : MemTableCall → Prop
  | .replayWal env fs =>
    ∀ done e rest, (WAL.getEntries fs).getD [] = done ++ e :: rest → ∀ m' fs',
      { m with m_readOnly := true }.replayEntries env 0 fs done = (.ok (), m', fs') →
        m'.RoundFits (env done.length) fs' e
  | _ => True

/-! ## One flush -/

/-- The skip list is within the capacity `size`. -/
structure Within (size : Int32) (m : MemTableImpl σ) : Prop where
  capacity : m.m_size = size
  bounded : m.m_skiplist.size ≤ size.toInt.toNat

variable {size : Int32} {m : MemTableImpl σ} {env : Env} {fs : FileSystem}

theorem remove_none_iff (fault : Option Bytes) (fs : FileSystem) :
    (∃ fs', WAL.remove fault fs = (none, fs')) ↔ fault = none := by
  cases fault with
  | some what => simp [WAL.remove]
  | none =>
    unfold WAL.remove
    cases fs.wal <;> simp

/-- **A flush** throws or returns an error and leaves the skip list, or empties it. -/
theorem flushToDisk_cases (m : MemTableImpl σ) (env : Env) (fs : FileSystem) :
    (∃ f m' fs', m.flushToDisk env fs = (.error f, m', fs') ∧ m'.m_size = m.m_size ∧
      m'.m_skiplist = m.m_skiplist ∧ ¬ m.FlushReturnsError env fs) ∨
    (∃ err m' fs', m.flushToDisk env fs = (.ok (some err), m', fs') ∧ m'.m_size = m.m_size ∧
      m'.m_skiplist = m.m_skiplist ∧ m.FlushReturnsError env fs) ∨
    ∃ m' fs', m.flushToDisk env fs = (.ok none, m', fs') ∧ m'.m_size = m.m_size ∧
      m'.m_skiplist = SortedMap.empty ∧ ¬ m.FlushReturnsError env fs := by
  unfold flushToDisk FlushReturnsError
  dsimp only
  rcases hw : StorageManager.write m.m_storageManager env m.m_skiplist.toList fs with ⟨res, sm, fs1⟩
  cases res with
  | error f => exact .inl ⟨f, _, fs1, rfl, rfl, rfl, by simp⟩
  | ok err =>
    cases err with
    | some err => exact .inr (.inl ⟨err, _, fs1, rfl, rfl, rfl, .inl ⟨err, rfl⟩⟩)
    | none =>
      dsimp only
      rcases hr : WAL.remove env.removeFault fs1 with ⟨err, fs2⟩
      have hiff := remove_none_iff env.removeFault fs1
      rw [hr] at hiff
      cases err with
      | some err =>
        refine .inr (.inl ⟨err, _, fs2, rfl, rfl, rfl, .inr ⟨rfl, fun hnone => ?_⟩⟩)
        obtain ⟨fs', h⟩ := hiff.2 hnone
        cases h
      | none =>
        have hnone := hiff.1 ⟨fs2, rfl⟩
        exact .inr (.inr ⟨_, fs2, rfl, rfl, rfl, by simp [hnone]⟩)

theorem Within.flushToDisk (h : Within size m) (env : Env) (fs : FileSystem) :
    Within size (m.flushToDisk env fs).2.1 := by
  obtain ⟨f, m', fs', hrun, hcap, hlist, -⟩ | ⟨err, m', fs', hrun, hcap, hlist, -⟩ |
    ⟨m', fs', hrun, hcap, hlist, -⟩ := m.flushToDisk_cases env fs
  · rw [hrun]
    exact ⟨hcap.trans h.capacity, hlist ▸ h.bounded⟩
  · rw [hrun]
    exact ⟨hcap.trans h.capacity, hlist ▸ h.bounded⟩
  · rw [hrun]
    exact ⟨hcap.trans h.capacity, hlist ▸ Nat.zero_le _⟩

omit [StorageManager σ] in
theorem Within.full_iff (h : Within size m) (hsize : 1 ≤ size) :
    m.m_skiplist.getLength = some m.m_size ↔ m.m_skiplist.size = size.toInt.toNat := by
  rw [h.capacity]
  exact @getLength_eq_iff { memtableCapacity := size } _ h.bounded (zero_le_of_one_le hsize)

omit [StorageManager σ] in
theorem Within.set (h : Within size m) {e : Entry}
    (hroom : m.m_skiplist.size < size.toInt.toNat ∨ m.m_skiplist.find? e.key ≠ none) :
    Within size { m with m_skiplist := m.m_skiplist.insert e } := by
  refine ⟨h.capacity, ?_⟩
  have hb := h.bounded
  dsimp only
  rw [SortedMap.size_insert]
  split
  · exact hb
  · rename_i hsome
    have hlt := hroom.resolve_right fun hne => hsome (Option.isSome_iff_ne_none.2 hne)
    exact hlt

/-! ## Writes -/

theorem Within.flushIfFull (h : Within size m) (hsize : 1 ≤ size) (env : Env) (fs : FileSystem) :
    Within size (m.flushIfFull env fs).2.1 ∧
      ((m.flushIfFull env fs).1 = .ok none →
        (m.flushIfFull env fs).2.1.m_skiplist.size < size.toInt.toNat) := by
  unfold MemTableImpl.flushIfFull
  split
  · have hro : Within size { m with m_readOnly := true } := ⟨h.capacity, h.bounded⟩
    refine ⟨hro.flushToDisk env fs, fun hok => ?_⟩
    obtain ⟨f, m', fs', hrun, -⟩ | ⟨err, m', fs', hrun, -⟩ | ⟨m', fs', hrun, -, hlist, -⟩ :=
      flushToDisk_cases { m with m_readOnly := true } env fs
    · rw [hrun] at hok
      cases hok
    · rw [hrun] at hok
      cases hok
    · rw [hrun, hlist]
      exact toNat_pos_of_one_le hsize
  · rename_i hfull
    exact ⟨h, fun _ => lt_of_le_of_ne h.bounded fun he => hfull ((h.full_iff hsize).2 he)⟩

omit [StorageManager σ] in
theorem Within.logAndSet (h : Within size m) (hroom : m.m_skiplist.size < size.toInt.toNat)
    (env : Env) (e : Entry) (fs : FileSystem) : Within size (m.logAndSet env e fs).2.1 := by
  unfold MemTableImpl.logAndSet
  split
  · exact h
  · exact h.set (.inl hroom)

theorem Within.put (h : Within size m) (hsize : 1 ≤ size) (env : Env) (key val : Bytes)
    (fs : FileSystem) : Within size (m.put env key val fs).2.1 := by
  obtain ⟨hw, hroom⟩ := h.flushIfFull hsize env fs
  unfold MemTableImpl.put
  split
  · exact h
  · rcases hf : m.flushIfFull env fs with ⟨res, m', fs'⟩
    rw [hf] at hw hroom
    cases res with
    | error f => exact hw
    | ok err =>
      cases err with
      | some err => exact hw
      | none => exact hw.logAndSet (hroom rfl) env _ fs'

theorem Within.delExisting (h : Within size m) (hsize : 1 ≤ size) (env : Env) (key : Bytes)
    (fs : FileSystem) : Within size (m.delExisting env key fs).2.1 := by
  obtain ⟨hw, hroom⟩ := h.flushIfFull hsize env fs
  unfold MemTableImpl.delExisting
  split
  · exact h
  · rcases hf : m.flushIfFull env fs with ⟨res, m', fs'⟩
    rw [hf] at hw hroom
    cases res with
    | error f => exact hw
    | ok err =>
      cases err with
      | some err => exact hw
      | none =>
        have hset := hw.logAndSet (hroom rfl) env ⟨key, "val", true⟩ fs'
        dsimp only
        rcases hl : m'.logAndSet env ⟨key, "val", true⟩ fs' with ⟨err, m'', fs''⟩
        rw [hl] at hset
        cases err with
        | some err => exact hset
        | none =>
          dsimp only
          split
          · exact hset
          · exact hset

theorem Within.del (h : Within size m) (hsize : 1 ≤ size) (env : Env) (key : Bytes)
    (fs : FileSystem) : Within size (m.del env key fs).2.1 := by
  unfold MemTableImpl.del
  split
  · exact h.delExisting hsize env key fs
  · split
    · exact h
    · exact h
    · exact h.delExisting hsize env key fs

/-! ## A replay -/

section Replay

variable {env : Nat → Env} {i : Nat}

/-- Rounds of the loop follow each other until one throws. -/
theorem replayEntries_append (m : MemTableImpl σ) (env : Nat → Env) (i : Nat) (fs : FileSystem)
    (done rest : List Entry) :
    m.replayEntries env i fs (done ++ rest) =
      match m.replayEntries env i fs done with
      | (.error f, m, fs) => (.error f, m, fs)
      | (.ok (), m, fs) => m.replayEntries env (i + done.length) fs rest := by
  induction done generalizing m i fs with
  | nil => rfl
  | cons e done ih =>
    have hlen : i + (e :: done).length = i + 1 + done.length := by
      rw [List.length_cons]
      omega
    rw [List.cons_append, replayEntries, replayEntries, hlen]
    split
    · split
      · rfl
      · exact ih ..
    · exact ih ..

/-- **One round** keeps the skip list within its capacity iff it fits. -/
theorem Within.round_iff (h : Within size m) (hsize : 1 ≤ size) (e : Entry) :
    (m.replayEntries env i fs [e]).2.1.m_size = size ∧
      (Within size (m.replayEntries env i fs [e]).2.1 ↔ m.RoundFits (env i) fs e) := by
  unfold RoundFits
  simp only [replayEntries]
  by_cases hfull : m.m_skiplist.getLength = some m.m_size
  · rw [if_pos hfull]
    have hlen := (h.full_iff hsize).1 hfull
    obtain ⟨f, m', fs', hrun, hcap, hlist, hno⟩ | ⟨err, m', fs', hrun, hcap, hlist, herr⟩ |
      ⟨m', fs', hrun, hcap, hlist, hno⟩ := m.flushToDisk_cases (env i) fs
    · rw [hrun]
      exact ⟨hcap.trans h.capacity, fun _ _ _ => hno,
        fun _ => ⟨hcap.trans h.capacity, hlist ▸ h.bounded⟩⟩
    · -- the list is as full as before, so only a key that it has leaves it within its capacity
      rw [hrun]
      have hm' : Within size m' := ⟨hcap.trans h.capacity, hlist ▸ h.bounded⟩
      refine ⟨hm'.capacity, fun hw _ hnone => ?_, fun hfit => hm'.set (.inr fun hnone => ?_)⟩
      · have hb := hw.bounded
        dsimp only at hb
        rw [SortedMap.size_insert, hlist, hnone, if_neg (by simp), hlen] at hb
        omega
      · rw [hlist] at hnone
        exact hfit hfull hnone herr
    · rw [hrun]
      have hm' : Within size m' := ⟨hcap.trans h.capacity, hlist ▸ Nat.zero_le _⟩
      refine ⟨hm'.capacity, fun _ _ _ => hno, fun _ => hm'.set (.inl ?_)⟩
      rw [hlist]
      exact toNat_pos_of_one_le hsize
  · rw [if_neg hfull]
    have hlt := lt_of_le_of_ne h.bounded fun he => hfull ((h.full_iff hsize).2 he)
    exact ⟨h.capacity, fun _ hf => absurd hf hfull, fun _ => h.set (.inl hlt)⟩

/-- **The loop** keeps the skip list within its capacity after every round iff every round fits. -/
theorem Within.rounds_iff (h : Within size m) (hsize : 1 ≤ size) (entries : List Entry) :
    (∀ done, done <+: entries → Within size (m.replayEntries env i fs done).2.1) ↔
      ∀ done e rest, entries = done ++ e :: rest → ∀ m' fs',
        m.replayEntries env i fs done = (.ok (), m', fs') →
          m'.RoundFits (env (i + done.length)) fs' e := by
  refine ⟨fun hall done e rest hsplit m' fs' hrun => ?_, fun hfits done hdone => ?_⟩
  · have hbefore := hall done ⟨e :: rest, hsplit.symm⟩
    have hafter := hall (done ++ [e]) ⟨rest, by rw [hsplit, List.append_assoc]; rfl⟩
    rw [replayEntries_append, hrun] at hafter
    rw [hrun] at hbefore
    exact (hbefore.round_iff hsize e).2.1 hafter
  · -- from the front: the state before each round is within the capacity
    induction done using List.reverseRecOn with
    | nil => exact h
    | append_singleton done e ih =>
      obtain ⟨rest, hrest⟩ := hdone
      rw [List.append_assoc] at hrest
      have hbefore := ih ⟨[e] ++ rest, hrest⟩
      rw [replayEntries_append]
      rcases hrun : m.replayEntries env i fs done with ⟨res, m', fs'⟩
      rw [hrun] at hbefore
      cases res with
      | error f => exact hbefore
      | ok u => exact (hbefore.round_iff hsize e).2.2 (hfits done e rest hrest.symm m' fs' hrun)

theorem Within.finishReplay (h : Within size m) (env : Env) (fs : FileSystem) :
    Within size (m.finishReplay env fs).2.1 := by
  have hflushed : Within size (if m.m_skiplist.getLength.any (0 < ·) then m.flushToDisk env fs
      else (.ok none, m, fs)).2.1 := by
    split
    · exact h.flushToDisk env fs
    · exact h
  unfold MemTableImpl.finishReplay
  dsimp only
  split
  · rename_i hrun
    rwa [hrun] at hflushed
  · rename_i hrun
    rwa [hrun] at hflushed
  · rename_i hrun
    rw [hrun] at hflushed
    exact ⟨hflushed.capacity, hflushed.bounded⟩

theorem Within.replayWal_iff (h : Within size m) (hsize : 1 ≤ size) (env : Nat → Env)
    (fs : FileSystem) :
    (∀ m' ∈ m.states (.replayWal env fs), Within size m') ↔ m.CallFits (.replayWal env fs) := by
  have hro : Within size { m with m_readOnly := true } := ⟨h.capacity, h.bounded⟩
  have hrounds := @Within.rounds_iff σ _ size { m with m_readOnly := true } fs env 0 hro hsize
    ((WAL.getEntries fs).getD [])
  simp only [Nat.zero_add] at hrounds
  show (∀ m' ∈ m.afterRounds env fs ++ [(m.replayWal env fs).2.1], Within size m') ↔ _
  rw [List.forall_mem_append, List.forall_mem_singleton, CallFits, ← hrounds, afterRounds,
    List.forall_mem_map]
  simp only [List.mem_inits]
  refine ⟨fun hall => hall.1, fun hall => ⟨hall, ?_⟩⟩
  -- the loop ends behind its last round, and what follows it makes the list no larger
  unfold MemTableImpl.replayWal
  dsimp only
  cases hentries : WAL.getEntries fs with
  | none => exact hro
  | some entries =>
    rw [hentries] at hall
    have hlast := hall entries (List.prefix_refl _)
    dsimp only
    rcases hrun : replayEntries { m with m_readOnly := true } env 0 fs entries with ⟨res, m', fs'⟩
    rw [hrun] at hlast
    cases res with
    | error f => exact hlast
    | ok u => exact hlast.finishReplay _ fs'

end Replay

/-! ## Runs -/

theorem Within.call_iff (h : Within size m) (hsize : 1 ≤ size) (c : MemTableCall) :
    (∀ m' ∈ m.states c, Within size m') ↔ m.CallFits c := by
  cases c with
  | put env key val fs =>
    simp only [states, List.forall_mem_singleton, CallFits, iff_true]
    exact h.put hsize env key val fs
  | del env key fs =>
    simp only [states, List.forall_mem_singleton, CallFits, iff_true]
    exact h.del hsize env key fs
  | flushToDisk env fs =>
    simp only [states, List.forall_mem_singleton, CallFits, iff_true]
    exact h.flushToDisk env fs
  | replayWal env fs => exact h.replayWal_iff hsize env fs

theorem after_mem_states (m : MemTableImpl σ) (c : MemTableCall) : m.after c ∈ m.states c := by
  cases c with
  | replayWal env fs => exact List.mem_append_right _ (List.mem_singleton_self _)
  | put env key val fs => exact List.mem_singleton_self _
  | del env key fs => exact List.mem_singleton_self _
  | flushToDisk env fs => exact List.mem_singleton_self _

/-- **The memtable stays within its capacity** in every state of a run iff every call of it fits. -/
theorem capacity_iff {m : MemTableImpl σ} (hsize : 1 ≤ m.m_size)
    (hb : m.m_skiplist.size ≤ m.m_size.toInt.toNat) (calls : List MemTableCall) :
    (∀ visited ∈ (Machine.run visit m calls).1, ∀ m' ∈ visited, Within m.m_size m') ↔
      ∀ pre c post, calls = pre ++ c :: post → (Machine.run visit m pre).2.CallFits c :=
  Machine.run_forall_iff_of_inv (fun _ c h => h.call_iff hsize c)
    (fun m' c _ hall => hall _ (m'.after_mem_states c)) (I := Within m.m_size) ⟨rfl, hb⟩ calls

theorem write_ne_error (sm : StorageManagerImpl) (env : Env) (es : List Entry) (fs : FileSystem)
    (err : Error) : (sm.write env es fs).1 ≠ .ok (some err) := by
  have hlevel : ∀ (sm : StorageManagerImpl) (fs : FileSystem),
      (sm.writeLevel0 env es fs).1 ≠ .ok (some err) := by
    intro sm fs h
    unfold StorageManagerImpl.writeLevel0 at h
    split at h
    · cases h
    · split at h
      · cases h
      · cases h
  unfold StorageManagerImpl.write
  split
  · split
    · exact fun h => by cases h
    · exact hlevel _ _
  · exact hlevel _ _

/-- A replay of three entries in a memtable of one, with a log that can be removed. -/
theorem capacity_iff_replay :
    replaySample.1.m_size = 1 ∧
    ∀ visited ∈ (Machine.run visit replaySample.1
      [.put {} "c" "3" replaySample.2, .replayWal (fun _ => {}) replaySample.2]).1,
      ∀ m' ∈ visited, Within 1 m' := by
  refine ⟨rfl, (@capacity_iff _ _ replaySample.1 (by decide) (by decide) _).2 ?_⟩
  intro pre c post hsplit
  have hmem : c ∈ [MemTableCall.put {} "c" "3" replaySample.2,
      .replayWal (fun _ => {}) replaySample.2] := hsplit ▸ List.mem_append_right _ List.mem_cons_self
  rcases List.mem_cons.1 hmem with rfl | hmem
  · trivial
  · rw [List.mem_singleton.1 hmem]
    intro done e rest _ m' fs' _ _ _ hfails
    rcases hfails with ⟨err, herr⟩ | ⟨-, hfault⟩
    · exact write_ne_error _ _ _ _ _ herr
    · exact hfault rfl

/-- The same replay with a log that cannot be removed: the third entry is set beside the second. -/
theorem replay_outgrows_capacity :
    ∃ visited ∈ (Machine.run visit replaySample.1
      [.replayWal (fun _ => { removeFault := some "busy" }) replaySample.2]).1,
      ∃ m' ∈ visited, m'.m_size = 1 ∧ m'.m_skiplist.size = 2 := by
  refine ⟨_, List.mem_singleton_self _, (replayEntries { replaySample.1 with m_readOnly := true }
    (fun _ => { removeFault := some "busy" }) 0 replaySample.2
    [⟨"b", "1", false⟩, ⟨"b", "2", false⟩, ⟨"a", "", true⟩]).2.1, ?_, ?_⟩
  · refine List.mem_append_left _ (List.mem_map.2 ⟨_, ?_, rfl⟩)
    rw [getEntries_replaySample]
    exact (List.mem_inits _ _).2 (List.prefix_refl _)
  · decide +kernel

end MemTableImpl

end TinyKv
