import TinyKv.Cli.Proof.System

/-!
# The clients share a map

The calls that the sessions of a server answer, in the order of their answers whichever clients they
come from, are a run of one database (`HasTaken`). So what any client is told of a key is what the last
acknowledged write of the key left, by whichever client (`gets_return_last_write`).
-/

namespace TinyKv

open Bytes protocol

variable {σ : Type} [StorageManager σ]

namespace System

/-- The call that an action answers, with its answer. -/
def answered (s : System σ) : Action → Option (Call × Option Response)
  | .turn i env =>
    if !s.crashed && (s.links i).canTurn then
      match (s.turn i env).1 with
      | .answered line res => (callOf line.1).map fun c => (c, some res)
      | .ended | .threw _ | .killed => none
    else none
  | .client _ | .up _ _ | .down _ _ => none

/-- The calls that the sessions answer in a run, with their answers. -/
def log (s : System σ) (actions : List Action) : List (Call × Option Response) :=
  (Machine.run (fun s a => (s.answered a, s.next a)) s actions).1.reduceOption

theorem run_next (s : System σ) (actions : List Action) :
    (Machine.run (fun s a => (answered s a, next s a)) s actions).2 =
      (Machine.run step s actions).2 := by
  induction actions generalizing s with
  | nil => rfl
  | cons a actions ih => exact ih (s.next a)

theorem log_snoc (s : System σ) (actions : List Action) (a : Action) :
    s.log (actions ++ [a]) =
      s.log actions ++ ((Machine.run step s actions).2.answered a).toList := by
  rw [log, Machine.run_snoc, List.reduceOption_append, run_next]
  cases answered (Machine.run step s actions).2 a <;> rfl

end System

/-- The database has taken the calls of the log, each of which has `P`. -/
def HasTaken (P : Call × Env → Prop) (config : DbFactoryConfig)
    (x : DbImpl StorageManagerImpl × FileSystem) (log : List (Call × Option Response)) : Prop :=
  ∃ calls : List (Call × Env), x = (runFresh config calls).2 ∧ (∀ c ∈ calls, P c) ∧
    history calls (runFresh config calls).1 = log

section

variable {P : Call × Env → Prop} {config : DbFactoryConfig}

theorem HasTaken.start (P : Call × Env → Prop) (config : DbFactoryConfig) :
    HasTaken P config (createDbWithConfig config, FileSystem.empty) [] :=
  ⟨[], rfl, List.forall_mem_nil _, rfl⟩

theorem HasTaken.turn {x x' : DbImpl StorageManagerImpl × FileSystem}
    {log : List (Call × Option Response)} (h : HasTaken P config x log) {line : Bytes} {env : Env}
    (hP : ∀ c, callOf line = some c → P (c, env)) {res : Response}
    (hserve : serveLine x (line, env) = (.ok res, x')) :
    HasTaken P config x' (log ++ ((callOf line).map fun c => (c, some res)).toList) := by
  obtain ⟨calls, rfl, hcalls, rfl⟩ := h
  obtain ⟨c, hc, hrun⟩ | ⟨hc, r, hrun, -⟩ := serveLine_eq (runFresh config calls).2 (line, env)
  · rw [hrun] at hserve
    rw [hc]
    have hsnoc : runFresh config (calls ++ [(c, env)]) =
        ((runFresh config calls).1 ++ [.ok res], x') := by
      rw [runFresh, Machine.run_snoc, ← runFresh, hserve]
    have hlen : (runFresh config calls).1.length = calls.length := Machine.length_run ..
    refine ⟨calls ++ [(c, env)], by rw [hsnoc], fun x hx => ?_, ?_⟩
    · rcases List.mem_append.1 hx with hx | hx
      · exact hcalls x hx
      · rw [List.mem_singleton.1 hx]
        exact hP c hc
    · rw [hsnoc, history_snoc hlen]
      rfl
  · -- a line that makes no call leaves the database alone
    rw [hrun] at hserve
    cases hserve
    rw [hc]
    exact ⟨calls, rfl, hcalls, (List.append_nil _).symm⟩

theorem Link.turn_db (l : Link) (env : Env) (x : DbImpl σ × FileSystem) :
    (l.turn env x).1.crashes = true ∨ ((l.turn env x).1 = .ended ∧ (l.turn env x).2.2 = x) ∨
      ∃ line res, (l.turn env x).1 = .answered (line, env) res ∧
        serveLine x (line, env) = (.ok res, (l.turn env x).2.2) := by
  simp only [Link.turn, Session.turn]
  split
  · exact .inr (.inl ⟨rfl, rfl⟩)
  · split
    · exact .inr (.inl ⟨rfl, rfl⟩)
    · split
      · exact .inl rfl
      · rename_i hserve
        split
        · exact .inl rfl
        · refine .inr (.inr ?_)
          split <;> exact ⟨_, _, rfl, hserve⟩

theorem System.answered_turn {s : System σ} {i : Nat} {env : Env} {c : Call} {res : Option Response}
    (h : s.answered (.turn i env) = some (c, res)) :
    s.crashed = false ∧ ∃ line r, ((s.links i).turn env s.db).1 = .answered (line, env) r ∧
      callOf line = some c ∧ res = some r ∧
      serveLine s.db (line, env) = (.ok r, ((s.links i).turn env s.db).2.2) := by
  simp only [answered] at h
  split at h
  · rename_i hcan
    refine ⟨by simpa using (Bool.and_eq_true_iff.1 hcan).1, ?_⟩
    simp only [turn] at h
    obtain hcrashes | ⟨hended, -⟩ | ⟨line, r, hanswered, hserve⟩ := (s.links i).turn_db env s.db
    · cases ht : ((s.links i).turn env s.db).1 <;> simp [ht, Turn.crashes] at hcrashes h
    · simp [hended] at h
    · simp only [hanswered, Option.map_eq_some_iff, Prod.mk.injEq] at h
      obtain ⟨c', hc', rfl, rfl⟩ := h
      exact ⟨line, r, hanswered, hc', rfl, hserve⟩
  · cases h

/-- **One action** of any party. -/
theorem HasTaken.next {s : System StorageManagerImpl} {log : List (Call × Option Response)}
    (h : s.crashed = false → HasTaken P config s.db log) {a : Action}
    (hP : ∀ i env, a = .turn i env → ∀ c res, s.answered a = some (c, res) → P (c, env))
    (hcr : (s.next a).crashed = false) :
    HasTaken P config (s.next a).db (log ++ (s.answered a).toList) := by
  cases a with
  | client i =>
    have hnext : (s.next (.client i)).crashed = s.crashed ∧ (s.next (.client i)).db = s.db := by
      simp only [System.next]
      split <;> exact ⟨rfl, rfl⟩
    rw [hnext.1] at hcr
    rw [hnext.2, System.answered, Option.toList_none, List.append_nil]
    exact h hcr
  | turn i env =>
    simp only [System.next, System.answered] at hcr ⊢
    split at hcr
    · rename_i hcan
      have hcr' : s.crashed = false := by
        simp only [Bool.and_eq_true, Bool.not_eq_true'] at hcan
        exact hcan.1
      have hP' := hP i env rfl
      simp only [System.answered, hcan, ↓reduceIte] at hP' ⊢
      simp only [System.turn] at hcr hP' ⊢
      obtain hcrashes | ⟨hended, hdb⟩ | ⟨line, res, hanswered, hserve⟩ :=
        (s.links i).turn_db env s.db
      · cases hcrashes.symm.trans hcr
      · simp only [hended, hdb, Option.toList_none, List.append_nil]
        exact h hcr'
      · simp only [hanswered] at hP' ⊢
        exact (h hcr').turn (fun c hc => hP' c (some res) (by rw [hc]; rfl)) hserve
    · rename_i hcan
      simp only [hcan, Bool.false_eq_true, ↓reduceIte, Option.toList_none, List.append_nil]
      exact h hcr
  | up i n | down i n =>
    rw [System.answered, Option.toList_none, List.append_nil]
    exact h hcr

/-- **Every run.** -/
theorem hasTaken_run {s : System StorageManagerImpl}
    (h : s.crashed = false → HasTaken P config s.db []) {actions : List Action}
    (hP : ∀ before i env, before ++ [.turn i env] <+: actions → ∀ c res,
      (Machine.run System.step s before).2.answered (.turn i env) = some (c, res) → P (c, env))
    (hcr : (Machine.run System.step s actions).2.crashed = false) :
    HasTaken P config (Machine.run System.step s actions).2.db (s.log actions) := by
  induction actions using List.reverseRecOn with
  | nil => exact h hcr
  | append_singleton actions a ih =>
    rw [Machine.run_snoc] at hcr ⊢
    rw [System.log_snoc]
    refine HasTaken.next
      (ih fun before i env hpre => hP before i env (hpre.trans (List.prefix_append _ _)))
      (fun i env ha c res hres => ?_) hcr
    subst ha
    exact hP actions i env (List.prefix_refl _) c res hres

end

theorem HasTaken.get {config : DbFactoryConfig} {x : DbImpl StorageManagerImpl × FileSystem}
    {log : List (Call × Option Response)} (h : HasTaken (fun c => c.2.NoFault) config x log)
    (hcap : 0 ≤ config.memtableCapacity) (hlev : 0 ≤ config.maxLevels)
    (hfits : config.tableFormat = .BlockBased → Fits x.2.effects) (k : Bytes) :
    x.1.get x.2 k = .ok (readResponse ((lastAcked log k).getD none)) := by
  obtain ⟨calls, rfl, hcalls, rfl⟩ := h
  obtain ⟨hout, hrep⟩ := runFresh_refines config hlev hcap hcalls hfits
  have hread := Lsm.read_run (capacityOf config) (canWrite config) {} (calls.map Prod.fst) k
  rw [← hout] at hread
  rw [get_refines (stored_spec hlev) hrep k, hread, history]
  rfl

/-- **A `GET` returns the last acknowledged write**, whichever clients ask and write, in whatever order
the parties move and in whatever parts bytes are sent and arrive: as long as the server has not
crashed, what it will tell of a key is what the last `PUT` or `DEL` of the key among all that its
sessions have acknowledged left, and a session that answers a `GET` tells it. -/
theorem gets_return_last_write {config : DbFactoryConfig} (hcap : 0 ≤ config.memtableCapacity)
    (hlev : 0 ≤ config.maxLevels) {cin : Nat → Bytes} {sends sends' : Nat → Nat → Nat}
    {actions : List Action} (henv : ∀ i env, Action.turn i env ∈ actions → env.NoFault)
    (hfits : config.tableFormat = .BlockBased →
      Fits (Machine.run System.step (System.start config cin sends sends') actions).2.db.2.effects)
    (hcr : (Machine.run System.step (System.start config cin sends sends') actions).2.crashed = false)
    (k : Bytes) :
    let s := (Machine.run System.step (System.start config cin sends sends') actions).2
    let told := readResponse
      ((lastAcked ((System.start config cin sends sends').log actions) k).getD none)
    s.db.1.get s.db.2 k = .ok told ∧
      ∀ i env res, s.answered (.turn i env) = some (.get k, some res) → res = told := by
  intro s told
  have htaken : HasTaken (fun c => c.2.NoFault) config s.db
      ((System.start config cin sends sends').log actions) :=
    hasTaken_run (fun _ => .start _ config)
      (fun before i env hpre _ _ _ => henv i env (hpre.subset (by simp))) hcr
  have hget : s.db.1.get s.db.2 k = .ok told := htaken.get hcap hlev hfits k
  refine ⟨hget, fun i env res hres => ?_⟩
  obtain ⟨-, line, r, -, hc, heq, hserve⟩ := System.answered_turn hres
  obtain rfl := Option.some_inj.1 heq
  obtain ⟨c, hc', hrun⟩ | ⟨hc', -⟩ := serveLine_eq s.db (line, env)
  · rw [hc, Option.some_inj] at hc'
    subst hc'
    rw [hserve, DbImpl.step, DbImpl.call, hget] at hrun
    injection hrun with hok
    injection hok
  · rw [hc] at hc'
    cases hc'

/-- The put of the first client has been answered, the get of the second one has arrived. -/
def betweenTurns : List Action := twoInputsActions.take 6

theorem gets_return_last_write_two_inputs :
    let s := (Machine.run System.step (System.start {} twoInputs (fun _ _ => 4) fun _ _ => 7)
      betweenTurns).2
    s.db.1.get s.db.2 "a" = .ok ⟨true, "OK", some (ofString "1")⟩ ∧
      s.answered (.turn 1 {}) = some (.get "a", some ⟨true, "OK", some (ofString "1")⟩) := by
  intro s
  have henv : ∀ i env, Action.turn i env ∈ betweenTurns → env.NoFault := by
    intro i env hmem
    simp only [betweenTurns, twoInputsActions, List.take_succ_cons, List.take_zero, List.mem_cons,
      List.not_mem_nil, reduceCtorEq, Action.turn.injEq, or_false, false_or] at hmem
    rw [hmem.2]
    exact ⟨fun _ => rfl, rfl, rfl⟩
  have h := @gets_return_last_write {} (by decide) (by decide) twoInputs (fun _ _ => 4) (fun _ _ => 7)
    betweenTurns henv nofun (by decide +kernel) "a"
  have hlast : lastAcked ((System.start {} twoInputs (fun _ _ => 4) fun _ _ => 7).log betweenTurns) "a" =
      some (some (ofString "1")) := by decide +kernel
  rw [hlast] at h
  exact ⟨h.1, by decide +kernel⟩

end TinyKv
