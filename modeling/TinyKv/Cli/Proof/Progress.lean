import TinyKv.Cli.Proof.System
import TinyKv.Lib.Fair

/-!
# Clients get their answers

Nobody waits for ever. As long as a client has not returned, its link has a step to take
(`Stage.exists_enabled`): the client, its session or the network. Each such step lowers what the link
has left to do (`Link.left`), in a lexicographic order: the halves of rounds of the client, then the
lines its session has to read, then the bytes on their way. Steps of other links change nothing there.
-/

namespace TinyKv

open Bytes protocol FdConnection

/-- The link that an action belongs to. -/
def Action.link : Action → Nat
  | .client i | .turn i _ | .up i _ | .down i _ => i

/-- The action moves somebody. -/
def System.Enabled (s : System StorageManagerImpl) : Action → Prop
  | .client i => (s.links i).canStep s.crashed = true
  | .turn i _ => s.crashed = false ∧ (s.links i).canTurn = true
  | .up i _ => (s.links i).up ≠ []
  | .down i _ => (s.links i).down ≠ []

/-! ## Somebody can move -/

/-- **A link whose client has not returned can move.** -/
theorem Stage.exists_enabled {s : System StorageManagerImpl} {i : Nat} {c : Console}
    (h : Stage s.crashed (s.links i) c) (hstopped : (s.links i).repl.stopped = false) :
    ∃ a, a.link = i ∧ s.Enabled a := by
  cases h with
  | prompt hp => exact ⟨.client i, rfl, by simp [System.Enabled, Link.canStep, hp]⟩
  | asked hp hline hreq hco hce hdone hd hu =>
    cases hcr : s.crashed with
    | true => exact ⟨.client i, rfl, by simp [System.Enabled, Link.canStep, hp, hcr]⟩
    | false =>
      obtain ⟨hrun, hup⟩ := hu hcr
      by_cases hnil : (s.links i).up = []
      · -- the whole request has arrived
        have hmem : newLine ∈ (s.links i).session.conn_.pending := by
          rw [Link.upStream, hnil, List.append_nil] at hup
          rw [hup, encodeRequest_eq]
          simp [newLine]
        exact ⟨.turn i {}, rfl, hcr, by simp [Link.canTurn, hrun, hmem]⟩
      · exact ⟨.up i 0, rfl, hnil⟩
  | @answered _ res hp hc hplain hback hd hu =>
    by_cases hnil : (s.links i).down = []
    · have hmem : newLine ∈ (s.links i).repl.conn.pending := by
        rw [Link.downStream, hnil, List.append_nil] at hd
        rw [hd, encodeResponse_eq]
        simp [newLine]
      exact ⟨.client i, rfl, by simp [System.Enabled, Link.canStep, hp, hmem]⟩
    · exact ⟨.down i 0, rfl, hnil⟩
  | returned hp => simp [Repl.stopped, hp] at hstopped
  | lost _ hp => simp [Repl.stopped, hp] at hstopped

/-! ## What is left to do -/

namespace Link

/-- The lines that a session has to read, and the end of the connection. -/
def turnsLeft (l : Link) : Nat :=
  if l.session.running then l.upStream.count newLine + 1 else 0

/-- Halves of rounds, turns and bytes on their way. -/
def left (l : Link) : ℕ ×ₗ ℕ ×ₗ ℕ :=
  toLex (l.repl.halves, toLex (l.turnsLeft, l.up.length + l.down.length))

theorem left_lt_of_halves {l l' : Link} (h : l'.repl.halves < l.repl.halves) : l'.left < l.left :=
  Prod.Lex.toLex_lt_toLex.2 (.inl h)

theorem left_lt_of_turns {l l' : Link} (hh : l'.repl.halves = l.repl.halves)
    (h : l'.turnsLeft < l.turnsLeft) : l'.left < l.left :=
  Prod.Lex.toLex_lt_toLex.2 (.inr ⟨hh, Prod.Lex.toLex_lt_toLex.2 (.inl h)⟩)

theorem left_lt_of_bytes {l l' : Link} (hh : l'.repl.halves = l.repl.halves)
    (ht : l'.turnsLeft = l.turnsLeft)
    (h : l'.up.length + l'.down.length < l.up.length + l.down.length) : l'.left < l.left :=
  Prod.Lex.toLex_lt_toLex.2 (.inr ⟨hh, Prod.Lex.toLex_lt_toLex.2 (.inr ⟨ht, h⟩)⟩)

variable {l : Link}

theorem left_step {crashed : Bool} (hcan : l.canStep crashed = true) : l.step.left < l.left := by
  refine left_lt_of_halves (Repl.halves_step ?_)
  unfold canStep at hcan
  unfold Repl.stopped
  split at hcan
  · simp_all
  · simp_all
  · cases hcan
  · cases hcan
  · cases hcan

theorem left_arriveUp (h : l.up ≠ []) (n : Nat) : (l.arriveUp n).left < l.left := by
  rw [arriveUp, if_neg h]
  refine left_lt_of_bytes rfl ?_ ?_
  · have hstream : ({ l with
        session.conn_.recvs := l.session.conn_.recvs ++ [l.up.take (n + 1)]
        up := l.up.drop (n + 1) } : Link).upStream = l.upStream := by
      simp [upStream, FdConnection.pending]
    simp only [turnsLeft, hstream]
  · have := List.length_pos_iff.2 h
    simp only [List.length_drop]
    omega

theorem left_arriveDown (h : l.down ≠ []) (n : Nat) : (l.arriveDown n).left < l.left := by
  rw [arriveDown, if_neg h]
  refine left_lt_of_bytes rfl rfl ?_
  have := List.length_pos_iff.2 h
  simp only [List.length_drop]
  omega

theorem left_turn (hl : l.Healthy) (hcan : l.canTurn = true) (env : Env)
    (x : DbImpl StorageManagerImpl × FileSystem) : (l.turn env x).2.1.left < l.left := by
  have hrun : l.session.running = true := by
    simp only [canTurn, Bool.and_eq_true] at hcan
    exact hcan.1
  have hleft : l.turnsLeft = l.upStream.count newLine + 1 := by rw [turnsLeft, if_pos hrun]
  refine left_lt_of_turns rfl ?_
  rw [hleft]
  obtain ⟨hr, -⟩ | ⟨-, -, conn, -, hturn⟩ | ⟨-, line, rest, hline, hpending, hcase⟩ :=
    l.session.turn_cases hl.session env x
  · rw [hrun] at hr
    cases hr
  · simp only [turn, hturn, turnsLeft]
    simp
  · obtain ⟨f, x', hserve, -⟩ | ⟨res, x', conn, -, -, hrest, -, hturn⟩ := hcase
    · obtain ⟨conn, hturn, -⟩ :=
        Session.turn_threw hrun (hl.session hrun) hline hpending hserve
      simp only [turn, hturn, turnsLeft]
      simp
    · have hcount : l.upStream.count newLine = (rest ++ l.up).count newLine + 1 := by
        rw [upStream, hpending, List.append_assoc, List.cons_append, List.count_append,
          List.count_eq_zero.2 hline, List.count_cons_self]
        omega
      rw [hcount]
      simp only [turn, hturn, turnsLeft, upStream, hrest]
      split <;> omega

end Link

/-! ## Endless schedules -/

namespace System

variable {s : System StorageManagerImpl} {i : Nat} {a : Action}

theorem next_of_not_enabled (h : ¬ s.Enabled a) : s.next a = s := by
  cases a with
  | client i =>
    have hcan : ¬ (s.links i).canStep s.crashed = true := h
    simp only [next, if_neg hcan]
  | turn i env =>
    have hcan : (!s.crashed && (s.links i).canTurn) = false := by
      simpa [Enabled] using h
    simp [next, hcan]
  | up i n =>
    have hnil : (s.links i).up = [] := by simpa [Enabled] using h
    simp [next, setLink, Link.arriveUp, hnil]
  | down i n =>
    have hnil : (s.links i).down = [] := by simpa [Enabled] using h
    simp [next, setLink, Link.arriveDown, hnil]

/-- **An action that moves somebody lowers what its link has left to do.** -/
theorem left_next_lt (hl : (s.links a.link).Healthy) (h : s.Enabled a) :
    ((s.next a).links a.link).left < (s.links a.link).left := by
  cases a with
  | client i =>
    have hcan : (s.links i).canStep s.crashed = true := h
    simpa [next, hcan, setLink, Action.link] using Link.left_step hcan
  | turn i env =>
    obtain ⟨hcr, hcan⟩ := h
    simpa [next, hcr, hcan, turn, setLink, Action.link] using Link.left_turn hl hcan env s.db
  | up i n => simpa [next, setLink, Action.link] using Link.left_arriveUp h n
  | down i n => simpa [next, setLink, Action.link] using Link.left_arriveDown h n

theorem links_next_of_ne (hi : i ≠ a.link) : (s.next a).links i = s.links i := by
  cases a with
  | client j =>
    simp only [next]
    split
    · exact Function.update_of_ne hi _ _
    · rfl
  | turn j env =>
    simp only [next]
    split
    · exact Function.update_of_ne hi _ _
    · rfl
  | up j n | down j n => exact Function.update_of_ne hi _ _

theorem place_next (h : (s.links i).repl.stopped = true) :
    ((s.next a).links i).repl.place = (s.links i).repl.place := by
  by_cases hi : i = a.link
  · subst hi
    cases a with
    | client i =>
      have hcan : ¬ (s.links i).canStep s.crashed = true := by
        have hstopped : (s.links i).repl.stopped = true := h
        unfold Link.canStep
        unfold Repl.stopped at hstopped
        split at hstopped <;> simp_all
      rw [next, if_neg hcan]
    | turn i env =>
      simp only [next]
      split
      · simp [turn, setLink, Link.turn, Action.link]
      · rfl
    | up i n =>
      simp only [next, setLink, Action.link, Function.update_self, Link.arriveUp]
      split <;> rfl
    | down i n =>
      simp only [next, setLink, Action.link, Function.update_self, Link.arriveDown]
      split <;> rfl
  · rw [links_next_of_ne hi]

theorem left_next_le (hl : (s.links a.link).Healthy) (i : Nat) :
    ((s.next a).links i).left ≤ (s.links i).left := by
  by_cases hi : i = a.link
  · subst hi
    by_cases h : s.Enabled a
    · exact (left_next_lt hl h).le
    · rw [next_of_not_enabled h]
  · rw [links_next_of_ne hi]

end System

section

variable {config : DbFactoryConfig} {cin : Nat → Bytes} {sends sends' : Nat → Nat → Nat}

/-- **No deadlock.** In every state of every run each client has returned, or it can go on, or its
session can take a turn, or bytes can arrive on its link. -/
theorem never_stuck (hcin : ∀ i, (cin i).length < 2 ^ 63) (hsends : ∀ i k, 0 < sends i k)
    (hsends' : ∀ i k, 0 < sends' i k) {actions : List Action}
    (hb : WithinBounds config
      (Machine.run System.step (System.start config cin sends sends') actions).2.db.2) (i : Nat) :
    let s := (Machine.run System.step (System.start config cin sends sends') actions).2
    (s.links i).repl.stopped = true ∨ ∃ a, a.link = i ∧ s.Enabled a := by
  intro s
  have hst := (refines_run (Refines.start hcin hsends hsends') actions hb).2.stage i
  cases hstopped : (s.links i).repl.stopped with
  | true => exact .inl rfl
  | false => exact .inr (hst.exists_enabled hstopped)

/-- Half of the first request has arrived. -/
theorem never_stuck_two_inputs :
    let s := (Machine.run System.step (System.start {} twoInputs (fun _ _ => 4) fun _ _ => 7)
      [.client 0, .up 0 2]).2
    ∃ a, a.link = 0 ∧ s.Enabled a := by
  intro s
  have h := @never_stuck {} twoInputs (fun _ _ => 4) (fun _ _ => 7) twoInputs_short
    (fun _ _ => by decide) (fun _ _ => by decide) [.client 0, .up 0 2] nofun 0
  exact h.resolve_left (by decide +kernel)

/-- **Every client returns**, under every endless schedule that does not leave its link for good
while it can move: with `0`, unless the server has crashed, and it stays so. -/
theorem clients_return (hcin : ∀ i, (cin i).length < 2 ^ 63) (hsends : ∀ i k, 0 < sends i k)
    (hsends' : ∀ i k, 0 < sends' i k) {actions : Nat → Action}
    (hb : ∀ n, WithinBounds config
      (Machine.trace System.step (System.start config cin sends sends') actions n).db.2) {i : Nat}
    (hfair : ∀ n,
      let states := Machine.trace System.step (System.start config cin sends sends') actions
      ((states n).links i).repl.stopped = false →
        ∃ m, n ≤ m ∧ (actions m).link = i ∧ (states m).Enabled (actions m)) :
    ∃ n code, (∀ m, n ≤ m →
      ((Machine.trace System.step (System.start config cin sends sends') actions m).links i).repl.place =
        .returned code) ∧
      (code = 0 ∨ (code = 1 ∧
        (Machine.trace System.step (System.start config cin sends sends') actions n).crashed = true)) := by
  let states := Machine.trace System.step (System.start config cin sends sends') actions
  have href : ∀ n, ∃ t, Refines config (states n) t := by
    intro n
    have hbn := hb n
    rw [Machine.trace_eq_run] at hbn
    have hrun := (refines_run (Refines.start hcin hsends hsends') _ hbn).2
    rw [← Machine.trace_eq_run] at hrun
    exact ⟨_, hrun⟩
  have hstopped : ∃ n, ((states n).links i).repl.stopped = true := by
    refine Machine.exists_of_descent (r := fun s : System StorageManagerImpl => (s.links i).left)
      (G := fun s => (s.links i).repl.stopped = true) ?_ ?_
    · intro n
      obtain ⟨t, ht⟩ := href n
      exact System.left_next_le (ht.healthy _) i
    · intro n hn
      obtain ⟨m, hm, hlink, hen⟩ := hfair n (by simpa using hn)
      obtain ⟨t, ht⟩ := href m
      have hlt := System.left_next_lt (ht.healthy _) hen
      rw [hlink] at hlt
      exact ⟨m, hm, hlt⟩
  obtain ⟨n, hn⟩ := hstopped
  have hstays : ∀ m, n ≤ m → ((states m).links i).repl.place = ((states n).links i).repl.place := by
    intro m hm
    induction m, hm using Nat.le_induction with
    | base => rfl
    | succ m _ ih =>
      have hstopped : ((states m).links i).repl.stopped = true := by rwa [Repl.stopped, ih]
      exact (System.place_next hstopped).trans ih
  obtain ⟨t, ht⟩ := href n
  cases ht.stage i with
  | prompt hp | asked hp | answered hp => simp [Repl.stopped, hp] at hn
  | returned hp => exact ⟨n, 0, fun m hm => (hstays m hm).trans hp, .inl rfl⟩
  | lost hcr hp => exact ⟨n, 1, fun m hm => (hstays m hm).trans hp, .inr ⟨rfl, hcr⟩⟩

/-- A client that says `EXIT` and is scheduled for ever. -/
def exitActions : Nat → Action
  | 1 => .up 0 99
  | 2 => .turn 0 {}
  | 3 => .down 0 99
  | _ => .client 0

theorem clients_return_exit :
    ∃ n code, (∀ m, n ≤ m →
      ((Machine.trace System.step (System.start {} (fun _ => "EXIT\n") (fun _ _ => 4) fun _ _ => 7)
        exitActions m).links 0).repl.place = .returned code) ∧
      (code = 0 ∨ (code = 1 ∧
        (Machine.trace System.step (System.start {} (fun _ => "EXIT\n") (fun _ _ => 4) fun _ _ => 7)
          exitActions n).crashed = true)) := by
  refine @clients_return {} _ _ _ (fun _ => by decide) (fun _ _ => by decide) (fun _ _ => by decide)
    exitActions (fun _ => nofun) 0 ?_
  intro n states hstopped
  -- behind its fifth action the client has returned
  have hdone : ∀ k, ((states (5 + k)).links 0).repl.stopped = true := by
    intro k
    induction k with
    | zero => decide +kernel
    | succ k ih =>
      have hplace := @System.place_next (states (5 + k)) 0 (exitActions (5 + k)) ih
      show ((System.next (states (5 + k)) (exitActions (5 + k))).links 0).repl.stopped = true
      rwa [Repl.stopped, hplace]
  have henabled : (states 0).Enabled (.client 0) ∧ (states 1).Enabled (.up 0 99) ∧
      (states 2).Enabled (.turn 0 {}) ∧ (states 3).Enabled (.down 0 99) ∧
      (states 4).Enabled (.client 0) := by
    unfold System.Enabled
    decide +kernel
  match n, hstopped with
  | 0, _ => exact ⟨0, le_rfl, rfl, henabled.1⟩
  | 1, _ => exact ⟨1, le_rfl, rfl, henabled.2.1⟩
  | 2, _ => exact ⟨2, le_rfl, rfl, henabled.2.2.1⟩
  | 3, _ => exact ⟨3, le_rfl, rfl, henabled.2.2.2.1⟩
  | 4, _ => exact ⟨4, le_rfl, rfl, henabled.2.2.2.2⟩
  | k + 5, hstopped =>
    rw [Nat.add_comm, hdone k] at hstopped
    cases hstopped

end

end TinyKv
