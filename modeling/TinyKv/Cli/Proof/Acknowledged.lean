import TinyKv.Cli.Proof.LastWrite
import TinyKv.Core.Proof.Durable

/-!
# What the clients have been told is on the disk

A session answers a write when it is in the log on the disk. So whenever the server crashes, between
two turns of its sessions or in one of them, at any effect or in the middle of an append, the disk has
every write that any session has acknowledged (`acknowledged_on_disk`).

What a session calls the database with are tokens of a line of its client (`Stage.loggable`), so inputs
within the bounds of the log have calls within them.
-/

namespace TinyKv

open Bytes protocol FdConnection

/-- The call that the session will make. -/
def Link.request (l : Link) : Option Call := l.session.conn_.readLine.1.bind callOf

/-! ## Short calls -/

theorem length_arg_le {line : Bytes} {req : Request} (h : decodeLine line = .ok req) :
    ∀ arg ∈ req.args, arg.length ≤ line.length := by
  unfold decodeLine at h
  split at h
  · cases h
  · rename_i cmdStr args htokens
    cases h
    intro arg harg
    have hmem : arg ∈ tokens line := htokens ▸ List.mem_cons_of_mem _ harg
    exact (Lines.mem_splitOnP (List.mem_of_mem_filter hmem)).2

theorem callOf_loggable {line : Bytes} {req : Request} (hreq : decodeLine line = .ok req)
    (hargs : ∀ arg ∈ req.args, arg.length ≤ 2 ^ 30) {c : Call} (h : callOf line = some c) :
    c.Loggable := by
  unfold callOf at h
  split at h
  · rename_i key args hline
    rw [hreq] at hline
    cases hline
    cases h
    exact hargs key (by simp)
  · rename_i key val args hline
    rw [hreq] at hline
    cases hline
    cases h
    exact ⟨hargs key (by simp), hargs val (by simp)⟩
  · rename_i key args hline
    rw [hreq] at hline
    cases hline
    cases h
    exact hargs key (by simp)
  · cases h
    trivial
  · cases h

/-- A call is made for a line of the client, with tokens of the line. -/
theorem Stage.loggable {l : Link} {c : Console} (h : Stage false l c) (hrun : l.session.running = true)
    (hshort : c.cin.length ≤ 2 ^ 30) {line rest : Bytes} (hline : newLine ∉ line)
    (hpending : l.session.conn_.pending = line ++ newLine :: rest) {call : Call}
    (hcall : callOf line = some call) : call.Loggable := by
  have hup : l.upStream = line ++ newLine :: (rest ++ l.up) := by simp [Link.upStream, hpending]
  have hne : l.upStream ≠ [] := by simp [hup]
  cases h with
  | prompt _ _ _ hu => exact absurd (hu rfl).2 hne
  | @asked given req _ hget hreq _ _ _ _ hu =>
    have hargs := isToken_of_decodeLine hreq
    have heq : line ++ newLine :: (rest ++ l.up) = requestLine req ++ newLine :: [] := by
      rw [← hup, (hu rfl).2, encodeRequest_eq]
      rfl
    obtain ⟨rfl, -⟩ := Lines.append_cons_inj hline (newLine_not_mem_requestLine hargs) heq
    refine callOf_loggable (decodeLine_requestLine hargs) (fun arg harg => ?_) hcall
    exact ((length_arg_le hreq arg harg).trans (line_le_getline hget)).trans hshort
  | answered _ _ _ _ _ hu => exact absurd (hu rfl).2 hne
  | returned _ _ hu => exact absurd (hu rfl hrun) hne
  | lost hcr => cases hcr

theorem Console.length_round (c : Console) (env : Env) (x : DbImpl StorageManagerImpl × FileSystem) :
    (c.round env x).2.1.cin.length ≤ c.cin.length := by
  unfold Console.round
  split
  · exact Nat.le_refl _
  · split
    · exact Nat.le_refl _
    · rename_i hline
      have hle := (length_getline hline).le
      split
      · exact hle
      · split
        · exact hle
        · split
          · exact Nat.le_refl _
          · exact hle

theorem Consoles.length_run (t : Consoles StorageManagerImpl) (rounds : List (Nat × Env)) (i : Nat) :
    ((Machine.run Consoles.step t rounds).2.consoles i).cin.length ≤ (t.consoles i).cin.length := by
  induction rounds generalizing t with
  | nil => exact Nat.le_refl _
  | cons a rounds ih =>
    rw [Machine.run_cons]
    refine (ih _).trans ?_
    simp only [Consoles.step]
    by_cases hi : i = a.1
    · subst hi
      rw [Function.update_self]
      exact Console.length_round ..
    · rw [Function.update_of_ne hi]

/-! ## A turn and its call -/

/-- What a turn does to the database, it does for the line that the session reads. -/
theorem Link.turn_line {l : Link} (hl : l.Healthy) (env : Env)
    (x : DbImpl StorageManagerImpl × FileSystem) :
    ((l.turn env x).1 = .ended ∧ (l.turn env x).2.2 = x) ∨
      ∃ line rest, l.session.running = true ∧ newLine ∉ line ∧
        l.session.conn_.pending = line ++ newLine :: rest ∧ l.request = callOf line ∧
        (l.turn env x).2.2 = (serveLine x (line, env)).2 ∧
        ∀ line' res, (l.turn env x).1 = .answered line' res → line' = (line, env) := by
  cases hrun : l.session.running with
  | false => exact .inl (by simp [Link.turn, Session.turn, hrun])
  | true =>
    have hconn := hl.session hrun
    by_cases hmem : newLine ∈ l.session.conn_.pending
    · obtain ⟨line, rest, hpending, hline⟩ := List.eq_append_cons_of_mem hmem
      obtain ⟨conn, hread, -⟩ := readLine_append hconn hline hpending
      refine .inr ⟨line, rest, rfl, hline, hpending, by rw [Link.request, hread]; rfl, ?_⟩
      simp only [Link.turn, Session.turn, hrun, hread, Bool.true_eq_false, ↓reduceIte]
      cases hserve : serveLine x (line, env) with
      | mk res x' =>
        cases res with
        | error f => exact ⟨rfl, fun _ _ h => by cases h⟩
        | ok res =>
          dsimp only
          split
          · exact ⟨rfl, fun _ _ h => by cases h⟩
          · split
            all_goals
              refine ⟨rfl, fun line' res' h => ?_⟩
              cases h
              rfl
    · obtain ⟨conn, hread, -⟩ := readLine_of_not_mem hconn hmem
      exact .inl (by simp [Link.turn, Session.turn, hrun, hread])

namespace Refines

variable {config : DbFactoryConfig} {s : System StorageManagerImpl} {t : Consoles StorageManagerImpl}

theorem loggable (h : Refines config s t) (hcr : s.crashed = false)
    (hshort : ∀ i, (t.consoles i).cin.length ≤ 2 ^ 30) {i : Nat} {line rest : Bytes}
    (hrun : (s.links i).session.running = true) (hline : newLine ∉ line)
    (hpending : (s.links i).session.conn_.pending = line ++ newLine :: rest) {c : Call}
    (hc : callOf line = some c) : c.Loggable :=
  Stage.loggable (hcr ▸ h.stage i) hrun (hshort i) hline hpending hc

theorem answered_loggable (h : Refines config s t) (hshort : ∀ i, (t.consoles i).cin.length ≤ 2 ^ 30)
    {i : Nat} {env : Env} {c : Call} {res : Option Response}
    (hres : s.answered (.turn i env) = some (c, res)) : c.Loggable := by
  obtain ⟨hcr, line', r, hturn, hc, -⟩ := System.answered_turn hres
  rcases (s.links i).turn_line (h.healthy i) env s.db with
    ⟨hended, -⟩ | ⟨line, rest, hrun, hline, hpending, -, -, hread⟩
  · rw [hended] at hturn
    cases hturn
  · cases hread _ r hturn
    exact h.loggable hcr hshort hrun hline hpending hc

/-- **A crash in a turn**: the disk of a database that has taken the calls of the log. -/
theorem crash_in_turn (h : Refines config s t) (hcap : 1 ≤ config.memtableCapacity)
    (hcr : s.crashed = false) (hshort : ∀ i, (t.consoles i).cin.length ≤ 2 ^ 30)
    {log : List (Call × Option Response)}
    (htaken : HasTaken (fun c => c.1.Loggable ∧ c.2.Untorn) config s.db log) {i : Nat} {env : Env}
    (henv : env.Untorn) {p : List Effect}
    (hp : CrashPoint s.db.2.effects (s.next (.turn i env)).db.2.effects p) :
    ∃ took : List Call, took <+: (s.links i).request.toList ∧ ∀ k,
      (Disk.after p).read config.tableFormat k =
        some ((lastAcked (log ++ took.map fun c => (c, some ⟨true, "OK", none⟩)) k).getD none) := by
  obtain ⟨calls, hdb, hcalls, rfl⟩ := htaken
  obtain ⟨tables, hrep, hover⟩ := run_disk hcap hcalls
  rw [← hdb] at hrep hover
  -- a turn without a call leaves the disk alone
  have hquiet : (s.next (.turn i env)).db.2.effects = s.db.2.effects → ∃ took : List Call,
      took <+: (s.links i).request.toList ∧ ∀ k, (Disk.after p).read config.tableFormat k =
        some ((lastAcked (history calls (runFresh config calls).1 ++
          took.map fun c => (c, some ⟨true, "OK", none⟩)) k).getD none) := by
    intro heff
    rw [heff] at hp
    refine ⟨[], List.nil_prefix, fun k => ?_⟩
    rw [List.map_nil, List.append_nil]
    exact (Safe.refl (G := fun d => d.read config.tableFormat k = _)
      (by rw [hrep.readsAs k, hover])).2 p hp
  by_cases hcan : (!s.crashed && (s.links i).canTurn) = true
  · have hnext : (s.next (.turn i env)).db = ((s.links i).turn env s.db).2.2 := by
      simp only [System.next, hcan, ↓reduceIte, System.turn]
    rcases (s.links i).turn_line (h.healthy i) env s.db with
      ⟨-, hsame⟩ | ⟨line, rest, hrun, hline, hpending, hrequest, hserve, -⟩
    · exact hquiet (by rw [hnext, hsame])
    · rcases serveLine_eq s.db (line, env) with ⟨c, hc, hstep⟩ | ⟨-, r, hstep, -⟩
      · rw [hnext, hserve, hstep] at hp
        have hlog := h.loggable hcr hshort hrun hline hpending hc
        obtain ⟨-, -, -, hsafe⟩ := step_disk hcap hrep (c := (c, env)) hlog henv
        obtain ⟨took, htook⟩ := (hsafe.2 p hp).resolve
        refine ⟨if took then [c] else [], ?_, fun k => ?_⟩
        · rw [hrequest, hc]
          cases took <;> simp
        · rw [htook k, hover, lastAcked_append, Option.getD_or]
          cases took <;> rfl
      · exact hquiet (by rw [hnext, hserve, hstep])
  · refine hquiet ?_
    simp only [System.next, hcan, Bool.false_eq_true, ↓reduceIte]

end Refines

theorem System.run_effects (s : System StorageManagerImpl) (actions : List Action) :
    s.db.2.effects <+: (Machine.run System.step s actions).2.db.2.effects := by
  induction actions generalizing s with
  | nil => exact List.prefix_refl _
  | cons a actions ih => exact (s.next_effects a).trans (ih (s.next a))

/-- **What any session has acknowledged is on the disk**, for any number of clients, whatever the order
in which the parties move and the parts in which bytes arrive. Directories of levels may not be created,
the log not be removed, and an append to it fail if it leaves nothing there; a table file that has been
opened is written as a whole, under a name that no other one has:

* between two turns every key reads on the disk as its last acknowledged write;
* after a crash in the turn of a session, at any effect or in the middle of an append, it reads so with
  the call of that turn having taken effect or not. -/
theorem acknowledged_on_disk {config : DbFactoryConfig} (hcap : 1 ≤ config.memtableCapacity)
    {cin : Nat → Bytes} {sends sends' : Nat → Nat → Nat} (hcin : ∀ i, (cin i).length ≤ 2 ^ 30)
    (hsends : ∀ i k, 0 < sends i k) (hsends' : ∀ i k, 0 < sends' i k) {actions : List Action}
    (henv : ∀ i env, Action.turn i env ∈ actions → env.Untorn)
    (hb : WithinBounds config
      (Machine.run System.step (System.start config cin sends sends') actions).2.db.2)
    (hcr : (Machine.run System.step (System.start config cin sends sends') actions).2.crashed = false) :
    let s := (Machine.run System.step (System.start config cin sends sends') actions).2
    let log := (System.start config cin sends sends').log actions
    (∀ k, (Disk.after s.db.2.effects).read config.tableFormat k =
      some ((lastAcked log k).getD none)) ∧
    ∀ i env p, env.Untorn → CrashPoint s.db.2.effects (s.next (.turn i env)).db.2.effects p →
      ∃ took : List Call, took <+: (s.links i).request.toList ∧ ∀ k,
        (Disk.after p).read config.tableFormat k =
          some ((lastAcked (log ++ took.map fun c => (c, some ⟨true, "OK", none⟩)) k).getD none) := by
  intro s log
  -- the refinement holds after every part of the run, and no console ever has more to read
  have hrefines : ∀ before, before <+: actions → ∃ t : Consoles StorageManagerImpl,
      Refines config (Machine.run System.step (System.start config cin sends sends') before).2 t ∧
        ∀ i, (t.consoles i).cin.length ≤ 2 ^ 30 := by
    intro before hpre
    obtain ⟨rest, rfl⟩ := hpre
    rw [Machine.run_append] at hb
    refine ⟨_, (refines_run (Refines.start (fun i => (hcin i).trans_lt (by decide)) hsends hsends')
      before (hb.earlier (System.run_effects _ rest))).2, fun i => ?_⟩
    exact (Consoles.length_run ..).trans (hcin i)
  have htaken : HasTaken (fun c => c.1.Loggable ∧ c.2.Untorn) config s.db log := by
    refine hasTaken_run (fun _ => .start _ config) (fun before i env hpre c res hres => ?_) hcr
    obtain ⟨t, href, hshort⟩ := hrefines before ((List.prefix_append _ _).trans hpre)
    exact ⟨href.answered_loggable hshort hres, henv i env (hpre.subset (by simp))⟩
  obtain ⟨t, href, hshort⟩ := hrefines actions (List.prefix_refl _)
  refine ⟨fun k => ?_, fun i env p hu hp => href.crash_in_turn hcap hcr hshort htaken hu hp⟩
  obtain ⟨calls, hdb, hcalls, hlog⟩ := htaken
  obtain ⟨tables, hrep, hover⟩ := run_disk hcap hcalls
  rw [← hdb] at hrep hover
  rw [hrep.readsAs k, hover, hlog]

/-- Two clients that write one key. -/
def rivals : Nat → Bytes
  | 0 => "put a 1"
  | 1 => "put a 2"
  | _ => []

/-- The first put has been answered, the second one has arrived. -/
def rivalsActions : List Action := [.client 0, .client 1, .up 1 99, .up 0 99, .turn 0 {}]

def rivalsStart : System StorageManagerImpl := System.start {} rivals (fun _ _ => 4) fun _ _ => 7

/-- The second put, crashed in the middle of its append. -/
theorem acknowledged_on_disk_torn :
    let s := (Machine.run System.step rivalsStart rivalsActions).2
    let record := WAL.record ⟨"a", "2", false⟩
    (s.next (.turn 1 {})).db.2.effects = s.db.2.effects ++ [.walAppended record] ∧
      ((Disk.after (s.db.2.effects ++ [.walAppended (record.take 5)])).read .InMemory "a" =
        some (some (ofString "1")) ∨
      (Disk.after (s.db.2.effects ++ [.walAppended (record.take 5)])).read .InMemory "a" =
        some (some (ofString "2"))) := by
  intro s record
  have heff : (s.next (.turn 1 {})).db.2.effects = s.db.2.effects ++ [.walAppended record] := by
    decide +kernel
  have hrequest : (s.links 1).request.toList = [.put "a" "2"] := by decide +kernel
  have hlog : rivalsStart.log rivalsActions = [(.put "a" "1", some ⟨true, "OK", none⟩)] := by
    decide +kernel
  have henv : ∀ i env, Action.turn i env ∈ rivalsActions → env.Untorn := by
    intro i env hmem
    simp only [rivalsActions, List.mem_cons, List.not_mem_nil, reduceCtorEq, Action.turn.injEq,
      or_false, false_or] at hmem
    rw [hmem.2]
    exact nofun
  have hcin : ∀ i, (rivals i).length ≤ 2 ^ 30 := by
    intro i
    match i with
    | 0 => decide
    | 1 => decide
    | i + 2 => exact Nat.zero_le _
  obtain ⟨took, hpre, hread⟩ := (@acknowledged_on_disk {} (by decide) rivals (fun _ _ => 4)
    (fun _ _ => 7) hcin (fun _ _ => by decide) (fun _ _ => by decide) rivalsActions henv nofun
    (by decide +kernel)).2 1 {} (s.db.2.effects ++ [.walAppended (record.take 5)]) nofun
    (.torn (List.prefix_refl _) (by rw [← heff]; exact List.prefix_refl _) (by decide))
  change took <+: (s.links 1).request.toList at hpre
  change ∀ k, _ = some ((lastAcked (rivalsStart.log rivalsActions ++ _) k).getD none) at hread
  rw [hrequest] at hpre
  refine ⟨heff, ?_⟩
  rw [hread "a", hlog]
  rcases List.prefix_cons_iff.1 hpre with rfl | ⟨rest, rfl, hrest⟩
  · exact .inl (by decide)
  · rw [List.prefix_nil.1 hrest]
    exact .inr (by decide)

end TinyKv
