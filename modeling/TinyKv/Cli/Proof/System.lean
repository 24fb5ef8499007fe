import Mathlib.Data.List.ReduceOption
import TinyKv.Abstract.Console
import TinyKv.Api.Proof.Request
import TinyKv.Cli.System
import TinyKv.Net.Proof.Session

/-!
# The network is not seen

Clients on a server print what consoles on its database print (`Abstract.Console`). A client has at
most one request on its way, so a link is in one of a few stages (`Stage`): nothing is on its way, a
request is on its way up, a response on its way down, or the client has returned. The round of a
request takes effect where its session answers it, in the middle of its stay on the network.

`Refines` relates a system to consoles; `Refines.next` is the step, `refines_run` the run.
-/

namespace TinyKv

open Bytes protocol FdConnection

/-! ## Lengths -/

theorem length_splitOnP {α : Type} (p : α → Bool) (s : List α) :
    ((s.splitOnP p).map fun piece => piece.length + 1).sum = s.length + 1 := by
  induction s with
  | nil => simp
  | cons a s ih =>
    rw [List.splitOnP_cons_eq_if_modifyHead]
    split
    · simp [ih]
      omega
    · obtain ⟨q, qs, hq⟩ := List.exists_cons_of_ne_nil (List.splitOnP_ne_nil p s)
      rw [hq] at ih ⊢
      simp only [List.modifyHead_cons, List.map_cons, List.sum_cons, List.length_cons] at ih ⊢
      omega

theorem line_le_getline {cin line rest : Bytes} (h : getline cin = some (line, rest)) :
    line.length ≤ cin.length := by
  unfold getline at h
  split at h
  · cases h
  · cases h
    exact (List.takeWhile_sublist _).length_le

theorem length_requestLine {line : Bytes} {req : Request} (h : decodeLine line = .ok req) :
    (requestLine req).length ≤ line.length + 7 := by
  have htokens : ((tokens line).map fun token => token.length + 1).sum ≤ line.length + 1 := by
    rw [← length_splitOnP isSpace line, tokens]
    induction line.splitOnP isSpace with
    | nil => simp
    | cons piece pieces ih =>
      rw [List.filter_cons]
      split <;> simp only [List.map_cons, List.sum_cons] <;> omega
  unfold decodeLine at h
  split at h
  · cases h
  · rename_i cmdStr args hline
    cases h
    rw [hline, List.map_cons, List.sum_cons] at htokens
    have hargs : (args.flatMap fun arg => (" " : Bytes) ++ arg).length =
        (args.map fun token => token.length + 1).sum := by
      rw [List.length_flatMap]
      congr 1
    have hcmd : (commandText (parseCommand cmdStr)).length ≤ 7 := by
      cases parseCommand cmdStr <;> decide
    rw [requestLine, List.length_append]
    dsimp only
    omega

/-! ## Values that are never empty -/

/-- What can be a value: a plain string that is not empty. -/
def Storable (bs : Bytes) : Prop := Plain bs ∧ bs ≠ []

instance (bs : Bytes) : Decidable (Storable bs) := inferInstanceAs (Decidable (_ ∧ _))

theorem callOf_storable {line : Bytes} (hlen : line.length < 2 ^ 64) {c : Call}
    (h : callOf line = some c) : c.Puts Storable := by
  have hplain := callOf_puts hlen h
  unfold callOf at h
  split at h
  · cases h
    trivial
  · rename_i key val args hreq
    cases h
    exact ⟨hplain, (isToken_of_decodeLine hreq val (by simp)).1⟩
  · cases h
    trivial
  · cases h
    trivial
  · cases h

/-- A line that is answered: the response is plain and crosses the wire as it is. -/
theorem serveLine_storable {config : DbFactoryConfig} {x x' : DbImpl StorageManagerImpl × FileSystem}
    (hx : DbImpl.Holds Storable config x) {line : Bytes × Env} (hlen : line.1.length < 2 ^ 64)
    (hb : WithinBounds config x'.2) {res : Response} (h : serveLine x line = (.ok res, x')) :
    DbImpl.Holds Storable config x' ∧ res.Plain ∧ readBack res = res := by
  have hback : (∀ data, res.data = some data → Storable data) → readBack res = res := by
    intro hdata
    obtain ⟨ok, message, data⟩ := res
    cases data with
    | none => rfl
    | some data => simp [readBack, Option.filter, (hdata data rfl).2]
  rcases serveLine_eq x line with ⟨c, hc, hrun⟩ | ⟨-, r, hrun, hdata, hmessage⟩
  · rw [hrun] at h
    obtain ⟨hx', hdata⟩ := hx.step hb (by decide) (callOf_storable hlen hc) h
    exact ⟨hx', ⟨plain_of_mem_messages (step_message h), fun d hd => (hdata d hd).1⟩, hback hdata⟩
  · rw [hrun] at h
    cases h
    have hnone : ∀ data, res.data = some data → Storable data := by
      intro data hd
      rw [hdata] at hd
      cases hd
    have hmem : res.message ∈ messages :=
      List.mem_append_left _ (List.mem_append_left _ (List.mem_append_right _ hmessage))
    exact ⟨hx, ⟨plain_of_mem_messages hmem, fun d hd => (hnone d hd).1⟩, hback hnone⟩

/-! ## Stages of a link -/

namespace Link

/-- What the session has not read of what its client has sent. -/
def upStream (l : Link) : Bytes := l.session.conn_.pending ++ l.up

/-- What the client has not read of what its session has sent. -/
def downStream (l : Link) : Bytes := l.repl.conn.pending ++ l.down

/-- The client as a console. -/
def console (l : Link) (done : Bool) : Console := ⟨l.repl.cin, l.repl.cout, l.repl.cerr, done⟩

end Link

/-- Where a request is, and what its console has done so far. The server does not care any more when
it has crashed. -/
inductive Stage (crashed : Bool) (l : Link) (c : Console) : Prop where
  | prompt (hplace : l.repl.place = .prompt) (hc : c = l.console false) (hdown : l.downStream = [])
      (hup : crashed = false → l.session.running = true ∧ l.upStream = [])
  | asked {line : Bytes} {req : Request} (hplace : l.repl.place = .waiting req)
      (hline : getline c.cin = some (line, l.repl.cin)) (hreq : decodeLine line = .ok req)
      (hcout : l.repl.cout = c.cout ++ ("tinykv>> " : Bytes)) (hcerr : l.repl.cerr = c.cerr)
      (hdone : c.done = false) (hdown : l.downStream = [])
      (hup : crashed = false → l.session.running = true ∧ l.upStream = encodeRequest req)
  | answered {req : Request} {res : Response} (hplace : l.repl.place = .waiting req)
      (hc : c = { l.console (decide (req.command = .EXIT)) with cout := l.repl.cout ++ printed res })
      (hplain : res.Plain) (hback : readBack res = res) (hdown : l.downStream = encodeResponse res)
      (hup : crashed = false → l.session.running = !decide (req.command = .EXIT) ∧ l.upStream = [])
  | returned (hplace : l.repl.place = .returned 0) (hc : c = l.console true)
      (hup : crashed = false → l.session.running = true → l.upStream = [])
  | lost (hcrashed : crashed = true) (hplace : l.repl.place = .returned 1)
      (hcout : l.repl.cout <+: c.cout ++ ("tinykv>> " : Bytes))

/-- No call on a socket that is still in use fails. -/
structure Link.Healthy (l : Link) : Prop where
  repl : l.repl.stopped = false → l.repl.conn.Healthy
  session : l.session.running = true → l.session.conn_.Healthy

/-- The system does what the consoles do. -/
structure Refines (config : DbFactoryConfig) (s : System StorageManagerImpl)
    (t : Consoles StorageManagerImpl) : Prop where
  healthy : ∀ i, (s.links i).Healthy
  stage : ∀ i, Stage s.crashed (s.links i) (t.consoles i)
  short : ∀ i, (t.consoles i).cin.length < 2 ^ 63
  db : s.crashed = false → s.db = t.db ∧ DbImpl.Holds Storable config s.db

/-! ## Rounds of a console -/

namespace Console

variable {c : Console} {env : Env} {x : DbImpl StorageManagerImpl × FileSystem} {line cin : Bytes}

theorem round_eof (hdone : c.done = false) (hline : getline c.cin = none) :
    c.round env x =
      (.ok (), { c with cout := c.cout ++ ("tinykv>> " : Bytes) ++ ("\n" : Bytes), done := true }, x) := by
  simp only [round, hdone, hline, Bool.false_eq_true, ↓reduceIte]

theorem round_empty (hdone : c.done = false) (hline : getline c.cin = some ([], cin)) :
    c.round env x = (.ok (), { c with cin := cin, cout := c.cout ++ ("tinykv>> " : Bytes) }, x) := by
  simp only [round, hdone, hline, Bool.false_eq_true, ↓reduceIte]

theorem round_invalid {parseErr : Bytes} (hdone : c.done = false)
    (hline : getline c.cin = some (line, cin)) (hne : line ≠ [])
    (hreq : decodeLine line = .error parseErr) :
    c.round env x =
      (.ok (), { c with
        cin := cin
        cout := c.cout ++ ("tinykv>> " : Bytes)
        cerr := c.cerr ++ ("ERR: " : Bytes) ++ parseErr ++ ("\n" : Bytes) }, x) := by
  simp only [round, hdone, hline, hne, hreq, Bool.false_eq_true, ↓reduceIte]

theorem ne_nil_of_decodeLine {req : Request} (hreq : decodeLine line = .ok req) : line ≠ [] := by
  rintro rfl
  cases hreq

theorem round_request {req : Request} {res : Response} {x' : DbImpl StorageManagerImpl × FileSystem}
    (hdone : c.done = false) (hline : getline c.cin = some (line, cin))
    (hreq : decodeLine line = .ok req)
    (hexec : execute x.1 env x.2 req.command req.args = (.ok res, x')) :
    c.round env x =
      (.ok (), { c with
        cin := cin
        cout := c.cout ++ ("tinykv>> " : Bytes) ++ printed res
        done := decide (req.command = .EXIT) }, x') := by
  simp only [round, hdone, hline, ne_nil_of_decodeLine hreq, hreq, hexec, Bool.false_eq_true,
    ↓reduceIte]

end Console

/-! ## The network moves -/

namespace Stage

variable {crashed : Bool} {l l' : Link} {c : Console}

theorem congr (h : Stage crashed l c) (hplace : l'.repl.place = l.repl.place)
    (hcin : l'.repl.cin = l.repl.cin) (hcout : l'.repl.cout = l.repl.cout)
    (hcerr : l'.repl.cerr = l.repl.cerr) (hdown : l'.downStream = l.downStream)
    (hup : l'.upStream = l.upStream) (hrun : l'.session.running = l.session.running) :
    Stage crashed l' c := by
  have hconsole : ∀ done, l'.console done = l.console done := by
    simp [Link.console, hcin, hcout, hcerr]
  cases h with
  | prompt hp hc hd hu =>
    exact .prompt (hplace.trans hp) (by rw [hc, hconsole]) (hdown.trans hd) (by rw [hrun, hup]; exact hu)
  | asked hp hline hreq hco hce hdone hd hu =>
    exact .asked (hplace.trans hp) (by rw [hcin]; exact hline) hreq (hcout.trans hco)
      (hcerr.trans hce) hdone (hdown.trans hd) (by rw [hrun, hup]; exact hu)
  | answered hp hc hplain hback hd hu =>
    exact .answered (hplace.trans hp) (by rw [hc, hconsole, hcout]) hplain hback (hdown.trans hd)
      (by rw [hrun, hup]; exact hu)
  | returned hp hc hu =>
    exact .returned (hplace.trans hp) (by rw [hc, hconsole]) (by rw [hrun, hup]; exact hu)
  | lost hcr hp hco => exact .lost hcr (hplace.trans hp) (by rw [hcout]; exact hco)

theorem crash (h : Stage crashed l c) : Stage true l c := by
  cases h with
  | prompt hp hc hd hu => exact .prompt hp hc hd nofun
  | asked hp hline hreq hco hce hdone hd hu => exact .asked hp hline hreq hco hce hdone hd nofun
  | answered hp hc hplain hback hd hu => exact .answered hp hc hplain hback hd nofun
  | returned hp hc hu => exact .returned hp hc nofun
  | lost hcr hp hco => exact .lost rfl hp hco

theorem arriveUp (h : Stage crashed l c) (n : Nat) : Stage crashed (l.arriveUp n) c := by
  unfold Link.arriveUp
  split
  · exact h
  · refine h.congr rfl rfl rfl rfl rfl ?_ rfl
    simp [Link.upStream, FdConnection.pending]

theorem arriveDown (h : Stage crashed l c) (n : Nat) : Stage crashed (l.arriveDown n) c := by
  unfold Link.arriveDown
  split
  · exact h
  · refine h.congr rfl rfl rfl rfl ?_ rfl rfl
    simp [Link.downStream, FdConnection.pending]

end Stage

namespace Link.Healthy

variable {l : Link}

theorem arriveUp (h : l.Healthy) (n : Nat) : (l.arriveUp n).Healthy := by
  unfold Link.arriveUp
  split
  · exact h
  · rename_i hne
    refine ⟨h.repl, fun hr => ⟨fun chunk hchunk => ?_, (h.session hr).sends⟩⟩
    rcases List.mem_append.1 hchunk with hchunk | hchunk
    · exact (h.session hr).recvs chunk hchunk
    · rw [List.mem_singleton.1 hchunk]
      simp [hne]

theorem arriveDown (h : l.Healthy) (n : Nat) : (l.arriveDown n).Healthy := by
  unfold Link.arriveDown
  split
  · exact h
  · rename_i hne
    refine ⟨fun ho => ⟨fun chunk hchunk => ?_, (h.repl ho).sends⟩, h.session⟩
    rcases List.mem_append.1 hchunk with hchunk | hchunk
    · exact (h.repl ho).recvs chunk hchunk
    · rw [List.mem_singleton.1 hchunk]
      simp [hne]

end Link.Healthy

/-! ## A client moves -/

namespace Stage

variable {crashed : Bool} {l : Link} {c : Console}

theorem of_prompt (h : Stage crashed l c) (hplace : l.repl.place = .prompt) :
    c = l.console false ∧ l.downStream = [] ∧
      (crashed = false → l.session.running = true ∧ l.upStream = []) := by
  cases h with
  | prompt hp hc hd hu => exact ⟨hc, hd, hu⟩
  | asked hp | answered hp | returned hp | lost _ hp => rw [hplace] at hp; cases hp

/-- A client at its prompt sends a request, or its console takes a round without the database. -/
theorem ask (h : Stage crashed l c) (hl : l.Healthy) (hplace : l.repl.place = .prompt) :
    l.step.Healthy ∧
      (System.asksNext l.repl.cin = true → Stage crashed l.step c) ∧
      (System.asksNext l.repl.cin = false → ∀ env (x : DbImpl StorageManagerImpl × FileSystem),
        ∃ c', c.round env x = (.ok (), c', x) ∧ Stage crashed l.step c' ∧
          c'.cin.length ≤ c.cin.length) := by
  obtain ⟨hc, hd, hu⟩ := h.of_prompt hplace
  have hconn := hl.repl (by simp [Repl.stopped, hplace])
  have hstep : l.repl.step = l.repl.ask := by simp only [Repl.step, hplace]
  have hasked := l.repl.asked
  unfold Link.step
  rw [hstep]
  generalize l.repl.ask = r at hasked
  have hdone : c.done = false := by rw [hc]; rfl
  have hcin : c.cin = l.repl.cin := by rw [hc]; rfl
  cases hasked with
  | eof hline =>
    refine ⟨⟨fun h => (by cases h), hl.session⟩,
      fun hask => by simp [System.asksNext, hline] at hask, fun _ env x => ?_⟩
    refine ⟨_, Console.round_eof hdone (hcin ▸ hline), .returned rfl (by rw [hc]; rfl)
      fun hcr _ => ?_, Nat.le_refl _⟩
    simpa [Link.upStream] using (hu hcr).2
  | empty hline =>
    have hlt := length_getline hline
    refine ⟨⟨fun _ => hconn, hl.session⟩,
      fun hask => by simp [System.asksNext, hline, decodeLine, tokens, Except.isOk, Except.toBool] at hask,
      fun _ env x => ⟨_, Console.round_empty hdone (hcin ▸ hline),
        .prompt hplace (by rw [hc]; rfl) hd fun hcr => ⟨(hu hcr).1, ?_⟩, by rw [hcin]; exact hlt.le⟩⟩
    simpa [Link.upStream] using (hu hcr).2
  | invalid hline hne hreq =>
    have hlt := length_getline hline
    refine ⟨⟨fun _ => hconn, hl.session⟩,
      fun hask => by simp [System.asksNext, hline, hreq, Except.isOk, Except.toBool] at hask,
      fun _ env x => ⟨_, Console.round_invalid hdone (hcin ▸ hline) hne hreq,
        .prompt hplace (by rw [hc]; rfl) hd fun hcr => ⟨(hu hcr).1, ?_⟩, by rw [hcin]; exact hlt.le⟩⟩
    simpa [Link.upStream] using (hu hcr).2
  | killed hline hne hreq hwrite | unsent hline hne hreq hwrite =>
    -- a socket in good health takes all bytes
    obtain ⟨conn', hwrite', -⟩ := writeAll_sent hconn (encodeRequest _)
    rw [hwrite] at hwrite'
    cases hwrite'
  | @sent line cin req conn hline hne hreq hwrite =>
    obtain ⟨conn', hwrite', hsent, hconn', hpending⟩ := writeAll_sent hconn (encodeRequest req)
    rw [hwrite] at hwrite'
    cases hwrite'
    refine ⟨⟨fun _ => hconn', hl.session⟩, fun _ => ?_,
      fun hask => by simp [System.asksNext, hline, hreq, Except.isOk, Except.toBool] at hask⟩
    refine .asked rfl (hcin ▸ hline) hreq (by rw [hc]; rfl) (by rw [hc]; rfl) hdone
      ?_ fun hcr => ⟨(hu hcr).1, ?_⟩
    · simpa [Link.downStream, hpending] using hd
    · have hup := (hu hcr).2
      simp only [Link.upStream, List.append_eq_nil_iff] at hup ⊢
      simp [hup.1, hup.2, hsent]

theorem whole_of_mem {arrived rest body : Bytes} (h : arrived ++ rest = body ++ [newLine])
    (hbody : newLine ∉ body) (hmem : newLine ∈ arrived) :
    arrived = body ++ newLine :: [] ∧ rest = [] := by
  obtain ⟨line, more, rfl, hline⟩ := List.eq_append_cons_of_mem hmem
  have hsplit : line ++ newLine :: (more ++ rest) = body ++ newLine :: [] := by simpa using h
  obtain ⟨rfl, hnil⟩ := Lines.append_cons_inj hline hbody hsplit
  obtain ⟨rfl, rfl⟩ := List.append_eq_nil_iff.1 hnil
  exact ⟨rfl, rfl⟩

theorem disconnect {req : Request} (hl : l.Healthy) (hplace : l.repl.place = .waiting req)
    (hmem : newLine ∉ l.repl.conn.pending) (hcrashed : crashed = true)
    (hcout : l.repl.cout <+: c.cout ++ ("tinykv>> " : Bytes)) :
    l.step.Healthy ∧ Stage crashed l.step c := by
  have hconn := hl.repl (by simp [Repl.stopped, hplace])
  obtain ⟨conn', hread', hsent⟩ := readLine_of_not_mem hconn hmem
  have hstep : l.repl.step = l.repl.hear req := by simp only [Repl.step, hplace]
  have hheard := l.repl.heard req
  unfold Link.step
  rw [hstep]
  generalize l.repl.hear req = r at hheard
  cases hheard with
  | disconnected hread => exact ⟨⟨fun h => (by cases h), hl.session⟩, .lost hcrashed rfl hcout⟩
  | threw hread | garbled hread | response hread =>
    rw [hread] at hread'
    cases hread'

/-- A client that does not have to wait prints its response, or the server has crashed. -/
theorem hear {req : Request} (h : Stage crashed l c) (hl : l.Healthy)
    (hplace : l.repl.place = .waiting req) (hcan : l.canStep crashed = true) :
    l.step.Healthy ∧ Stage crashed l.step c := by
  have hconn := hl.repl (by simp [Repl.stopped, hplace])
  have hcan' : newLine ∈ l.repl.conn.pending ∨ crashed = true ∨
      (l.session.running = false ∧ l.down = []) := by
    simpa [Link.canStep, hplace, or_assoc] using hcan
  cases h with
  | prompt hp | returned hp | lost _ hp => rw [hplace] at hp; cases hp
  | asked hp hline hreq hco hce hdone hd hu =>
    have hmem : newLine ∉ l.repl.conn.pending := by
      rw [(List.append_eq_nil_iff.1 hd).1]
      exact List.not_mem_nil
    have hcrashed : crashed = true := by
      rcases hcan' with hmem' | hcr | ⟨hr, -⟩
      · exact absurd hmem' hmem
      · exact hcr
      · by_contra hcr
        rw [(hu (by simpa using hcr)).1] at hr
        cases hr
    exact disconnect hl hplace hmem hcrashed (by rw [hco])
  | @answered req' res hp hc hplain hback hd hu =>
    obtain rfl : req' = req := by
      rw [hplace] at hp
      cases hp
      rfl
    rw [Link.downStream, encodeResponse_eq] at hd
    have hbody := newLine_not_mem_responseLine hplain
    by_cases hmem : newLine ∈ l.repl.conn.pending
    · obtain ⟨hpending, hdown⟩ := whole_of_mem hd hbody hmem
      obtain ⟨conn', hread', hrest, hconn', hsent⟩ := readLine_append hconn hbody hpending
      have hdecode : decodeResponseLine (responseLine res) = .ok (.ok res) := by
        have := decodeResponseLine_responseLine res hplain.message.2
          (fun data hd => (hplain.data data hd).2) (.inl rfl : ([] : Bytes) = [] ∨ _)
        rwa [List.append_nil, hback] at this
      have hstep : l.repl.step = l.repl.hear req' := by simp only [Repl.step, hplace]
      have hheard := l.repl.heard req'
      unfold Link.step
      rw [hstep]
      generalize l.repl.hear req' = r at hheard
      cases hheard with
      | disconnected hread =>
        rw [hread] at hread'
        cases hread'
      | threw hread hres | garbled hread hres =>
        rw [hread] at hread'
        cases hread'
        rw [hdecode] at hres
        cases hres
      | response hread hres =>
        rw [hread] at hread'
        cases hread'
        rw [hdecode] at hres
        cases hres
        refine ⟨⟨fun _ => hconn', hl.session⟩, ?_⟩
        by_cases hexit : req'.command = .EXIT
        · refine .returned (by simp [hexit]) ?_ fun hcr _ => ?_
          · rw [hc]
            simp [Link.console, hexit]
          · simpa [Link.upStream, hsent] using (hu hcr).2
        · refine .prompt (by simp [hexit]) ?_ ?_ fun hcr => ?_
          · rw [hc]
            simp [Link.console, hexit]
          · simpa [Link.downStream, hrest] using hdown
          · simpa [Link.upStream, hsent, hexit] using hu hcr
    · have hcrashed : crashed = true := by
        rcases hcan' with hmem' | hcr | ⟨-, hdown⟩
        · exact absurd hmem' hmem
        · exact hcr
        · rw [hdown, List.append_nil] at hd
          rw [hd] at hmem
          exact absurd (by simp [newLine]) hmem
      refine disconnect hl hplace hmem hcrashed ?_
      rw [hc, List.append_assoc]
      exact List.prefix_append _ _

end Stage

/-! ## A session moves -/

theorem Session.turn_threw {s : Session} {env : Env} {x x' : DbImpl StorageManagerImpl × FileSystem}
    {line rest : Bytes} {f : Fault} (hrun : s.running = true) (hc : s.conn_.Healthy)
    (hline : newLine ∉ line) (hpending : s.conn_.pending = line ++ newLine :: rest)
    (hserve : serveLine x (line, env) = (.error f, x')) :
    ∃ conn, s.turn env x = (.threw f, ⟨conn, false⟩, x') ∧ conn.sent = s.conn_.sent := by
  obtain ⟨conn, hread, -, -, hsent⟩ := readLine_append hc hline hpending
  refine ⟨conn, ?_, hsent⟩
  simp only [turn, hrun, hread, hserve, Bool.true_eq_false, ↓reduceIte]

namespace Stage

variable {l : Link} {c : Console}

/-- What a session that does not have to wait can do. -/
inductive Turned (l : Link) (c : Console) (env : Env) (x : DbImpl StorageManagerImpl × FileSystem) :
    Turn × Link × DbImpl StorageManagerImpl × FileSystem → Prop where
  | ended {l' : Link} (hl : l'.Healthy) (hst : Stage false l' c) : Turned l c env x (.ended, l', x)
  | threw {l' : Link} {x' : DbImpl StorageManagerImpl × FileSystem} {f : Fault} (hl : l'.Healthy)
      (hst : Stage true l' c) : Turned l c env x (.threw f, l', x')
  | answered {l' : Link} {x' : DbImpl StorageManagerImpl × FileSystem} {line : Bytes} {res : Response}
      (hl : l'.Healthy) (hlen : line.length < 2 ^ 64) (hserve : serveLine x (line, env) = (.ok res, x'))
      (hst : res.Plain → readBack res = res → ∃ c', c.round env x = (.ok (), c', x') ∧
        Stage false l' c' ∧ c'.cin.length ≤ c.cin.length) :
      Turned l c env x (.answered (line, env) res, l', x')

theorem serve {line : Bytes} {req : Request} (hl : l.Healthy) (hrun : l.session.running = true)
    (hplace : l.repl.place = .waiting req) (hline : getline c.cin = some (line, l.repl.cin))
    (hreq : decodeLine line = .ok req) (hcout : l.repl.cout = c.cout ++ ("tinykv>> " : Bytes))
    (hcerr : l.repl.cerr = c.cerr) (hdone : c.done = false) (hdown : l.downStream = [])
    (hup : l.upStream = encodeRequest req) (hmem : newLine ∈ l.session.conn_.pending)
    (hshort : c.cin.length < 2 ^ 63) (env : Env) (x : DbImpl StorageManagerImpl × FileSystem) :
    Turned l c env x (l.turn env x) := by
  have hargs := isToken_of_decodeLine hreq
  have hbody : newLine ∉ requestLine req := newLine_not_mem_requestLine hargs
  rw [Link.upStream, encodeRequest_eq] at hup
  obtain ⟨hpending, hnil⟩ := whole_of_mem hup hbody hmem
  have hlt := length_getline hline
  have hlen : (requestLine req).length < 2 ^ 64 := by
    have hle := length_requestLine hreq
    have := line_le_getline hline
    omega
  have hexit : isExit (requestLine req) = decide (req.command = .EXIT) := by
    simp only [isExit, decodeLine_requestLine hargs]
  unfold Link.turn
  obtain ⟨hr, -⟩ | ⟨-, hnot, -⟩ | ⟨-, body, rest, hbody', hpending', hcase⟩ :=
    l.session.turn_cases hl.session env x
  · rw [hrun] at hr
    cases hr
  · exact absurd hmem hnot
  · obtain ⟨rfl, rfl⟩ := Lines.append_cons_inj hbody' hbody (hpending'.symm.trans hpending)
    obtain ⟨f, x', hserve, -⟩ | ⟨res, x', conn, hserve, hconn, hrest, hsent, hturn⟩ := hcase
    · obtain ⟨conn, hturn, hsent⟩ :=
        Session.turn_threw hrun (hl.session hrun) hbody hpending hserve
      rw [hturn]
      refine .threw ⟨hl.repl, nofun⟩ (.asked hplace hline hreq hcout hcerr hdone ?_ nofun)
      simpa [Link.downStream, hsent] using hdown
    · rw [hturn]
      refine .answered ⟨hl.repl, fun _ => hconn⟩ hlen hserve fun hplain hback => ?_
      have hexec : execute x.1 env x.2 req.command req.args = (.ok res, x') := by
        rw [← hserve, serveLine, decodeLine_requestLine hargs]
      refine ⟨_, Console.round_request hdone hline hreq hexec,
        .answered hplace ?_ hplain hback ?_ fun _ => ⟨?_, ?_⟩, hlt.le⟩
      · simp [Link.console, hcout, hcerr]
      · simp only [Link.downStream, List.append_eq_nil_iff] at hdown ⊢
        simp [hdown.1, hdown.2, hsent]
      · exact congrArg (!·) hexit
      · simpa [Link.upStream, hnil] using hrest

/-- **The turn of a session** that does not have to wait. -/
theorem turn (h : Stage false l c) (hl : l.Healthy) (hcan : l.canTurn = true)
    (hshort : c.cin.length < 2 ^ 63) (env : Env) (x : DbImpl StorageManagerImpl × FileSystem) :
    Turned l c env x (l.turn env x) := by
  obtain ⟨hrun, hcan'⟩ : l.session.running = true ∧
      (newLine ∈ l.session.conn_.pending ∨ (l.repl.stopped = true ∧ l.up = [])) := by
    simpa [Link.canTurn] using hcan
  have hnone : l.upStream = [] → newLine ∉ l.session.conn_.pending := fun hup => by
    rw [(List.append_eq_nil_iff.1 hup).1]
    exact List.not_mem_nil
  have hstopped : l.repl.stopped = false → newLine ∈ l.session.conn_.pending := fun ho => by
    refine hcan'.resolve_right fun hov => ?_
    rw [ho] at hov
    cases hov.1
  cases h with
  | prompt hp hc hd hu =>
    exact absurd (hstopped (by simp [Repl.stopped, hp])) (hnone (hu rfl).2)
  | asked hp hline hreq hco hce hdone hd hu =>
    exact serve hl hrun hp hline hreq hco hce hdone hd (hu rfl).2 (hstopped (by simp [Repl.stopped, hp]))
      hshort env x
  | answered hp hc hplain hback hd hu =>
    exact absurd (hstopped (by simp [Repl.stopped, hp])) (hnone (hu rfl).2)
  | returned hp hc hu =>
    -- the client has closed its connection and the session ends
    obtain ⟨hr, -⟩ | ⟨-, hnot, conn, hsent, hturn⟩ | ⟨-, line, rest, -, hpending, -⟩ :=
      l.session.turn_cases hl.session env x
    · rw [hrun] at hr
      cases hr
    · unfold Link.turn
      rw [hturn]
      exact .ended ⟨hl.repl, fun h => by cases h⟩ (.returned hp hc fun _ h => by cases h)
    · exact absurd (by rw [hpending]; simp) (hnone (hu rfl hrun))
  | lost hcr => cases hcr

end Stage

/-! ## The system moves -/

namespace Refines

variable {config : DbFactoryConfig} {s : System StorageManagerImpl} {t : Consoles StorageManagerImpl}

theorem update (h : Refines config s t) {i : Nat} {l : Link} {c : Console}
    {x y : DbImpl StorageManagerImpl × FileSystem} (hl : l.Healthy) (hst : Stage s.crashed l c)
    (hshort : c.cin.length < 2 ^ 63)
    (hdb : s.crashed = false → x = y ∧ DbImpl.Holds Storable config x) :
    Refines config ⟨Function.update s.links i l, x, s.crashed⟩
      ⟨Function.update t.consoles i c, y⟩ := by
  have hall : ∀ j, (Function.update s.links i l j).Healthy ∧
      Stage s.crashed (Function.update s.links i l j) (Function.update t.consoles i c j) ∧
      (Function.update t.consoles i c j).cin.length < 2 ^ 63 := by
    intro j
    by_cases hj : j = i
    · subst hj
      simpa using ⟨hl, hst, hshort⟩
    · rw [Function.update_of_ne hj, Function.update_of_ne hj]
      exact ⟨h.healthy j, h.stage j, h.short j⟩
  exact ⟨fun j => (hall j).1, fun j => (hall j).2.1, fun j => (hall j).2.2, hdb⟩

theorem setLink (h : Refines config s t) {i : Nat} {l : Link} (hl : l.Healthy)
    (hst : Stage s.crashed l (t.consoles i)) : Refines config (s.setLink i l) t := by
  have := h.update (i := i) hl hst (h.short i) h.db
  rwa [Function.update_eq_self] at this

theorem crash (h : Refines config s t) {i : Nat} {l : Link}
    {x : DbImpl StorageManagerImpl × FileSystem} (hl : l.Healthy)
    (hst : Stage true l (t.consoles i)) :
    Refines config ⟨Function.update s.links i l, x, true⟩ t := by
  have hall : Refines config { s with crashed := true } t :=
    ⟨h.healthy, fun j => (h.stage j).crash, h.short, nofun⟩
  have := hall.update (i := i) (x := x) (y := t.db) hl hst (h.short i) nofun
  rwa [Function.update_eq_self] at this

theorem run_singleton {t : Consoles StorageManagerImpl} {i : Nat} {env : Env} {c : Console}
    {x : DbImpl StorageManagerImpl × FileSystem}
    (h : (t.consoles i).round env t.db = (.ok (), c, x)) :
    Machine.run Consoles.step t [(i, env)] = ([.ok ()], ⟨Function.update t.consoles i c, x⟩) := by
  simp only [Machine.run_cons, Machine.run_nil, Consoles.step, h]

theorem next_client (h : Refines config s t) (i : Nat) :
    (∀ r ∈ (Machine.run Consoles.step t (s.effect (.client i)).toList).1, r = .ok ()) ∧
      Refines config (s.next (.client i))
        (Machine.run Consoles.step t (s.effect (.client i)).toList).2 := by
  have hl := h.healthy i
  have hst := h.stage i
  have hquiet : (s.links i).repl.place ≠ .prompt → s.effect (.client i) = none := fun hne => by
    simp [System.effect, hne]
  simp only [System.next]
  cases hplace : (s.links i).repl.place with
  | prompt =>
    obtain ⟨hl', hask, hskip⟩ := hst.ask hl hplace
    have hcan : (s.links i).canStep s.crashed = true := by simp [Link.canStep, hplace]
    rw [if_pos hcan]
    cases hasks : System.asksNext (s.links i).repl.cin with
    | true =>
      have heffect : s.effect (.client i) = none := by simp [System.effect, hasks]
      rw [heffect]
      exact ⟨nofun, h.setLink hl' (hask hasks)⟩
    | false =>
      obtain ⟨c, hround, hst', hshort⟩ := hskip hasks {} t.db
      have heffect : s.effect (.client i) = some (i, {}) := by simp [System.effect, hplace, hasks]
      rw [heffect, Option.toList_some, run_singleton hround]
      exact ⟨by simp, h.update hl' hst' (hshort.trans_lt (h.short i)) h.db⟩
  | waiting req =>
    rw [hquiet (by simp [hplace])]
    refine ⟨nofun, ?_⟩
    split
    · rename_i hcan
      obtain ⟨hl', hst'⟩ := hst.hear hl hplace hcan
      exact h.setLink hl' hst'
    · exact h
  | returned code | threw f | killed =>
    have hcan : (s.links i).canStep s.crashed = false := by simp [Link.canStep, hplace]
    rw [hquiet (by simp [hplace]), hcan]
    exact ⟨nofun, h⟩

theorem next_turn (h : Refines config s t) (i : Nat) (env : Env)
    (hb : WithinBounds config (s.next (.turn i env)).db.2) :
    (∀ r ∈ (Machine.run Consoles.step t (s.effect (.turn i env)).toList).1, r = .ok ()) ∧
      Refines config (s.next (.turn i env))
        (Machine.run Consoles.step t (s.effect (.turn i env)).toList).2 := by
  unfold System.next System.effect at *
  by_cases hcan : (!s.crashed && (s.links i).canTurn) = true
  · simp only [hcan, ↓reduceIte] at hb ⊢
    obtain ⟨hcr, hcan'⟩ : s.crashed = false ∧ (s.links i).canTurn = true := by simpa using hcan
    obtain ⟨hdb, hholds⟩ := h.db hcr
    have hturned := Stage.turn (hcr ▸ h.stage i) (h.healthy i) hcan' (h.short i) env s.db
    unfold System.turn at hb ⊢
    generalize (s.links i).turn env s.db = turned at hturned hb
    cases hturned with
    | ended hl hst =>
      refine ⟨nofun, ?_⟩
      have := h.setLink (i := i) hl (hcr ▸ hst)
      rw [System.setLink, hcr] at this
      exact this
    | threw hl hst => exact ⟨nofun, h.crash hl hst⟩
    | answered hl hlen hserve hst =>
      obtain ⟨hholds', hplain, hback⟩ := serveLine_storable hholds hlen hb hserve
      obtain ⟨c, hround, hst', hshort⟩ := hst hplain hback
      rw [hdb] at hround
      simp only [Option.toList_some, run_singleton hround]
      refine ⟨by simp, ?_⟩
      have := h.update (i := i) hl (hcr ▸ hst') (hshort.trans_lt (h.short i)) fun _ => ⟨rfl, hholds'⟩
      rw [hcr] at this
      exact this
  · simp only [hcan, Bool.false_eq_true, ↓reduceIte, Option.toList_none, Machine.run_nil]
    exact ⟨nofun, h⟩

/-- **One action** of any party. -/
theorem next (h : Refines config s t) (a : Action) (hb : WithinBounds config (s.next a).db.2) :
    (∀ r ∈ (Machine.run Consoles.step t (s.effect a).toList).1, r = .ok ()) ∧
      Refines config (s.next a) (Machine.run Consoles.step t (s.effect a).toList).2 := by
  cases a with
  | client i => exact h.next_client i
  | turn i env => exact h.next_turn i env hb
  | up i n => exact ⟨nofun, h.setLink ((h.healthy i).arriveUp n) ((h.stage i).arriveUp n)⟩
  | down i n => exact ⟨nofun, h.setLink ((h.healthy i).arriveDown n) ((h.stage i).arriveDown n)⟩

theorem start {config : DbFactoryConfig} {cin : Nat → Bytes} {sends sends' : Nat → Nat → Nat}
    (hcin : ∀ i, (cin i).length < 2 ^ 63) (hsends : ∀ i k, 0 < sends i k)
    (hsends' : ∀ i k, 0 < sends' i k) :
    Refines config (System.start config cin sends sends') (Consoles.start config cin) where
  healthy i := ⟨fun _ => ⟨nofun, hsends i⟩, fun _ => ⟨nofun, hsends' i⟩⟩
  stage _ := .prompt rfl rfl rfl fun _ => ⟨rfl, rfl⟩
  short := hcin
  db _ := ⟨rfl, DbImpl.holds_createDbWithConfig Storable config⟩

end Refines

/-! ## Every run -/

theorem Link.turn_effects (l : Link) (env : Env) (x : DbImpl StorageManagerImpl × FileSystem) :
    x.2.effects <+: (l.turn env x).2.2.2.effects :=
  l.session.turn_effects env x

theorem System.next_effects (s : System StorageManagerImpl) (a : Action) :
    s.db.2.effects <+: (s.next a).db.2.effects := by
  cases a with
  | client i =>
    simp only [next]
    split <;> exact List.prefix_refl _
  | turn i env =>
    simp only [next]
    split
    · exact (s.links i).turn_effects env s.db
    · exact List.prefix_refl _
  | up i n | down i n => exact List.prefix_refl _

/-- **Every run** of the parties is a run of the consoles. -/
theorem refines_run {config : DbFactoryConfig} {s : System StorageManagerImpl}
    {t : Consoles StorageManagerImpl} (h : Refines config s t) (actions : List Action)
    (hb : WithinBounds config (Machine.run System.step s actions).2.db.2) :
    let rounds := (Machine.run System.step s actions).1.reduceOption
    (∀ r ∈ (Machine.run Consoles.step t rounds).1, r = .ok ()) ∧
      Refines config (Machine.run System.step s actions).2 (Machine.run Consoles.step t rounds).2 := by
  induction actions using List.reverseRecOn with
  | nil => exact ⟨nofun, h⟩
  | append_singleton actions a ih =>
    rw [Machine.run_snoc] at hb ⊢
    obtain ⟨hok, href⟩ := ih (hb.earlier (System.next_effects _ a))
    obtain ⟨hok', href'⟩ := href.next a hb
    have hone : [(System.step (Machine.run System.step s actions).2 a).1].reduceOption =
        ((Machine.run System.step s actions).2.effect a).toList := by
      rw [System.step]
      cases (Machine.run System.step s actions).2.effect a <;> rfl
    rw [List.reduceOption_append, hone]
    dsimp only
    rw [Machine.run_append]
    refine ⟨fun r hr => ?_, href'⟩
    rcases List.mem_append.1 hr with hr | hr
    · exact hok r hr
    · exact hok' r hr

/-- **The network is not seen.** Clients on a server over empty directories, whatever the parts in
which bytes are sent and arrive and whatever the order in which the parties move. Their rounds take
effect one after the other, that of a request when it is answered, on consoles that share the
database, and:

* none of these rounds throws, and the database is that of the consoles, unless the server has
  crashed;
* a client between two rounds, or behind its last one, has read and printed what its console has, on
  both of its streams;
* a client that waits has its prompt printed but not its answer;
* a client fails only if the server has crashed, and has printed nothing wrong. -/
theorem clients_are_consoles {config : DbFactoryConfig} {cin : Nat → Bytes}
    {sends sends' : Nat → Nat → Nat} (hcin : ∀ i, (cin i).length < 2 ^ 63)
    (hsends : ∀ i k, 0 < sends i k) (hsends' : ∀ i k, 0 < sends' i k) {actions : List Action}
    (hb : WithinBounds config
      (Machine.run System.step (System.start config cin sends sends') actions).2.db.2) :
    let run := Machine.run System.step (System.start config cin sends sends') actions
    let ideal := Machine.run Consoles.step (Consoles.start config cin) run.1.reduceOption
    (∀ r ∈ ideal.1, r = .ok ()) ∧ (run.2.crashed = false → run.2.db = ideal.2.db) ∧
    ∀ i, let r := (run.2.links i).repl
      let c := ideal.2.consoles i
      (r.place = .prompt → c = ⟨r.cin, r.cout, r.cerr, false⟩) ∧
      (r.place = .returned 0 → c = ⟨r.cin, r.cout, r.cerr, true⟩) ∧
      (∀ req, r.place = .waiting req →
        r.cout = c.cout ++ ("tinykv>> " : Bytes) ∨ ∃ res, c.cout = r.cout ++ printed res) ∧
      (run.2.crashed = false →
        r.place = .prompt ∨ (∃ req, r.place = .waiting req) ∨ r.place = .returned 0) ∧
      r.cout <+: c.cout ++ ("tinykv>> " : Bytes) := by
  intro run ideal
  obtain ⟨hok, href⟩ := refines_run (Refines.start hcin hsends hsends') actions hb
  refine ⟨hok, fun hcr => (href.db hcr).1, fun i => ?_⟩
  intro r c
  have hst : Stage run.2.crashed (run.2.links i) c := href.stage i
  cases hst with
  | prompt hp hc =>
    have hplace : r.place = .prompt := hp
    rw [hplace]
    refine ⟨fun _ => hc, nofun, nofun, fun _ => .inl rfl, ?_⟩
    rw [hc]
    exact List.prefix_append _ _
  | @asked _ req hp _ _ hcout =>
    have hplace : r.place = .waiting req := hp
    rw [hplace]
    exact ⟨nofun, nofun, fun _ _ => .inl hcout, fun _ => .inr (.inl ⟨req, rfl⟩),
      hcout ▸ List.prefix_refl _⟩
  | @answered req res hp hc =>
    have hplace : r.place = .waiting req := hp
    have hcout : c.cout = r.cout ++ printed res := by rw [hc]
    rw [hplace]
    refine ⟨nofun, nofun, fun _ _ => .inr ⟨res, hcout⟩, fun _ => .inr (.inl ⟨req, rfl⟩), ?_⟩
    rw [hcout, List.append_assoc]
    exact List.prefix_append _ _
  | returned hp hc =>
    have hplace : r.place = .returned 0 := hp
    rw [hplace]
    refine ⟨nofun, fun _ => hc, nofun, fun _ => .inr (.inr rfl), ?_⟩
    rw [hc]
    exact List.prefix_append _ _
  | lost hcrashed hp hcout =>
    have hplace : r.place = .returned 1 := hp
    rw [hplace, hcrashed]
    exact ⟨nofun, nofun, nofun, nofun, hcout⟩

/-- Two clients; the second one's last line has no line feed. -/
def twoInputs : Nat → Bytes
  | 0 => "put a 1\n\n \nEXIT\nget a\n"
  | 1 => "get a"
  | _ => []

theorem twoInputs_short (i : Nat) : (twoInputs i).length < 2 ^ 63 := by
  match i with
  | 0 => decide
  | 1 => decide
  | i + 2 => exact (by decide : 0 < 2 ^ 63)

/-- The put of the first client and the get of the second are on their way at the same time, and
arrive in pieces. -/
def twoInputsActions : List Action :=
  [.client 0, .up 0 2, .client 1, .up 0 99, .up 1 99, .turn 0 {}, .turn 1 {}, .down 1 5, .down 0 99,
    .client 0, .down 1 99, .client 1, .client 1, .client 0, .client 0, .client 0, .up 0 99, .turn 0 {},
    .down 0 99, .client 0]

def twoInputsRun : List (Option (Nat × Env)) × System StorageManagerImpl :=
  Machine.run System.step (System.start {} twoInputs (fun _ _ => 4) fun _ _ => 7) twoInputsActions

theorem clients_are_consoles_two_inputs :
    let ideal := Machine.run Consoles.step (Consoles.start {} twoInputs) twoInputsRun.1.reduceOption
    (twoInputsRun.2.links 0).repl.place = .returned 0 ∧
      (ideal.2.consoles 0).cout = "tinykv>> OK\ntinykv>> tinykv>> tinykv>> OK\n" ∧
      (ideal.2.consoles 1).cout = "tinykv>> 1\ntinykv>> \n" := by
  intro ideal
  have h := (@clients_are_consoles {} twoInputs _ _ twoInputs_short
    (fun _ _ => (by decide : 0 < 4)) (fun _ _ => (by decide : 0 < 7)) twoInputsActions nofun).2.2
  have h0 : (twoInputsRun.2.links 0).repl.place = .returned 0 := by decide +kernel
  have h1 : (twoInputsRun.2.links 1).repl.place = .returned 0 := by decide +kernel
  refine ⟨h0, (congrArg Console.cout ((h 0).2.1 h0)).trans ?_,
    (congrArg Console.cout ((h 1).2.1 h1)).trans ?_⟩
  · show (twoInputsRun.2.links 0).repl.cout = _
    decide +kernel
  · show (twoInputsRun.2.links 1).repl.cout = _
    decide +kernel

end TinyKv
