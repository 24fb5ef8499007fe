import TinyKv.Api.Proof.Grammar
import TinyKv.Cli.Repl
import TinyKv.Net.Proof.FdConnection

/-!
# A client on any server

`runRepl` on a connection whose other end may send anything and may close at any time.

* `runRepl_returns`: it returns 0 or 1 and does not throw, unless a `send` to the server that has
  closed ends the process, and it sends nothing but the requests of its input, in order, as far as it
  gets.
* `runRepl_talks`: if no call on the socket fails, it goes by the lines of the stream alone. It
  returns 0 exactly if there is a response that can be decoded for every request.
-/

namespace TinyKv

open Bytes protocol FdConnection

/-! ## What it says -/

/-- The requests of the input, up to the first `EXIT`. -/
def asks (cin : Bytes) : List Request :=
  match _h : getline cin with
  | none => []
  | some (line, rest) =>
    match decodeLine line with
    | .error _ => asks rest
    | .ok req => req :: if req.command = .EXIT then [] else asks rest
termination_by cin.length
decreasing_by all_goals exact length_getline ‹_›

/-- The responses at the head of these lines. -/
def answersOf : List Bytes → List Response
  | [] => []
  | line :: lines =>
    match decodeResponseLine line with
    | .ok (.ok res) => res :: answersOf lines
    | .ok (.error _) | .error _ => []

/-- What is printed when the requests of the input get these answers, and no more. -/
def transcript (cin : Bytes) (answers : List Response) : Bytes :=
  ("tinykv>> " : Bytes) ++
    match _h : getline cin with
    | none => ("\n" : Bytes)
    | some (line, rest) =>
      match decodeLine line, answers with
      | .error _, answers => transcript rest answers
      | .ok _, [] => []
      | .ok req, res :: answers =>
        printed res ++ if req.command = .EXIT then [] else transcript rest answers
termination_by cin.length
decreasing_by all_goals exact length_getline ‹_›

section Lines

variable {cin line rest : Bytes}

theorem asks_eof (h : getline cin = none) : asks cin = [] := by
  rw [asks]
  split
  · rfl
  · rename_i heq
    rw [h] at heq
    cases heq

theorem asks_line (h : getline cin = some (line, rest)) :
    asks cin = match decodeLine line with
      | .error _ => asks rest
      | .ok req => req :: if req.command = .EXIT then [] else asks rest := by
  rw [asks]
  split <;> rename_i heq
  · rw [h] at heq
    cases heq
  · rw [h] at heq
    cases heq
    rfl

theorem asks_invalid (h : getline cin = some (line, rest)) {parseErr : Bytes}
    (hreq : decodeLine line = .error parseErr) : asks cin = asks rest := by
  rw [asks_line h, hreq]

theorem asks_request (h : getline cin = some (line, rest)) {req : Request}
    (hreq : decodeLine line = .ok req) :
    asks cin = req :: if req.command = .EXIT then [] else asks rest := by
  rw [asks_line h, hreq]

variable {answers : List Response}

theorem transcript_eof (h : getline cin = none) :
    transcript cin answers = ("tinykv>> " : Bytes) ++ ("\n" : Bytes) := by
  rw [transcript]
  split
  · rfl
  · rename_i heq
    rw [h] at heq
    cases heq

theorem transcript_line (h : getline cin = some (line, rest)) :
    transcript cin answers = ("tinykv>> " : Bytes) ++
      match decodeLine line, answers with
      | .error _, answers => transcript rest answers
      | .ok _, [] => []
      | .ok req, res :: answers =>
        printed res ++ if req.command = .EXIT then [] else transcript rest answers := by
  rw [transcript]
  split <;> rename_i heq
  · rw [h] at heq
    cases heq
  · rw [h] at heq
    cases heq
    rfl

end Lines

theorem decodeLine_nil : decodeLine [] = .error ("empty command" : Bytes) := rfl

/-! ## Sockets that fail -/

/-- A coming call of `send` raises `SIGPIPE`. -/
def FdConnection.RaisesSigpipe (c : FdConnection) : Prop := c.sigpipe = true ∧ ∃ k, c.sends k = 0

/-- What `writeFrom` can come to. -/
structure FdConnection.Wrote (c : FdConnection) (data : Bytes) (written : Option Bool) (c' : FdConnection) :
    Prop where
  sent : ∃ taken, c'.sent = c.sent ++ taken ∧ taken <+: data ∧ (written = some true → taken = data)
  killed : written = none → c.RaisesSigpipe
  later : c'.RaisesSigpipe → c.RaisesSigpipe

theorem writeFrom_any (c : FdConnection) (data : Bytes) (sent : Nat) :
    ∃ written c', c.writeFrom data sent = (written, c') ∧ Wrote c (data.drop sent) written c' := by
  fun_induction writeFrom c data sent with
  | case1 c sent hlt c' hsend =>
    simp only [send, Prod.mk.injEq] at hsend
    obtain ⟨hn, rfl⟩ := hsend
    split at hn
    · rename_i hpipe
      simp only [Bool.and_eq_true, decide_eq_true_eq] at hpipe
      have hraises : c.RaisesSigpipe := ⟨hpipe.1, 0, hpipe.2⟩
      refine ⟨none, _, rfl, ⟨[], ?_, List.nil_prefix, fun h => (by cases h)⟩, fun _ => hraises,
        fun _ => hraises⟩
      simp [hpipe.2]
    · cases hn
  | case2 c sent hlt c' hsend =>
    obtain ⟨hn, rfl⟩ := send_taken hsend
    refine ⟨some false, _, rfl, ⟨[], by simp, List.nil_prefix, by simp⟩, fun h => (by cases h), ?_⟩
    rintro ⟨hpipe, k, hk⟩
    exact ⟨hpipe, k + 1, hk⟩
  | case3 c sent hlt n c' hsend ih =>
    obtain ⟨hn, rfl⟩ := send_taken hsend
    obtain ⟨written, c'', hrun, ⟨taken, hsent, hpre, hall⟩, hkilled, hlater⟩ := ih
    have hback : FdConnection.RaisesSigpipe { c with
        sends := fun k => c.sends (k + 1)
        sent := c.sent ++ (data.drop sent).take (n + 1) } → c.RaisesSigpipe := by
      rintro ⟨hpipe, k, hk⟩
      exact ⟨hpipe, k + 1, hk⟩
    have hsplit : (data.drop sent).take (n + 1) ++ data.drop (sent + (n + 1)) = data.drop sent := by
      rw [← List.drop_drop, List.take_append_drop]
    refine ⟨written, c'', hrun, ⟨(data.drop sent).take (n + 1) ++ taken, ?_, ?_, fun hw => ?_⟩,
      fun hw => hback (hkilled hw), fun h => hback (hlater h)⟩
    · rw [hsent, List.append_assoc]
    · have := (List.prefix_append_right_inj ((data.drop sent).take (n + 1))).2 hpre
      rwa [hsplit] at this
    · rw [hall hw, hsplit]
  | case4 c sent hge =>
    refine ⟨some true, c, rfl, ⟨[], (List.append_nil _).symm, List.nil_prefix, fun _ => ?_⟩,
      fun h => (by cases h), id⟩
    rw [List.drop_eq_nil_of_le (by omega)]

/-- **`writeAll`** sends a part of its bytes from the front, and all of them if it says so. -/
theorem writeAll_any {c c' : FdConnection} {data : Bytes} {written : Option Bool}
    (h : c.writeAll data = (written, c')) : Wrote c data written c' := by
  obtain ⟨_, _, hrun, hwrote⟩ := writeFrom_any c data 0
  rw [← writeAll, h] at hrun
  cases hrun
  rwa [List.drop_zero] at hwrote

theorem sent_readLine {c c' : FdConnection} {line : Option Bytes} (h : c.readLine = (line, c')) :
    c'.sent = c.sent ∧ (c'.RaisesSigpipe → c.RaisesSigpipe) := by
  obtain ⟨-, rfl⟩ := Prod.mk.inj h
  exact ⟨rfl, id⟩

/-! ## Any connection -/

namespace Repl

theorem run_stopped {r : Repl} (h : r.stopped = true) : r.run = r := by
  rw [run, dif_pos h]

theorem run_step {r : Repl} (h : r.stopped = false) : r.run = r.step.run := by
  rw [run, dif_neg (by simp [h])]

theorem run_prompt {r : Repl} (h : r.place = .prompt) : r.run = r.ask.run := by
  rw [run_step (by simp [stopped, h]), step, h]

theorem run_waiting {r : Repl} {req : Request} (h : r.place = .waiting req) :
    r.run = (r.hear req).run := by
  rw [run_step (by simp [stopped, h]), step, h]

/-- What a round of the loop comes to: `runRepl` is at its prompt again, or is over. -/
inductive Round (r r' : Repl) : Prop
  | eof (hline : getline r.cin = none) (hplace : r'.place = .returned 0) (hconn : r'.conn = r.conn)
    (hcout : r'.cout = r.cout ++ ("tinykv>> " : Bytes) ++ ("\n" : Bytes))
  | skip {line parseErr : Bytes} (hline : getline r.cin = some (line, r'.cin))
    (hreq : decodeLine line = .error parseErr) (hplace : r'.place = .prompt) (hconn : r'.conn = r.conn)
    (hcout : r'.cout = r.cout ++ ("tinykv>> " : Bytes))
  | killed {line : Bytes} {req : Request} (hline : getline r.cin = some (line, r'.cin))
    (hreq : decodeLine line = .ok req)
    (hwrite : r.conn.writeAll (encodeRequest req) = (none, r'.conn)) (hplace : r'.place = .killed)
  | unsent {line : Bytes} {req : Request} (hline : getline r.cin = some (line, r'.cin))
    (hreq : decodeLine line = .ok req)
    (hwrite : r.conn.writeAll (encodeRequest req) = (some false, r'.conn))
    (hplace : r'.place = .returned 1)
  | unanswered {line : Bytes} {req : Request} {conn : FdConnection} {rawRes : Option Bytes}
    (hline : getline r.cin = some (line, r'.cin)) (hreq : decodeLine line = .ok req)
    (hwrite : r.conn.writeAll (encodeRequest req) = (some true, conn))
    (hread : conn.readLine = (rawRes, r'.conn))
    (hres : ∀ raw ∈ rawRes, ∀ res, decodeResponseLine raw ≠ .ok (.ok res))
    (hplace : r'.place = .returned 1) (hcout : r'.cout = r.cout ++ ("tinykv>> " : Bytes))
  | answered {line : Bytes} {req : Request} {conn : FdConnection} {rawRes : Bytes} {res : Response}
    (hline : getline r.cin = some (line, r'.cin)) (hreq : decodeLine line = .ok req)
    (hwrite : r.conn.writeAll (encodeRequest req) = (some true, conn))
    (hread : conn.readLine = (some rawRes, r'.conn))
    (hres : decodeResponseLine rawRes = .ok (.ok res))
    (hplace : r'.place = if req.command = .EXIT then .returned 0 else .prompt)
    (hcout : r'.cout = r.cout ++ ("tinykv>> " : Bytes) ++ printed res)

/-- **A round** of the loop. The response can be decoded or not, but the decoder does not throw. -/
theorem exists_round {r : Repl} (hplace : r.place = .prompt) : ∃ r', Round r r' ∧ r.run = r'.run := by
  rw [run_prompt hplace]
  have hasked := r.asked
  generalize r.ask = asked at hasked
  cases hasked with
  | eof hline =>
    refine ⟨_, ?_, rfl⟩
    exact .eof hline rfl rfl rfl
  | empty hline =>
    refine ⟨_, ?_, rfl⟩
    exact .skip hline decodeLine_nil hplace rfl rfl
  | invalid hline hne hreq =>
    refine ⟨_, ?_, rfl⟩
    exact .skip hline hreq hplace rfl rfl
  | killed hline hne hreq hwrite =>
    refine ⟨_, ?_, rfl⟩
    exact .killed hline hreq hwrite rfl
  | unsent hline hne hreq hwrite =>
    refine ⟨_, ?_, rfl⟩
    exact .unsent hline hreq hwrite rfl
  | @sent line cin req conn hline hne hreq hwrite =>
    rw [run_waiting rfl]
    refine ⟨_, ?_, rfl⟩
    generalize hw : ({ r with conn := _, cin := _, cout := _, place := _ } : Repl) = w
    have hheard := w.heard req
    generalize w.hear req = heard at hheard
    subst hw
    cases hheard with
    | disconnected hread => exact .unanswered hline hreq hwrite hread nofun rfl rfl
    | threw hread hres =>
      obtain ⟨res, hok⟩ := decodeResponseLine_returns _
      rw [hok] at hres
      cases hres
    | garbled hread hres =>
      refine .unanswered hline hreq hwrite hread (fun raw hraw res hok => ?_) rfl rfl
      cases hraw
      rw [hok] at hres
      cases hres
    | response hread hres => exact .answered hline hreq hwrite hread hres rfl rfl

/-- The end of a run: `runRepl` has returned, or `SIGPIPE` has ended the process. -/
def Over (r : Repl) (conn : FdConnection) : Prop :=
  (r.place = .returned 0 ∨ r.place = .returned 1) ∨ r.place = .killed ∧ conn.RaisesSigpipe

theorem run_returns {r : Repl} (hplace : r.place = .prompt) :
    r.run.Over r.conn ∧
      ∃ sent, r.run.conn.sent = r.conn.sent ++ sent ∧ sent <+: (asks r.cin).flatMap encodeRequest := by
  -- on the length of the input that is left
  induction hn : r.cin.length using Nat.strong_induction_on generalizing r with
  | _ n ih =>
  subst hn
  obtain ⟨r', hround, hrun⟩ := exists_round hplace
  have hstopped : ∀ code, r'.place = .returned code → r.run = r' := fun code hr => by
    rw [hrun, run_stopped (by simp [stopped, hr])]
  rw [hrun]
  cases hround with
  | eof hline hplace' hconn =>
    rw [← hrun, hstopped 0 hplace', hconn]
    exact ⟨.inl (.inl hplace'), [], (List.append_nil _).symm, List.nil_prefix⟩
  | skip hline hreq hplace' hconn =>
    rw [asks_invalid hline hreq, ← hconn]
    exact ih _ (length_getline hline) hplace' rfl
  | killed hline hreq hwrite hplace' =>
    have hwrote := writeAll_any hwrite
    obtain ⟨taken, hsent, hpre, -⟩ := hwrote.sent
    rw [run_stopped (by simp [stopped, hplace']), asks_request hline hreq]
    exact ⟨.inr ⟨hplace', hwrote.killed rfl⟩, taken, hsent, hpre.trans (List.prefix_append _ _)⟩
  | unsent hline hreq hwrite hplace' =>
    obtain ⟨taken, hsent, hpre, -⟩ := (writeAll_any hwrite).sent
    rw [← hrun, hstopped 1 hplace', asks_request hline hreq]
    exact ⟨.inl (.inr hplace'), taken, hsent, hpre.trans (List.prefix_append _ _)⟩
  | unanswered hline hreq hwrite hread hres hplace' =>
    obtain ⟨taken, hsent, hpre, -⟩ := (writeAll_any hwrite).sent
    rw [← hrun, hstopped 1 hplace', asks_request hline hreq, (sent_readLine hread).1]
    exact ⟨.inl (.inr hplace'), taken, hsent, hpre.trans (List.prefix_append _ _)⟩
  | @answered line req conn rawRes res hline hreq hwrite hread hres hplace' =>
    have hwrote := writeAll_any hwrite
    obtain ⟨hsame, hback⟩ := sent_readLine hread
    obtain ⟨taken, hsent, -, hall⟩ := hwrote.sent
    obtain rfl := hall rfl
    rw [← hsame] at hsent
    rw [asks_request hline hreq]
    split at hplace' <;> rename_i hexit
    · rw [← hrun, hstopped 0 hplace']
      exact ⟨.inl (.inl hplace'), _, hsent, List.prefix_append _ _⟩
    · obtain ⟨hover, sent, hmore, hpre⟩ := ih _ (length_getline hline) hplace' rfl
      refine ⟨hover.imp_right fun hkilled => ⟨hkilled.1, hwrote.later (hback hkilled.2)⟩,
        encodeRequest req ++ sent, ?_, ?_⟩
      · rw [hmore, hsent, List.append_assoc]
      · rw [if_neg hexit]
        exact (List.prefix_append_right_inj _).2 hpre

/-! ## A connection without failures -/

theorem terminated_readLine {c c' : FdConnection} (hc : c.Healthy) {raw : Option Bytes}
    (h : c.readLine = (raw, c')) :
    (raw = none → Lines.terminated newLine c.pending = []) ∧
      ∀ line, raw = some line → c'.Healthy ∧
        Lines.terminated newLine c.pending = line :: Lines.terminated newLine c'.pending := by
  by_cases hmem : newLine ∈ c.pending
  · obtain ⟨line, rest, hs, hline⟩ := List.eq_append_cons_of_mem hmem
    obtain ⟨c'', hrun, hrest, hc', -⟩ := readLine_append hc hline hs
    rw [h] at hrun
    cases hrun
    refine ⟨nofun, fun line' hraw => ?_⟩
    cases hraw
    rw [hs, Lines.terminated_append_cons hline, hrest]
    exact ⟨hc', rfl⟩
  · obtain ⟨c'', hrun, -⟩ := readLine_of_not_mem hc hmem
    rw [h] at hrun
    cases hrun
    exact ⟨fun _ => Lines.terminated_of_not_mem hmem, nofun⟩

theorem run_talks {r : Repl} (hplace : r.place = .prompt) (hconn : r.conn.Healthy)
    {answers : List Response}
    (hanswers : answersOf (Lines.terminated newLine r.conn.pending) = answers) :
    r.run.place = .returned (if (asks r.cin).length ≤ answers.length then 0 else 1) ∧
      r.run.conn.sent =
        r.conn.sent ++ ((asks r.cin).take (answers.length + 1)).flatMap encodeRequest ∧
      r.run.cout = r.cout ++ transcript r.cin answers := by
  induction hn : r.cin.length using Nat.strong_induction_on generalizing r answers with
  | _ n ih =>
  subst hn
  obtain ⟨r', hround, hrun⟩ := exists_round hplace
  have hstopped : ∀ code, r'.place = .returned code → r'.run = r' := fun code hr =>
    run_stopped (by simp [stopped, hr])
  rw [hrun]
  cases hround with
  | eof hline hplace' hsame hcout =>
    rw [hstopped 0 hplace', asks_eof hline, transcript_eof hline, hsame, hcout]
    exact ⟨hplace', (List.append_nil _).symm, List.append_assoc ..⟩
  | skip hline hreq hplace' hsame hcout =>
    have := ih _ (length_getline hline) hplace' (hsame ▸ hconn) (hsame ▸ hanswers) rfl
    rw [asks_invalid hline hreq, transcript_line hline, hreq]
    rwa [hsame, hcout, List.append_assoc] at this
  | killed hline hreq hwrite hplace' | unsent hline hreq hwrite hplace' =>
    obtain ⟨conn', hwrite', -⟩ := writeAll_sent hconn (encodeRequest _)
    rw [hwrite] at hwrite'
    cases hwrite'
  | @unanswered line req conn rawRes hline hreq hwrite hread hres hplace' hcout =>
    obtain ⟨conn', hwrite', hsent, hconn', hpending⟩ := writeAll_sent hconn (encodeRequest req)
    rw [hwrite] at hwrite'
    cases hwrite'
    -- so there is no response on the stream
    obtain ⟨hnone, hsome⟩ := terminated_readLine hconn' hread
    have hnil : answers = [] := by
      rw [← hanswers, ← hpending]
      cases rawRes with
      | none => rw [hnone rfl, answersOf]
      | some raw =>
        rw [(hsome raw rfl).2, answersOf]
        obtain ⟨res, hok⟩ := decodeResponseLine_returns raw
        cases res with
        | error responseParseErr => rw [hok]
        | ok res => exact absurd hok (hres raw rfl res)
    subst hnil
    rw [hstopped 1 hplace', asks_request hline hreq, transcript_line hline, hreq,
      (sent_readLine hread).1, hsent, hcout]
    exact ⟨by simp [hplace'], by simp, by simp⟩
  | @answered line req conn rawRes res hline hreq hwrite hread hres hplace' hcout =>
    obtain ⟨conn', hwrite', hsent, hconn', hpending⟩ := writeAll_sent hconn (encodeRequest req)
    rw [hwrite] at hwrite'
    cases hwrite'
    obtain ⟨-, hsome⟩ := terminated_readLine hconn' hread
    obtain ⟨hhealthy, hlines⟩ := hsome rawRes rfl
    have hcons : answers = res :: answersOf (Lines.terminated newLine r'.conn.pending) := by
      rw [← hanswers, ← hpending, hlines, answersOf, hres]
    rw [← (sent_readLine hread).1] at hsent
    subst hcons
    rw [asks_request hline hreq, transcript_line hline, hreq]
    split at hplace' <;> rename_i hexit
    · rw [hstopped 0 hplace', hsent, hcout, if_pos hexit]
      exact ⟨by simp [hplace'], by simp, by simp [hexit]⟩
    · obtain ⟨hret, hmore, hprint⟩ := ih _ (length_getline hline) hplace' hhealthy rfl rfl
      rw [hret, hmore, hprint, hsent, hcout, if_neg hexit]
      exact ⟨by simp, by simp, by simp [hexit]⟩

end Repl

/-! ## Every run -/

/-- **A client on any server returns**, 0 or 1, whatever bytes come back, in whatever parts, and
whichever calls on the socket fail. It does not throw. Only a `send` to a peer that has closed ends
the process before that. What it has sent are the requests of its input up to the first `EXIT`, or
the first bytes of that. -/
theorem runRepl_returns (conn : FdConnection) (cin : Bytes) :
    (((runRepl conn cin).place = .returned 0 ∨ (runRepl conn cin).place = .returned 1) ∨
        (runRepl conn cin).place = .killed ∧ conn.RaisesSigpipe) ∧
      ∃ sent, (runRepl conn cin).conn.sent = conn.sent ++ sent ∧
        sent <+: (asks cin).flatMap encodeRequest :=
  Repl.run_returns rfl

/-- **A client goes by the lines of the stream.** If no call on the socket fails, the parts in which
the bytes come back do not matter, only their lines, up to the first that is no response. The client
returns 0 exactly if these are enough for all its requests. It sends one request more than it has got
responses for, if it has one more, and it prints a response for each request, in order. -/
theorem runRepl_talks {conn : FdConnection} (hconn : conn.Healthy) (cin : Bytes) :
    let answers := answersOf (Lines.terminated newLine conn.pending)
    (runRepl conn cin).place = .returned (if (asks cin).length ≤ answers.length then 0 else 1) ∧
      (runRepl conn cin).conn.sent =
        conn.sent ++ ((asks cin).take (answers.length + 1)).flatMap encodeRequest ∧
      (runRepl conn cin).cout = transcript cin answers :=
  Repl.run_talks rfl hconn rfl

/-- A response in two parts, and then a line that is none. -/
def garbledServer : FdConnection :=
  { recvs := ["status=OK mess", "age=2:OK data=1:1\nHTTP/1.1 400 Bad Request\n"] }

theorem runRepl_talks_garbled :
    (runRepl garbledServer "get a\n\nget b\nEXIT\n").place = .returned 1 ∧
      (runRepl garbledServer "get a\n\nget b\nEXIT\n").conn.sent = "GET a\nGET b\n" ∧
      (runRepl garbledServer "get a\n\nget b\nEXIT\n").cout = "tinykv>> 1\ntinykv>> tinykv>> " := by
  have hconn : garbledServer.Healthy := ⟨by decide, fun _ => (by decide : 0 < 1024)⟩
  have hanswers : answersOf (Lines.terminated newLine garbledServer.pending) =
      [⟨true, "OK", some (ofString "1")⟩] := by decide +kernel
  have h1 : getline "get a\n\nget b\nEXIT\n" = some (ofString "get a", ofString "\nget b\nEXIT\n") := by
    decide +kernel
  have h2 : getline "\nget b\nEXIT\n" = some ([], ofString "get b\nEXIT\n") := by decide +kernel
  have h3 : getline "get b\nEXIT\n" = some (ofString "get b", ofString "EXIT\n") := by decide +kernel
  have h4 : getline "EXIT\n" = some (ofString "EXIT", []) := by decide +kernel
  have hasks : asks "get a\n\nget b\nEXIT\n" =
      [⟨.GET, [ofString "a"]⟩, ⟨.GET, [ofString "b"]⟩, ⟨.EXIT, []⟩] := by
    rw [asks_line h1, asks_line h2, asks_line h3, asks_line h4]
    rfl
  have h := runRepl_talks hconn "get a\n\nget b\nEXIT\n"
  simp only [hanswers, hasks] at h
  obtain ⟨hplace, hsent, hcout⟩ := h
  have hget : decodeLine "get a" = .ok ⟨.GET, [ofString "a"]⟩ := rfl
  refine ⟨hplace, hsent.trans (by decide +kernel), hcout.trans ?_⟩
  rw [transcript_line h1, hget]
  dsimp only
  rw [transcript_line h2, decodeLine_nil]
  dsimp only
  rw [transcript_line h3]
  rfl

end TinyKv
