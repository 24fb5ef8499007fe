import TinyKv.Net.Proof.FdConnection
import TinyKv.Net.Proof.LineFree

/-!
# One response per request, in order

Sessions read lines from their connections, serve them on one database and write a response line
each. `Conversation` is what holds between two turns of one session: the requests of its stream are
those answered and those still to come, and what it has sent is the response lines of those answered.
`Server.after_run` carries it through every schedule of turns, together with the database: its state
is that of the answered lines served one after the other.

`responses_in_order` reads the responses back on the side of the client. A block-based database must
not draw a name twice: a line feed that no client has sent may come out of a file that is not the
reader's own (`responses_in_order_same_name`).
-/

namespace TinyKv

open Bytes protocol FdConnection

/-! ## Requests -/

/-- The lines up to the first that ends the session. -/
def upToExit : List Bytes → List Bytes
  | [] => []
  | line :: lines => if isExit line then [line] else line :: upToExit lines

/-- The request lines of a stream. -/
def requestLines (stream : Bytes) : List Bytes := upToExit (Lines.terminated newLine stream)

theorem requestLines_of_not_mem {stream : Bytes} (h : newLine ∉ stream) :
    requestLines stream = [] := by
  rw [requestLines, Lines.terminated_of_not_mem h]
  rfl

theorem requestLines_append_cons {line : Bytes} (h : newLine ∉ line) (rest : Bytes) :
    requestLines (line ++ newLine :: rest) =
      line :: if isExit line then [] else requestLines rest := by
  rw [requestLines, Lines.terminated_append_cons h, upToExit]
  split <;> rfl

/-! ## One turn -/

/-- What a turn can do. -/
theorem Session.turn_cases (s : Session) (hs : s.running = true → s.conn_.Healthy) (env : Env)
    (x : DbImpl StorageManagerImpl × FileSystem) :
    (s.running = false ∧ s.turn env x = (.ended, s, x)) ∨
    (s.running = true ∧ newLine ∉ s.conn_.pending ∧ ∃ c, c.sent = s.conn_.sent ∧
      s.turn env x = (.ended, ⟨c, false⟩, x)) ∨
    (s.running = true ∧ ∃ line rest, newLine ∉ line ∧ s.conn_.pending = line ++ newLine :: rest ∧
      ((∃ f x', serveLine x (line, env) = (.error f, x') ∧ (s.turn env x).1 = .threw f) ∨
        ∃ res x' c, serveLine x (line, env) = (.ok res, x') ∧ c.Healthy ∧ c.pending = rest ∧
          c.sent = s.conn_.sent ++ encodeResponse res ∧
          s.turn env x = (.answered (line, env) res, ⟨c, !isExit line⟩, x'))) := by
  unfold turn
  cases hrun : s.running with
  | false => exact .inl ⟨rfl, rfl⟩
  | true =>
    have hc := hs hrun
    rw [if_neg (by simp)]
    by_cases hmem : newLine ∈ s.conn_.pending
    · obtain ⟨line, rest, hpending, hline⟩ := List.eq_append_cons_of_mem hmem
      obtain ⟨c, hread, hrest, hc', hsent⟩ := readLine_append hc hline hpending
      refine .inr (.inr ⟨rfl, line, rest, hline, hpending, ?_⟩)
      simp only [hread]
      cases hserve : serveLine x (line, env) with
      | mk res x' =>
        cases res with
        | error f => exact .inl ⟨f, x', rfl, rfl⟩
        | ok res =>
          obtain ⟨c', hwrite, hsent', hc'', hpending'⟩ := writeAll_sent hc' (encodeResponse res)
          simp only [hwrite]
          rw [hsent] at hsent'
          rw [hrest] at hpending'
          cases isExit line with
          | true =>
            exact .inr ⟨res, x', c'.close, rfl, ⟨hc''.recvs, hc''.sends⟩, hpending', hsent', rfl⟩
          | false => exact .inr ⟨res, x', c', rfl, hc'', hpending', hsent', rfl⟩
    · obtain ⟨c, hread, hsent⟩ := readLine_of_not_mem hc hmem
      exact .inr (.inl ⟨rfl, hmem, c.close, hsent, by simp only [hread]⟩)

theorem Session.turn_effects (s : Session) (env : Env) (x : DbImpl StorageManagerImpl × FileSystem) :
    x.2.effects <+: (s.turn env x).2.2.2.effects := by
  unfold turn
  split
  · exact List.prefix_refl _
  · split
    · exact List.prefix_refl _
    · rename_i line conn _
      have heff := serveLine_effects x (line, env)
      split <;> rename_i hserve <;> rw [hserve] at heff
      · exact heff
      · split
        · exact heff
        · split <;> exact heff

/-! ## Between two turns -/

/-- A request of a session and its response. -/
structure Exchange where
  session : Nat
  line : Bytes × Env
  res : Response

/-- What a turn has answered. -/
def exchangeOf : Nat × Turn → Option Exchange
  | (i, .answered line res) => some ⟨i, line, res⟩
  | _ => none

/-- The exchanges of a run, in the order of the turns. -/
def exchanges (turns : List (Nat × Turn)) : List Exchange := turns.filterMap exchangeOf

/-- Those of one session. -/
def exchangesOf (i : Nat) (turns : List (Nat × Turn)) : List Exchange :=
  (exchanges turns).filter fun x => x.session = i

/-- The session has answered the requests of its stream so far, with the responses it has sent. -/
structure Conversation (stream : Bytes) (s : Session) (turns : Nat) (xs : List Exchange) : Prop where
  healthy : s.running = true → s.conn_.Healthy
  running : s.running = true →
    requestLines stream = xs.map (·.line.1) ++ requestLines s.conn_.pending ∧ xs.length = turns
  ended : s.running = false → requestLines stream = xs.map (·.line.1)
  sent : s.conn_.sent = xs.flatMap fun x => encodeResponse x.res
  plain : ∀ x ∈ xs, x.res.Plain

theorem Conversation.start {recvs : List Bytes} {sends : Nat → Nat}
    (hr : ∀ chunk ∈ recvs, chunk ≠ []) (hs : ∀ k, 0 < sends k) :
    Conversation recvs.flatten ⟨{ recvs := recvs, sends := sends }, true⟩ 0 [] :=
  ⟨fun _ => ⟨hr, hs⟩, fun _ => ⟨rfl, rfl⟩, nofun, rfl, nofun⟩

section

variable {stream : Bytes} {s : Session} {turns : Nat} {xs : List Exchange}

theorem Conversation.idle (h : Conversation stream s turns xs) (hs : s.running = false) :
    Conversation stream s (turns + 1) xs :=
  ⟨h.healthy, fun hr => absurd (hr.symm.trans hs) (by simp), h.ended, h.sent, h.plain⟩

theorem Conversation.finish (h : Conversation stream s turns xs) (hs : s.running = true)
    (hmem : newLine ∉ s.conn_.pending) {c : FdConnection} (hsent : c.sent = s.conn_.sent) :
    Conversation stream ⟨c, false⟩ (turns + 1) xs := by
  refine ⟨nofun, nofun, fun _ => ?_, hsent.trans h.sent, h.plain⟩
  rw [(h.running hs).1, requestLines_of_not_mem hmem, List.append_nil]

/-- **The next request is answered.** -/
theorem Conversation.answer (h : Conversation stream s turns xs) (hs : s.running = true)
    {line rest : Bytes} (hline : newLine ∉ line) (hpending : s.conn_.pending = line ++ newLine :: rest)
    {x : Exchange} (hx : x.line.1 = line) (hplain : x.res.Plain) {c : FdConnection}
    (hc : c.Healthy) (hrest : c.pending = rest)
    (hsent : c.sent = s.conn_.sent ++ encodeResponse x.res) :
    Conversation stream ⟨c, !isExit line⟩ (turns + 1) (xs ++ [x]) := by
  obtain ⟨hlines, hlen⟩ := h.running hs
  rw [hpending, requestLines_append_cons hline] at hlines
  refine ⟨fun _ => hc, fun hr => ?_, fun hr => ?_, ?_, fun y hy => ?_⟩
  · have hexit : isExit line = false := by simpa using hr
    refine ⟨?_, by rw [List.length_append, hlen]; rfl⟩
    rw [hlines, hexit, hrest]
    simp [hx]
  · have hexit : isExit line = true := by simpa using hr
    rw [hlines, hexit]
    simp [hx]
  · rw [hsent, h.sent, List.flatMap_append]
    simp
  · rcases List.mem_append.1 hy with hy | hy
    · exact h.plain y hy
    · rw [List.mem_singleton.1 hy]
      exact hplain

theorem Conversation.mem_requestLines (h : Conversation stream s turns xs) (hs : s.running = true)
    {line rest : Bytes} (hline : newLine ∉ line)
    (hpending : s.conn_.pending = line ++ newLine :: rest) : line ∈ requestLines stream := by
  rw [(h.running hs).1, hpending, requestLines_append_cons hline]
  simp

end

/-! ## Every schedule -/

theorem exchanges_snoc (turns : List (Nat × Turn)) (t : Nat × Turn) :
    exchanges (turns ++ [t]) = exchanges turns ++ (exchangeOf t).toList := by
  rw [exchanges, List.filterMap_append]
  cases h : exchangeOf t <;> simp [exchanges, h]

theorem exchangesOf_snoc (i : Nat) (turns : List (Nat × Turn)) (t : Nat × Turn) :
    exchangesOf i (turns ++ [t]) =
      exchangesOf i turns ++ (exchangeOf t).toList.filter fun x => x.session = i := by
  rw [exchangesOf, exchanges_snoc, List.filter_append, exchangesOf]

/-- The state of the server after a schedule, and the turns that it took. -/
structure Server.After (config : DbFactoryConfig) (recvs : Nat → List Bytes)
    (schedule : List (Nat × Env)) (turns : List (Nat × Turn)) (s : Server StorageManagerImpl) :
    Prop where
  served : serveFresh config ((exchanges turns).map Exchange.line) =
    ((exchanges turns).map fun x => .ok x.res, s.db)
  holds : DbImpl.Holds Plain config s.db
  sessions : ∀ i, Conversation (recvs i).flatten (s.sessions i) (schedule.countP fun a => a.1 = i)
    (exchangesOf i turns)

namespace Server

variable {config : DbFactoryConfig} {recvs : Nat → List Bytes} {schedule : List (Nat × Env)}
  {turns : List (Nat × Turn)} {s : Server StorageManagerImpl} {a : Nat × Env}

theorem After.unanswered (h : After config recvs schedule turns s) {t : Turn} {session : Session}
    (ht : exchangeOf (a.1, t) = none)
    (hc : Conversation (recvs a.1).flatten session ((schedule.countP fun b => b.1 = a.1) + 1)
      (exchangesOf a.1 turns)) :
    After config recvs (schedule ++ [a]) (turns ++ [(a.1, t)])
      ⟨Function.update s.sessions a.1 session, s.db⟩ := by
  have hxs : exchanges (turns ++ [(a.1, t)]) = exchanges turns := by
    rw [exchanges_snoc, ht]
    simp
  refine ⟨by rw [hxs]; exact h.served, h.holds, fun i => ?_⟩
  rw [exchangesOf, hxs, ← exchangesOf, List.countP_append]
  by_cases hi : i = a.1
  · subst hi
    simpa [Function.update_self] using hc
  · have hne : a.1 ≠ i := fun he => hi he.symm
    simpa [Function.update_of_ne hi, hne] using h.sessions i

/-- **One turn** that does not throw. -/
theorem After.step (h : After config recvs schedule turns s)
    (hlen : ∀ i, ∀ line ∈ requestLines (recvs i).flatten, line.length < 2 ^ 64)
    (hthrow : ∀ f, (s.step a).1.2 ≠ .threw f) (hb : WithinBounds config (s.step a).2.db.2) :
    After config recvs (schedule ++ [a]) (turns ++ [(s.step a).1]) (s.step a).2 := by
  have hconv := h.sessions a.1
  obtain ⟨hr, hturn⟩ | ⟨hr, hmem, c, hsent, hturn⟩ | ⟨hr, line, rest, hline, hpending, hcase⟩ :=
    (s.sessions a.1).turn_cases hconv.healthy a.2 s.db
  · simp only [Server.step, hturn]
    exact h.unanswered rfl (hconv.idle hr)
  · simp only [Server.step, hturn]
    exact h.unanswered rfl (hconv.finish hr hmem hsent)
  · obtain ⟨f, x', -, hturn⟩ | ⟨res, x', c, hserve, hc, hrest, hsent, hturn⟩ := hcase
    · refine absurd ?_ (hthrow f)
      simp only [Server.step, hturn]
    · simp only [Server.step, hturn] at hb ⊢
      have hlen' := hlen a.1 line (hconv.mem_requestLines hr hline hpending)
      obtain ⟨hholds, hplain⟩ := serveLine_plain h.holds hlen' hb hserve
      have hxs := exchanges_snoc turns (a.1, Turn.answered (line, a.2) res)
      refine ⟨?_, hholds, fun i => ?_⟩
      · have hserved := h.served
        unfold serveFresh at hserved ⊢
        rw [hxs]
        simp only [exchangeOf, Option.toList_some, List.map_append, List.map_cons, List.map_nil]
        rw [Machine.run_snoc, hserved]
        simp only [hserve]
      · rw [exchangesOf_snoc, List.countP_append]
        by_cases hi : i = a.1
        · subst hi
          have := hconv.answer hr hline hpending (x := ⟨a.1, (line, a.2), res⟩) rfl hplain hc hrest
            hsent
          simpa [Function.update_self, exchangeOf] using this
        · have hne : a.1 ≠ i := fun he => hi he.symm
          simpa [Function.update_of_ne hi, hne, exchangeOf] using h.sessions i

theorem step_effects (s : Server StorageManagerImpl) (a : Nat × Env) :
    s.db.2.effects <+: (s.step a).2.db.2.effects :=
  (s.sessions a.1).turn_effects a.2 s.db

/-- **Every schedule** of turns of which none throws. -/
theorem after_run {sends : Nat → Nat → Nat} (hrecvs : ∀ i, ∀ chunk ∈ recvs i, chunk ≠ [])
    (hsends : ∀ i k, 0 < sends i k)
    (hlen : ∀ i, ∀ line ∈ requestLines (recvs i).flatten, line.length < 2 ^ 64)
    (hthrow : ∀ t ∈ (Machine.run step (start config recvs sends) schedule).1, ∀ f, t.2 ≠ .threw f)
    (hb : WithinBounds config (Machine.run step (start config recvs sends) schedule).2.db.2) :
    After config recvs schedule (Machine.run step (start config recvs sends) schedule).1
      (Machine.run step (start config recvs sends) schedule).2 := by
  induction schedule using List.reverseRecOn with
  | nil =>
    exact ⟨rfl, DbImpl.holds_createDbWithConfig Plain config,
      fun i => Conversation.start (hrecvs i) (hsends i)⟩
  | append_singleton schedule a ih =>
    rw [Machine.run_snoc] at hthrow hb ⊢
    have hpre := ih (fun t ht => hthrow t (List.mem_append_left _ ht))
      (hb.earlier (step_effects _ a))
    exact hpre.step hlen (hthrow _ (List.mem_append_right _ List.mem_cons_self)) hb

end Server

/-! ## The client -/

/-- The responses of a session, read back from any cut of what it has sent. -/
theorem Conversation.readBack {stream : Bytes} {s : Session} {turns : Nat} {xs : List Exchange}
    (h : Conversation stream s turns xs) {chunks : List Bytes} (hc : ∀ chunk ∈ chunks, chunk ≠ [])
    (hsent : chunks.flatten = s.conn_.sent) :
    ({ recvs := chunks } : FdConnection).readLines.map decodeResponseLine =
      xs.map fun x => .ok (.ok (protocol.readBack x.res)) := by
  have hhealthy : ({ recvs := chunks } : FdConnection).Healthy := ⟨hc, fun _ => (by decide : 0 < 1024)⟩
  have hpending : ({ recvs := chunks } : FdConnection).pending =
      (xs.map fun x => responseLine x.res).flatMap fun line => line ++ [newLine] := by
    show [] ++ chunks.flatten = _
    rw [List.nil_append, hsent, h.sent, List.flatMap_map]
    simp only [encodeResponse_eq]
    rfl
  have hfree : ∀ line ∈ xs.map fun x => responseLine x.res, newLine ∉ line := by
    intro line hline
    obtain ⟨x, hx, rfl⟩ := List.mem_map.1 hline
    exact newLine_not_mem_responseLine (h.plain x hx)
  rw [readLines_eq hhealthy, hpending, Lines.terminated_flatMap hfree, List.map_map]
  refine List.map_congr_left fun x hx => ?_
  have hplain := h.plain x hx
  have hdecode := decodeResponseLine_responseLine x.res hplain.message.2
    (fun data hd => (hplain.data data hd).2) (.inl rfl : ([] : Bytes) = [] ∨ _)
  rwa [List.append_nil] at hdecode

/-- **One response per request, in order.** Sessions on one new database, which does not draw a name
twice if it is block-based, whatever the chunks in which their requests arrive, the parts in which
their responses are sent and the order of their turns, up to the first exception:

* the responses are those of the answered lines, served one after the other;
* each session answers its request lines in order, up to the first `EXIT`, and all of them once it
  has left its loop, which it has after one turn more than it has requests;
* its client reads exactly these responses, in whatever chunks they arrive. -/
theorem responses_in_order {config : DbFactoryConfig} {recvs : Nat → List Bytes}
    {sends : Nat → Nat → Nat} {schedule : List (Nat × Env)}
    (hrecvs : ∀ i, ∀ chunk ∈ recvs i, chunk ≠ []) (hsends : ∀ i k, 0 < sends i k)
    (hlen : ∀ i, ∀ line ∈ requestLines (recvs i).flatten, line.length < 2 ^ 64)
    (hthrow : ∀ t ∈ (Machine.run Server.step (Server.start config recvs sends) schedule).1,
      ∀ f, t.2 ≠ .threw f)
    (hb : WithinBounds config
      (Machine.run Server.step (Server.start config recvs sends) schedule).2.db.2) :
    let run := Machine.run Server.step (Server.start config recvs sends) schedule
    (serveFresh config ((exchanges run.1).map Exchange.line)).1 =
      (exchanges run.1).map (fun x => .ok x.res) ∧
    ∀ i, let s := run.2.sessions i
      let xs := exchangesOf i run.1
      xs.map (·.line.1) <+: requestLines (recvs i).flatten ∧
      (s.running = false → xs.map (·.line.1) = requestLines (recvs i).flatten) ∧
      ((requestLines (recvs i).flatten).length < schedule.countP (fun a => a.1 = i) →
        s.running = false) ∧
      ∀ chunks : List Bytes, (∀ chunk ∈ chunks, chunk ≠ []) → chunks.flatten = s.conn_.sent →
        ({ recvs := chunks } : FdConnection).readLines.map decodeResponseLine =
          xs.map fun x => .ok (.ok (protocol.readBack x.res)) := by
  intro run
  have h := Server.after_run hrecvs hsends hlen hthrow hb
  refine ⟨by rw [h.served], fun i => ?_⟩
  intro s xs
  have hconv : Conversation (recvs i).flatten s _ xs := h.sessions i
  have hpre : xs.map (·.line.1) <+: requestLines (recvs i).flatten := by
    cases hr : s.running with
    | true =>
      rw [(hconv.running hr).1]
      exact List.prefix_append _ _
    | false => rw [hconv.ended hr]
  refine ⟨hpre, fun hr => (hconv.ended hr).symm, fun hmore => ?_, fun chunks hc hsent =>
    hconv.readBack hc hsent⟩
  cases hr : s.running with
  | false => rfl
  | true =>
    have hle := hpre.length_le
    rw [List.length_map, (hconv.running hr).2] at hle
    omega

theorem ne_threw_of_crashes {turns : List (Nat × Turn)} (h : turns.all (!·.2.crashes) = true) :
    ∀ t ∈ turns, ∀ f, t.2 ≠ .threw f := by
  intro t ht f hf
  have hquiet := List.all_eq_true.1 h t ht
  rw [hf] at hquiet
  cases hquiet

/-- Two clients: the requests of the first arrive in three chunks that split its lines, and the
socket takes five bytes at a time. -/
def twoClients : Nat → List Bytes
  | 0 => ["PU", "T a 1\nGE", "T a\nEXIT\nGET a\n"]
  | 1 => ["get a\n"]
  | _ => []

/-- The turns of the two, interleaved. -/
def twoClientsRun : List (Nat × Turn) × Server StorageManagerImpl :=
  Machine.run Server.step (Server.start {} twoClients fun _ _ => 5)
    [(0, {}), (1, {}), (0, {}), (0, {}), (1, {})]

theorem responses_in_order_two_clients :
    let sent := (twoClientsRun.2.sessions 0).conn_.sent
    -- read byte by byte
    ({ recvs := sent.map fun b => [b] } : FdConnection).readLines.map decodeResponseLine =
      [.ok (.ok ⟨true, "OK", none⟩), .ok (.ok ⟨true, "OK", some "1"⟩),
        .ok (.ok ⟨true, "Bye", none⟩)] ∧
    (exchangesOf 1 twoClientsRun.1).map (·.res) = [⟨true, "OK", some "1"⟩] := by
  intro sent
  have hrecvs : ∀ i, ∀ chunk ∈ twoClients i, chunk ≠ [] := by
    intro i
    match i with
    | 0 => decide
    | 1 => decide
    | i + 2 => exact nofun
  have hlen : ∀ i, ∀ line ∈ requestLines (twoClients i).flatten, line.length < 2 ^ 64 := by
    intro i
    match i with
    | 0 => decide +kernel
    | 1 => decide +kernel
    | i + 2 => exact nofun
  have hthrow := ne_threw_of_crashes (by decide +kernel : twoClientsRun.1.all (!·.2.crashes) = true)
  have hcut : (sent.map fun b => [b]).flatten = sent := by
    rw [← List.flatMap_def, List.flatMap_singleton']
  have h := ((responses_in_order hrecvs (fun _ _ => by decide) hlen hthrow nofun).2 0).2.2.2
    (sent.map fun b => [b]) (by simp) hcut
  refine ⟨h.trans ?_, by decide +kernel⟩
  show (exchangesOf 0 twoClientsRun.1).map _ = _
  decide +kernel

/-- One client: the eleventh value goes into a second data block, at the offset 114 of its file. -/
def sameName : Nat → List Bytes
  | 0 =>
    ["PUT h 1\nPUT i 1\nPUT j 1\nPUT k 1\nPUT l 1\nPUT m 1\nPUT n 1\nPUT o 1\nPUT x 1\nPUT y 1\n",
      "PUT z ", List.replicate 1000 120, List.replicate 1000 120, List.replicate 1000 120,
      List.replicate 1000 120, "\n_FLUSH\nPUT h ",
      -- at that offset of the second file: a number of entries, then an entry for `z`
      List.replicate 105 120, [0, 0, 0, 1, 122, 0, 0, 0, 15],
      "\nPUT oooooooooo 1\n_FLUSH\nGET z\n"]
  | _ => []

/-- The name that the second flush draws is that of the first. -/
def sameNameRun : List (Nat × Turn) × Server StorageManagerImpl :=
  Machine.run Server.step
    (Server.start { tableFormat := .BlockBased, memtableCapacity := 100 } sameName fun _ _ => 1024)
    (List.replicate 12 (0, ({} : Env)) ++
      List.replicate 4 (0, { ns := 0x1000000000001, nameCounter := 65536 }))

/-- **Where names repeat**, a reader looks into a file that is not its own: the value of `z` is the
length of a key, which holds a line feed. -/
theorem responses_in_order_same_name :
    let sent := (sameNameRun.2.sessions 0).conn_.sent
    let lines := ({ recvs := [sent] } : FdConnection).readLines
    (∀ t ∈ sameNameRun.1, ∀ f, t.2 ≠ .threw f) ∧
    (exchangesOf 0 sameNameRun.1).map (·.line.1) = requestLines (sameName 0).flatten ∧
    (requestLines (sameName 0).flatten).length = 16 ∧ lines.length = 17 ∧
    (lines.drop 15).map decodeResponseLine =
      [.ok (.error "payload shorter than declared length for field data="),
        .ok (.error "expected status field")] := by
  intro sent lines
  -- one evaluation of the run for all parts
  have hrun : sameNameRun.1.all (!·.2.crashes) = true ∧
      (exchangesOf 0 sameNameRun.1).map (·.line.1) = requestLines (sameName 0).flatten ∧
      (requestLines (sameName 0).flatten).length = 16 ∧ sent ≠ [] ∧
      (Lines.terminated newLine sent).length = 17 ∧
      ((Lines.terminated newLine sent).drop 15).map decodeResponseLine =
        [.ok (.error "payload shorter than declared length for field data="),
          .ok (.error "expected status field")] := by
    decide +kernel
  obtain ⟨hquiet, hanswered, hcount, hne, hlines, hlast⟩ := hrun
  have hread : lines = Lines.terminated newLine sent := by
    have hhealthy : ({ recvs := [sent] } : FdConnection).Healthy :=
      ⟨by simpa using hne, fun _ => (by decide : 0 < 1024)⟩
    rw [show lines = _ from readLines_eq hhealthy, pending, List.flatten_singleton, List.nil_append]
  refine ⟨ne_threw_of_crashes hquiet, hanswered, hcount, ?_, ?_⟩
  · rw [hread, hlines]
  · rw [hread, hlast]

end TinyKv
