import TinyKv.Api.Codec
import TinyKv.Net.FdConnection

/-!
# The client

`cli/repl.cpp`. A round of the loop of `runRepl` has two halves, between which the client waits:
`ask` prompts, reads a line of `std::cin` and sends its request; `hear` reads the response and prints
it. A line that is empty or no request takes no second half.

`std::cout` and `std::cerr` are what has been written to them.
-/

namespace TinyKv

open Bytes protocol

/-- `std::getline` on `std::cin`: the line, and what stands behind its line feed. The last line need
not have one. -/
def getline : Bytes → Option (Bytes × Bytes)
  | [] => none
  | cin => some (cin.takeWhile (· != 10), (cin.dropWhile (· != 10)).drop 1)

theorem length_getline {cin line rest : Bytes} (h : getline cin = some (line, rest)) :
    rest.length < cin.length := by
  unfold getline at h
  split at h
  · cases h
  · rename_i hne
    cases h
    have hle := (List.dropWhile_sublist (fun b : UInt8 => b != 10) (l := cin)).length_le
    have hpos : 0 < cin.length := List.length_pos_iff.2 hne
    rw [List.length_drop]
    omega

/-- Where `runRepl` stands: at its prompt, in front of the response to a request, or behind its
`return`; an exception leaves it too, and `SIGPIPE` ends the process. -/
inductive Place where
  | prompt
  | waiting (req : Request)
  | returned (code : Nat)
  | threw (f : Fault)
  | killed
  deriving DecidableEq

/-- `runRepl` in the middle of its loop. -/
structure Repl where
  conn : FdConnection
  cin : Bytes
  cout : Bytes := []
  cerr : Bytes := []
  place : Place := .prompt

/-- What a response is printed as. -/
def printed (res : Response) : Bytes :=
  if res.ok then
    match res.data with
    | some data => data ++ ("\n" : Bytes)
    | none => "OK\n"
  else ("ERR: " : Bytes) ++ res.message ++ ("\n" : Bytes)

namespace Repl

/-- The round up to `conn.writeAll`. -/
def ask (r : Repl) : Repl :=
  let r := { r with cout := r.cout ++ ("tinykv>> " : Bytes) }
  match getline r.cin with
  | none => { r with cout := r.cout ++ ("\n" : Bytes), place := .returned 0 }
  | some (line, cin) =>
    let r := { r with cin := cin }
    if line = [] then r
    else
      match decodeLine line with
      | .error parseErr => { r with cerr := r.cerr ++ ("ERR: " : Bytes) ++ parseErr ++ ("\n" : Bytes) }
      | .ok req =>
        match r.conn.writeAll (encodeRequest req) with
        | (none, conn) => { r with conn := conn, place := .killed }
        | (some false, conn) =>
          { r with
            conn := conn
            cerr := r.cerr ++ ("ERR: failed to send request to server\n" : Bytes)
            place := .returned 1 }
        | (some true, conn) => { r with conn := conn, place := .waiting req }

/-- The round from `conn.readLine` on. -/
def hear (r : Repl) (req : Request) : Repl :=
  match r.conn.readLine with
  | (none, conn) =>
    { r with
      conn := conn
      cerr := r.cerr ++ ("ERR: Server disconnected\n" : Bytes)
      place := .returned 1 }
  | (some rawRes, conn) =>
    let r := { r with conn := conn }
    match decodeResponseLine rawRes with
    | .error f => { r with place := .threw f }
    | .ok (.error responseParseErr) =>
      { r with
        cerr := r.cerr ++ ("ERR: failed to decode server response: " : Bytes) ++ responseParseErr ++
          ("\n" : Bytes)
        place := .returned 1 }
    | .ok (.ok res) =>
      { r with
        cout := r.cout ++ printed res
        place := if req.command = .EXIT then .returned 0 else .prompt }

/-- What `ask` can come to. -/
inductive Asked (r : Repl) : Repl → Prop where
  | eof (hline : getline r.cin = none) :
    Asked r { r with
      cout := r.cout ++ ("tinykv>> " : Bytes) ++ ("\n" : Bytes)
      place := .returned 0 }
  | empty {cin : Bytes} (hline : getline r.cin = some ([], cin)) :
    Asked r { r with cin := cin, cout := r.cout ++ ("tinykv>> " : Bytes) }
  | invalid {line cin parseErr : Bytes} (hline : getline r.cin = some (line, cin)) (hne : line ≠ [])
      (hreq : decodeLine line = .error parseErr) :
    Asked r { r with
      cin := cin
      cout := r.cout ++ ("tinykv>> " : Bytes)
      cerr := r.cerr ++ ("ERR: " : Bytes) ++ parseErr ++ ("\n" : Bytes) }
  | killed {line cin : Bytes} {req : Request} {conn : FdConnection}
      (hline : getline r.cin = some (line, cin)) (hne : line ≠ []) (hreq : decodeLine line = .ok req)
      (hwrite : r.conn.writeAll (encodeRequest req) = (none, conn)) :
    Asked r { r with
      conn := conn
      cin := cin
      cout := r.cout ++ ("tinykv>> " : Bytes)
      place := .killed }
  | unsent {line cin : Bytes} {req : Request} {conn : FdConnection}
      (hline : getline r.cin = some (line, cin)) (hne : line ≠ []) (hreq : decodeLine line = .ok req)
      (hwrite : r.conn.writeAll (encodeRequest req) = (some false, conn)) :
    Asked r { r with
      conn := conn
      cin := cin
      cout := r.cout ++ ("tinykv>> " : Bytes)
      cerr := r.cerr ++ ("ERR: failed to send request to server\n" : Bytes)
      place := .returned 1 }
  | sent {line cin : Bytes} {req : Request} {conn : FdConnection}
      (hline : getline r.cin = some (line, cin)) (hne : line ≠ []) (hreq : decodeLine line = .ok req)
      (hwrite : r.conn.writeAll (encodeRequest req) = (some true, conn)) :
    Asked r { r with
      conn := conn
      cin := cin
      cout := r.cout ++ ("tinykv>> " : Bytes)
      place := .waiting req }

theorem asked (r : Repl) : Asked r r.ask := by
  unfold ask
  cases hline : getline r.cin with
  | none => simpa only [hline] using Asked.eof hline
  | some x =>
    obtain ⟨line, cin⟩ := x
    simp only [hline]
    by_cases hne : line = []
    · subst hne
      simpa only [↓reduceIte] using Asked.empty hline
    · rw [if_neg hne]
      cases hreq : decodeLine line with
      | error parseErr => exact .invalid hline hne hreq
      | ok req =>
        dsimp only
        cases hwrite : r.conn.writeAll (encodeRequest req) with
        | mk written conn =>
          match written with
          | none => exact .killed hline hne hreq hwrite
          | some false => exact .unsent hline hne hreq hwrite
          | some true => exact .sent hline hne hreq hwrite

/-- What `hear` can come to. -/
inductive Heard (r : Repl) (req : Request) : Repl → Prop where
  | disconnected {conn : FdConnection} (hread : r.conn.readLine = (none, conn)) :
    Heard r req { r with
      conn := conn
      cerr := r.cerr ++ ("ERR: Server disconnected\n" : Bytes)
      place := .returned 1 }
  | threw {rawRes : Bytes} {conn : FdConnection} {f : Fault}
      (hread : r.conn.readLine = (some rawRes, conn)) (hres : decodeResponseLine rawRes = .error f) :
    Heard r req { r with conn := conn, place := .threw f }
  | garbled {rawRes responseParseErr : Bytes} {conn : FdConnection}
      (hread : r.conn.readLine = (some rawRes, conn))
      (hres : decodeResponseLine rawRes = .ok (.error responseParseErr)) :
    Heard r req { r with
      conn := conn
      cerr := r.cerr ++ ("ERR: failed to decode server response: " : Bytes) ++ responseParseErr ++
        ("\n" : Bytes)
      place := .returned 1 }
  | response {rawRes : Bytes} {conn : FdConnection} {res : Response}
      (hread : r.conn.readLine = (some rawRes, conn))
      (hres : decodeResponseLine rawRes = .ok (.ok res)) :
    Heard r req { r with
      conn := conn
      cout := r.cout ++ printed res
      place := if req.command = .EXIT then .returned 0 else .prompt }

theorem heard (r : Repl) (req : Request) : Heard r req (r.hear req) := by
  unfold hear
  cases hread : r.conn.readLine with
  | mk rawRes conn =>
    cases rawRes with
    | none => exact .disconnected hread
    | some rawRes =>
      dsimp only
      cases hres : decodeResponseLine rawRes with
      | error f => exact .threw hread hres
      | ok res =>
        cases res with
        | error responseParseErr => exact .garbled hread hres
        | ok res => exact .response hread hres

/-- The next half of a round. -/
def step (r : Repl) : Repl :=
  match r.place with
  | .prompt => r.ask
  | .waiting req => r.hear req
  | .returned _ | .threw _ | .killed => r

/-- The loop has been left. -/
def stopped (r : Repl) : Bool :=
  match r.place with
  | .prompt | .waiting _ => false
  | .returned _ | .threw _ | .killed => true

/-- The halves of rounds that are left at most. -/
def halves (r : Repl) : Nat :=
  2 * r.cin.length +
    match r.place with
    | .prompt => 1
    | .waiting _ => 2
    | .returned _ | .threw _ | .killed => 0

theorem Asked.halves_lt {r r' : Repl} (h : Asked r r') (hplace : r.place = .prompt) :
    r'.halves < r.halves := by
  have hr : r.halves = 2 * r.cin.length + 1 := by rw [halves, hplace]
  rw [hr]
  cases h with
  | eof hline => simp [halves]
  | empty hline | invalid hline | killed hline | unsent hline | sent hline =>
    have := length_getline hline
    simp only [halves, hplace]
    omega

theorem Heard.halves_lt {r r' : Repl} {req : Request} (h : Heard r req r')
    (hplace : r.place = .waiting req) : r'.halves < r.halves := by
  have hr : r.halves = 2 * r.cin.length + 2 := by rw [halves, hplace]
  rw [hr]
  cases h with
  | disconnected | threw | garbled => simp [halves]
  | response => by_cases hexit : req.command = .EXIT <;> simp [halves, hexit]

theorem halves_step {r : Repl} (h : r.stopped = false) : r.step.halves < r.halves := by
  unfold step
  cases hplace : r.place with
  | prompt => exact r.asked.halves_lt hplace
  | waiting req => exact (r.heard req).halves_lt hplace
  | returned code => simp [stopped, hplace] at h
  | threw f => simp [stopped, hplace] at h
  | killed => simp [stopped, hplace] at h

/-- The loop of `runRepl`. -/
def run (r : Repl) : Repl := if _h : r.stopped then r else r.step.run
termination_by r.halves
decreasing_by exact halves_step (by simpa using _h)

end Repl

/-- `runRepl` on a new connection. -/
def runRepl (conn : FdConnection) (cin : Bytes) : Repl := ({ conn := conn, cin := cin } : Repl).run

end TinyKv
