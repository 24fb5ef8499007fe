import TinyKv.Cli.Repl
import TinyKv.Net.Session

/-!
# Clients and their server

Any number of clients on one server. Each client has a session of its own and two streams of bytes
on the way, one in each direction. An `Action` is a step of one party: a client goes on, a session
takes a turn, or the next bytes of a stream arrive, as many as the network pleases. A party that
would have to wait in `recv` does not move. A turn is one step: two sessions that are in the database
at the same time, which no lock of the source excludes, are not modelled.

An exception in a session is the end of the server process (`crashed`), and so is a signal. Its
sessions take no turns any more, and the clients find their connections closed; what was on its way
to them may still arrive.
-/

namespace TinyKv

open Bytes protocol FdConnection

variable {σ : Type} [StorageManager σ]

/-- A client, its session and the bytes on the way between them. -/
structure Link where
  repl : Repl
  session : Session
  up : Bytes := []
  down : Bytes := []

namespace Link

/-- The client does not have to wait: it prompts, it has a whole line, or its connection has been
closed. -/
def canStep (l : Link) (crashed : Bool) : Bool :=
  match l.repl.place with
  | .prompt => true
  | .waiting _ =>
    decide (newLine ∈ l.repl.conn.pending) || crashed || (!l.session.running && l.down.isEmpty)
  | .returned _ | .threw _ | .killed => false

/-- The client goes on; what it sends is on its way. -/
def step (l : Link) : Link :=
  { l with repl := l.repl.step, up := l.up ++ l.repl.step.conn.sent.drop l.repl.conn.sent.length }

/-- The session does not have to wait: it has a whole line, or its connection has been closed. -/
def canTurn (l : Link) : Bool :=
  l.session.running && (decide (newLine ∈ l.session.conn_.pending) || (l.repl.stopped && l.up.isEmpty))

/-- A turn of the session; what it sends is on its way. -/
def turn (l : Link) (env : Env) (x : DbImpl σ × FileSystem) : Turn × Link × DbImpl σ × FileSystem :=
  match l.session.turn env x with
  | (t, session, x) =>
    (t, { l with
      session := session
      down := l.down ++ session.conn_.sent.drop l.session.conn_.sent.length }, x)

/-- At most `n + 1` bytes arrive at the server. -/
def arriveUp (l : Link) (n : Nat) : Link :=
  if l.up = [] then l
  else
    { l with
      session.conn_.recvs := l.session.conn_.recvs ++ [l.up.take (n + 1)]
      up := l.up.drop (n + 1) }

/-- At most `n + 1` bytes arrive at the client. -/
def arriveDown (l : Link) (n : Nat) : Link :=
  if l.down = [] then l
  else
    { l with
      repl.conn.recvs := l.repl.conn.recvs ++ [l.down.take (n + 1)]
      down := l.down.drop (n + 1) }

end Link

/-- A step of the client `i`, of its session, or of the network between them. -/
inductive Action where
  | client (i : Nat)
  | turn (i : Nat) (env : Env)
  | up (i n : Nat)
  | down (i n : Nat)

structure System (σ : Type) where
  links : Nat → Link
  db : DbImpl σ × FileSystem
  crashed : Bool := false

namespace System

def setLink (s : System σ) (i : Nat) (l : Link) : System σ :=
  { s with links := Function.update s.links i l }

/-- The turn of the session `i`, which may be the end of the process. -/
def turn (s : System σ) (i : Nat) (env : Env) : Turn × System σ :=
  match (s.links i).turn env s.db with
  | (t, l, x) => (t, { (s.setLink i l) with db := x, crashed := t.crashes })

/-- The state after an action. -/
def next (s : System σ) : Action → System σ
  | .client i => if (s.links i).canStep s.crashed then s.setLink i (s.links i).step else s
  | .turn i env => if !s.crashed && (s.links i).canTurn then (s.turn i env).2 else s
  | .up i n => s.setLink i ((s.links i).arriveUp n)
  | .down i n => s.setLink i ((s.links i).arriveDown n)

/-- The next line of `std::cin` is a request. -/
def asksNext (cin : Bytes) : Bool :=
  match getline cin with
  | none => false
  | some (line, _) => (decodeLine line).isOk

/-- The round that an action brings into effect: that of a request when it is answered by its
session, that of another line, or of none, when the client reads it. -/
def effect (s : System σ) : Action → Option (Nat × Env)
  | .client i =>
    if (s.links i).repl.place = .prompt ∧ asksNext (s.links i).repl.cin = false then some (i, {})
    else none
  | .turn i env =>
    if !s.crashed && (s.links i).canTurn then
      match (s.turn i env).1 with
      | .answered _ _ => some (i, env)
      | .ended | .threw _ | .killed => none
    else none
  | .up _ _ | .down _ _ => none

/-- The machine that takes actions. -/
def step (s : System σ) (a : Action) : Option (Nat × Env) × System σ := (s.effect a, s.next a)

/-- A server on empty directories and clients that have just connected; `sends` and `sends'` are
what the calls of `send` take on either side. -/
def start (config : DbFactoryConfig) (cin : Nat → Bytes) (sends sends' : Nat → Nat → Nat) :
    System StorageManagerImpl where
  links i := { repl := { conn := { sends := sends i }, cin := cin i },
               session := { conn_ := { sends := sends' i } } }
  db := (createDbWithConfig config, FileSystem.empty)

end System

end TinyKv
