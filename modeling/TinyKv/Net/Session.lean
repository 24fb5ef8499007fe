import TinyKv.Api.CommandHandler
import TinyKv.Net.FdConnection

/-!
# Sessions

`net/session.cpp`. A turn is one round of the loop of `Session::run`: a line is read, served and
answered. Sessions share the database; a `Server` takes the turn of one session at a time, which is
how requests of several clients interleave.
-/

namespace TinyKv

open Bytes protocol

variable {σ : Type} [StorageManager σ]

/-- The line asks for the end of the session. -/
def isExit (line : Bytes) : Bool :=
  match decodeLine line with
  | .ok req => req.command = .EXIT
  | .error _ => false

/-- `Session`; `running` until `run` has left its loop. -/
structure Session where
  conn_ : FdConnection
  running : Bool := true

/-- What a turn came to: the loop was left or had been, a line was answered, the exception of an
`execute` left `run`, or a `send` to a client that has gone ended the process. -/
inductive Turn where
  | ended
  | answered (line : Bytes × Env) (res : Response)
  | threw (f : Fault)
  | killed

/-- The turn is the end of the server process: nothing catches what leaves `run`. -/
def Turn.crashes : Turn → Bool
  | .ended | .answered _ _ => false
  | .threw _ | .killed => true

namespace Session

/-- One round of the loop of `Session::run`. Whether `writeAll` has failed is ignored. -/
def turn (s : Session) (env : Env) (x : DbImpl σ × FileSystem) :
    Turn × Session × DbImpl σ × FileSystem :=
  if s.running = false then (.ended, s, x)
  else
    match s.conn_.readLine with
    | (none, conn_) => (.ended, ⟨conn_.close, false⟩, x)
    | (some line, conn_) =>
      match serveLine x (line, env) with
      | (.error f, x) => (.threw f, ⟨conn_, false⟩, x)
      | (.ok res, x) =>
        match conn_.writeAll (encodeResponse res) with
        | (none, conn_) => (.killed, ⟨conn_, false⟩, x)
        | (some _, conn_) =>
          if isExit line then (.answered (line, env) res, ⟨conn_.close, false⟩, x)
          else (.answered (line, env) res, ⟨conn_, true⟩, x)

end Session

/-- Any number of sessions over one database. -/
structure Server (σ : Type) where
  sessions : Nat → Session
  db : DbImpl σ × FileSystem

namespace Server

/-- The turn of a session. -/
def step (s : Server σ) (a : Nat × Env) : (Nat × Turn) × Server σ :=
  match (s.sessions a.1).turn a.2 s.db with
  | (t, session, db) => ((a.1, t), ⟨Function.update s.sessions a.1 session, db⟩)

/-- Sessions that have not begun, on a new database; `recvs i` and `sends i` are the socket of the
session `i`. -/
def start (config : DbFactoryConfig) (recvs : Nat → List Bytes) (sends : Nat → Nat → Nat) :
    Server StorageManagerImpl where
  sessions i := ⟨{ recvs := recvs i, sends := sends i }, true⟩
  db := (createDbWithConfig config, FileSystem.empty)

end Server

end TinyKv
