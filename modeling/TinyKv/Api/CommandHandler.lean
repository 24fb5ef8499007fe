import TinyKv.Api.Codec
import TinyKv.Core.DbImpl

/-!
# The command handler

`api/command_handler.cpp` and the body of the loop of `Session::run`: one request line at a time is
decoded and executed on the database. `Session::run` has no handler: an exception leaves the thread.
-/

namespace TinyKv

open Bytes protocol

variable {σ : Type} [StorageManager σ]

/-- `CommandHandler::execute`. -/
def execute (db : DbImpl σ) (env : Env) (fs : FileSystem) (cmd : Command) (args : List Bytes) :
    Except Fault Response × DbImpl σ × FileSystem :=
  match cmd, args with
  | .GET, [] => (.ok ⟨false, "Usage: GET <key>", none⟩, db, fs)
  | .GET, key :: _ => (db.get fs key, db, fs)
  | .PUT, key :: val :: _ => db.put env key val fs
  | .PUT, _ => (.ok ⟨false, "Usage: PUT <key> <value>", none⟩, db, fs)
  | .DEL, [] => (.ok ⟨false, "Usage: DEL <key>", none⟩, db, fs)
  | .DEL, key :: _ => db.del env key fs
  | ._FLUSH, _ => db.forceFlushForTests env fs
  | .EXIT, _ => (.ok ⟨true, "Bye", none⟩, db, fs)
  | .UNKNOWN, _ => (.ok ⟨false, "Unknown command", none⟩, db, fs)

/-- What `Session::run` does with one line, up to the response it writes. -/
def serveLine (s : DbImpl σ × FileSystem) (line : Bytes × Env) :
    Except Fault Response × DbImpl σ × FileSystem :=
  match decodeLine line.1 with
  | .error parseErr => (.ok ⟨false, parseErr, none⟩, s)
  | .ok req => execute s.1 line.2 s.2 req.command req.args

end TinyKv
