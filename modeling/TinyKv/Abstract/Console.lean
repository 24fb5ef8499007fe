import TinyKv.Api.CommandHandler
import TinyKv.Cli.Repl

/-!
# Clients without a network

What the clients and the server are for: consoles that share a database. A `round` of a console is
one step: it prompts, reads a line, has its request executed and prints the answer.
-/

namespace TinyKv

open Bytes protocol

variable {σ : Type} [StorageManager σ]

structure Console where
  cin : Bytes
  cout : Bytes := []
  cerr : Bytes := []
  done : Bool := false

/-- One round. An exception of the database is the end of it all. -/
def Console.round (c : Console) (env : Env) (x : DbImpl σ × FileSystem) :
    Except Fault Unit × Console × DbImpl σ × FileSystem :=
  if c.done then (.ok (), c, x)
  else
    let cout := c.cout ++ ("tinykv>> " : Bytes)
    match getline c.cin with
    | none => (.ok (), { c with cout := cout ++ ("\n" : Bytes), done := true }, x)
    | some (line, cin) =>
      if line = [] then (.ok (), { c with cin := cin, cout := cout }, x)
      else
        match decodeLine line with
        | .error parseErr =>
          (.ok (), { c with
            cin := cin
            cout := cout
            cerr := c.cerr ++ ("ERR: " : Bytes) ++ parseErr ++ ("\n" : Bytes) }, x)
        | .ok req =>
          match execute x.1 env x.2 req.command req.args with
          | (.error f, x) => (.error f, c, x)
          | (.ok res, x) =>
            (.ok (), { c with
              cin := cin
              cout := cout ++ printed res
              done := decide (req.command = .EXIT) }, x)

/-- Any number of consoles over one database. -/
structure Consoles (σ : Type) where
  consoles : Nat → Console
  db : DbImpl σ × FileSystem

namespace Consoles

/-- The round of a console. -/
def step (s : Consoles σ) (a : Nat × Env) : Except Fault Unit × Consoles σ :=
  match (s.consoles a.1).round a.2 s.db with
  | (res, c, x) => (res, ⟨Function.update s.consoles a.1 c, x⟩)

def start (config : DbFactoryConfig) (cin : Nat → Bytes) : Consoles StorageManagerImpl where
  consoles i := { cin := cin i }
  db := (createDbWithConfig config, FileSystem.empty)

end Consoles

end TinyKv
