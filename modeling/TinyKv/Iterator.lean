import TinyKv.Types
import TinyKv.Lib.Cursor

/-!
# Iterators

`iterators/iterator.h`: the interface of the iterators over a memtable and over a table. `Key`,
`Value` and `isTombstone` read the entry that a valid iterator is on.
-/

namespace TinyKv

/-- The interface `tinykv::Iterator`. -/
class Iterator (ι : Type) where
  valid : ι → Bool
  seekToFirst : ι → ι
  seekToLast : ι → ι
  seek : ι → Bytes → Except Fault ι
  next : ι → ι
  entry : ι → Except Fault Entry

namespace Iterator

variable {ι : Type} [Iterator ι]

/-- One call that moves an iterator. -/
def call (it : ι) : Cursor.Call Bytes → Except Fault ι
  | .seekToFirst => .ok (seekToFirst it)
  | .seekToLast => .ok (seekToLast it)
  | .seek key => seek it key
  | .next => .ok (next it)

/-- What a caller sees: the entry, where the iterator is valid. -/
def observe (it : ι) : Except Fault (Option Entry) :=
  if valid it then (entry it).map some else .ok none

/-- A call and what is seen after it; nothing is called after a fault. -/
def step (s : Except Fault ι) (c : Cursor.Call Bytes) :
    Except Fault (Option Entry) × Except Fault ι :=
  match s.bind (call · c) with
  | .error f => (.error f, .error f)
  | .ok it => (observe it, .ok it)

end Iterator

end TinyKv
