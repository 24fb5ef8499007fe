import TinyKv.Iterator

/-!
# The skip list

`skip_list_impl.cpp`: the entries of the memtable in a `std::map`, and the iterator over it. A
`std::map` is an ordered map; an iterator of it is on one of its entries or is `end()`.
-/

namespace TinyKv

/-- `SkipListImpl`: a `std::map` from key to entry. -/
abbrev SkipListImpl := SortedMap Entry.key

/-- `SkipListImpl::getLength`: the size narrowed to an `int`, always there. -/
def SkipListImpl.getLength (l : SkipListImpl) : Option Int32 := some (Int32.ofNat l.size)

/-- `SkipListImpl::Iter`; `end()` is no entry. -/
structure SkipListImpl.Iter where
  m_map : SkipListImpl
  m_it : Option Entry

/-- `SkipListImpl::NewIterator`. -/
def SkipListImpl.newIterator (l : SkipListImpl) : SkipListImpl.Iter := ⟨l, none⟩

namespace SkipListImpl.Iter

def valid (it : Iter) : Bool := it.m_it.isSome

def seekToFirst (it : Iter) : Iter := { it with m_it := it.m_map.toList.head? }

def seekToLast (it : Iter) : Iter :=
  if it.m_map.size = 0 then { it with m_it := none }
  else { it with m_it := it.m_map.toList.getLast? }

def seek (it : Iter) (target : Bytes) : Iter := { it with m_it := it.m_map.find? target }

/-- `Next`: `++` goes to the entry with the next larger key. -/
def next (it : Iter) : Iter :=
  match it.m_it with
  | none => it
  | some e => { it with m_it := it.m_map.toList.find? fun e' => decide (e.key < e'.key) }

/-- What `Key`, `Value` and `isTombstone` give; `end()` must not be read. -/
def entry (it : Iter) : Except Fault Entry :=
  match it.m_it with
  | none => .error .outOfBounds
  | some e => .ok e

instance iterator : Iterator Iter where
  valid := valid
  seekToFirst := seekToFirst
  seekToLast := seekToLast
  seek it target := .ok (it.seek target)
  next := next
  entry := entry

end SkipListImpl.Iter

end TinyKv
