import TinyKv.Core.SkipList
import TinyKv.Core.StorageManager
import TinyKv.Wal.Wal

/-!
# The memtable

`mem_table_impl.cpp` over any `StorageManager`. A write goes to the log and then to the skip list;
a write that finds the list at its capacity flushes first. `m_readOnly` is set before a flush and
cleared only where the flush succeeds.

`MemTableImpl` holds what the C++ object refers to: the skip list (a `std::map`, so an ordered map),
the storage manager and the log.
-/

namespace TinyKv

open Bytes

structure MemTableImpl (σ : Type) where
  m_size : Int32
  m_readOnly : Bool := false
  m_skiplist : SkipListImpl := SortedMap.empty
  m_storageManager : σ
  m_wal : WAL
  deriving DecidableEq

namespace MemTableImpl

variable {σ : Type} [StorageManager σ]

/-- `MemTableImpl::get`. -/
def get (m : MemTableImpl σ) (key : Bytes) : Option Entry := m.m_skiplist.find? key

/-- `MemTableImpl::flushToDisk`. -/
def flushToDisk (m : MemTableImpl σ) (env : Env) (fs : FileSystem) :
    Except Fault (Option Error) × MemTableImpl σ × FileSystem :=
  let m := { m with m_readOnly := true }
  match StorageManager.write m.m_storageManager env m.m_skiplist.toList fs with
  | (.error f, sm, fs) => (.error f, { m with m_storageManager := sm }, fs)
  | (.ok (some err), sm, fs) => (.ok (some err), { m with m_storageManager := sm }, fs)
  | (.ok none, sm, fs) =>
    let m := { m with m_storageManager := sm }
    match WAL.remove env.removeFault fs with
    | (some err, fs) => (.ok (some err), m, fs)
    | (none, fs) => (.ok none, { m with m_skiplist := SortedMap.empty, m_readOnly := false }, fs)

/-- The flush that `put` and `del` make when the skip list is full. -/
def flushIfFull (m : MemTableImpl σ) (env : Env) (fs : FileSystem) :
    Except Fault (Option Error) × MemTableImpl σ × FileSystem :=
  if m.m_skiplist.getLength = some m.m_size then
    { m with m_readOnly := true }.flushToDisk env fs
  else (.ok none, m, fs)

/-- `m_wal.append` and `m_skiplist.set`. -/
def logAndSet (m : MemTableImpl σ) (env : Env) (e : Entry) (fs : FileSystem) :
    Option Error × MemTableImpl σ × FileSystem :=
  match m.m_wal.append env.appendFault e fs with
  | (some _, fs) =>
    (some ⟨"MemTableImpl.put()] Failed to PUT: Failed to write to WAL"⟩, m, fs)
  | (none, fs) => (none, { m with m_skiplist := m.m_skiplist.insert e }, fs)

/-- `MemTableImpl::put`. -/
def put (m : MemTableImpl σ) (env : Env) (key val : Bytes) (fs : FileSystem) :
    Except Fault (Option Error) × MemTableImpl σ × FileSystem :=
  if m.m_readOnly then
    (.ok (some ⟨"[MemTableImpl.put()] Cannot PUT: memtable in read-only mode"⟩), m, fs)
  else
    match m.flushIfFull env fs with
    | (.error f, m, fs) => (.error f, m, fs)
    | (.ok (some _), m, fs) =>
      (.ok (some ⟨"[MemTableImpl.put()] Failed to PUT: Flushing error "⟩), m, fs)
    | (.ok none, m, fs) =>
      let (err, m, fs) := m.logAndSet env ⟨key, val, false⟩ fs
      (.ok err, m, fs)

/-- `MemTableImpl::del` behind its test for the key. -/
def delExisting (m : MemTableImpl σ) (env : Env) (key : Bytes) (fs : FileSystem) :
    Except Fault (Option Error) × MemTableImpl σ × FileSystem :=
  if m.m_readOnly then (.ok (some ⟨"Cannot DELETE: memtable in read-only mode"⟩), m, fs)
  else
    match m.flushIfFull env fs with
    | (.error f, m, fs) => (.error f, m, fs)
    | (.ok (some _), m, fs) =>
      (.ok (some ⟨"[MemTableImpl.put()] Failed to DELETE: Flushing error "⟩), m, fs)
    | (.ok none, m, fs) =>
      match m.logAndSet env ⟨key, "val", true⟩ fs with
      | (some err, m, fs) => (.ok (some err), m, fs)
      | (none, m, fs) =>
        if m.m_skiplist.getLength = none then (.ok (some ⟨"Failed to DELETE"⟩), m, fs)
        else (.ok none, m, fs)

/-- `MemTableImpl::del`; the storage is asked only when the memtable does not have the key. -/
def del (m : MemTableImpl σ) (env : Env) (key : Bytes) (fs : FileSystem) :
    Except Fault (Option Error) × MemTableImpl σ × FileSystem :=
  match m.get key with
  | some _ => m.delExisting env key fs
  | none =>
    match StorageManager.get m.m_storageManager fs key with
    | .error f => (.error f, m, fs)
    | .ok none => (.ok (some ⟨"Cannot DELETE: key does not exist"⟩), m, fs)
    | .ok (some _) => m.delExisting env key fs

/-- The loop of `replayWal`: a full skip list is flushed, and what the flush returns is ignored.
`env i` is the environment at the entry with the number `i`. -/
def replayEntries (m : MemTableImpl σ) (env : Nat → Env) (i : Nat) (fs : FileSystem) :
    List Entry → Except Fault Unit × MemTableImpl σ × FileSystem
  | [] => (.ok (), m, fs)
  | entry :: rest =>
    if m.m_skiplist.getLength = some m.m_size then
      match m.flushToDisk (env i) fs with
      | (.error f, m, fs) => (.error f, m, fs)
      | (.ok _, m, fs) =>
        { m with m_skiplist := m.m_skiplist.insert entry }.replayEntries env (i + 1) fs rest
    else { m with m_skiplist := m.m_skiplist.insert entry }.replayEntries env (i + 1) fs rest

/-- The end of `replayWal`: the rest of the entries is flushed and the log removed. -/
def finishReplay (m : MemTableImpl σ) (env : Env) (fs : FileSystem) :
    Except Fault (Option Error) × MemTableImpl σ × FileSystem :=
  let flushed :=
    if m.m_skiplist.getLength.any (0 < ·) then m.flushToDisk env fs else (.ok none, m, fs)
  match flushed with
  | (.error f, m, fs) => (.error f, m, fs)
  | (.ok (some _), m, fs) =>
    (.ok (some ⟨"[MemTableImpl.replayWal()] Failed to replay WAL: Flushing error "⟩), m, fs)
  | (.ok none, m, fs) =>
    -- an error of `m_wal.remove()` is ignored
    let (_, fs) := WAL.remove env.removeFault fs
    (.ok none, { m with m_readOnly := false }, fs)

/-- `MemTableImpl::replayWal`; a corrupt log is no list, and `entries.value()` throws. -/
def replayWal (m : MemTableImpl σ) (env : Nat → Env) (fs : FileSystem) :
    Except Fault (Option Error) × MemTableImpl σ × FileSystem :=
  let m := { m with m_readOnly := true }
  match WAL.getEntries fs with
  | none => (.error .badOptionalAccess, m, fs)
  | some entries =>
    match m.replayEntries env 0 fs entries with
    | (.error f, m, fs) => (.error f, m, fs)
    | (.ok (), m, fs) => m.finishReplay (env entries.length) fs

/-- A key that is there is deleted behind the same tests as a put. -/
theorem del_eq_delExisting {m : MemTableImpl σ} {env : Env} {fs : FileSystem} {key : Bytes}
    (h : (m.get key).isSome ∨ ∃ e, StorageManager.get m.m_storageManager fs key = .ok (some e)) :
    m.del env key fs = m.delExisting env key fs := by
  unfold MemTableImpl.del
  cases hm : m.get key with
  | some e => rfl
  | none =>
    rw [hm] at h
    obtain ⟨e, he⟩ := h.resolve_left (by simp)
    simp only [he]

end MemTableImpl

end TinyKv
