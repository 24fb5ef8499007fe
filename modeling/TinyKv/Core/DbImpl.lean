import TinyKv.Core.MemTable
import TinyKv.Lib.Run

/-!
# The database

`db_impl.cpp` and `db_factory.cpp`. A `Call` is one call of the public interface; `DbImpl.call` runs
it on a database and a disk and gives the response, or the exception, and what is left. A sequence
of calls is a run of this machine.
-/

namespace TinyKv

open Bytes

/-- `DbImpl`: the memtable refers to the other parts. -/
structure DbImpl (σ : Type) where
  m_memTable : MemTableImpl σ
  deriving DecidableEq

/-- A call of the public interface of `DbImpl`. -/
inductive Call where
  | put (key val : Bytes)
  | get (key : Bytes)
  | del (key : Bytes)
  | forceFlushForTests
  | forceCompactForTests
  deriving DecidableEq

namespace DbImpl

variable {σ : Type} [StorageManager σ]

def put (db : DbImpl σ) (env : Env) (key val : Bytes) (fs : FileSystem) :
    Except Fault Response × DbImpl σ × FileSystem :=
  match db.m_memTable.put env key val fs with
  | (.error f, m, fs) => (.error f, ⟨m⟩, fs)
  | (.ok (some err), m, fs) => (.ok ⟨false, err.error, none⟩, ⟨m⟩, fs)
  | (.ok none, m, fs) => (.ok ⟨true, "OK", none⟩, ⟨m⟩, fs)

def get (db : DbImpl σ) (fs : FileSystem) (key : Bytes) : Except Fault Response :=
  match db.m_memTable.get key with
  | some entry =>
    if entry.tombstone then .ok ⟨false, "Key does not exist", none⟩
    else .ok ⟨true, "OK", some entry.val⟩
  | none =>
    match StorageManager.get db.m_memTable.m_storageManager fs key with
    | .error f => .error f
    | .ok none => .ok ⟨false, "Key does not exist", none⟩
    | .ok (some entry) => .ok ⟨true, "OK", some entry.val⟩

def del (db : DbImpl σ) (env : Env) (key : Bytes) (fs : FileSystem) :
    Except Fault Response × DbImpl σ × FileSystem :=
  match db.m_memTable.del env key fs with
  | (.error f, m, fs) => (.error f, ⟨m⟩, fs)
  | (.ok (some err), m, fs) =>
    (.ok ⟨false, ("Failed to DELETE key: " : Bytes) ++ err.error, none⟩, ⟨m⟩, fs)
  | (.ok none, m, fs) => (.ok ⟨true, "OK", none⟩, ⟨m⟩, fs)

/-- What `compact` returns is ignored, what it throws is not. -/
def forceCompactForTests (db : DbImpl σ) : Except Fault Response :=
  match StorageManager.compact db.m_memTable.m_storageManager with
  | .error f => .error f
  | .ok _ => .ok ⟨true, "OK", none⟩

/-- The same of `flushToDisk`. -/
def forceFlushForTests (db : DbImpl σ) (env : Env) (fs : FileSystem) :
    Except Fault Response × DbImpl σ × FileSystem :=
  match db.m_memTable.flushToDisk env fs with
  | (.error f, m, fs) => (.error f, ⟨m⟩, fs)
  | (.ok _, m, fs) => (.ok ⟨true, "OK", none⟩, ⟨m⟩, fs)

/-- One call. -/
def call (db : DbImpl σ) (env : Env) (fs : FileSystem) :
    Call → Except Fault Response × DbImpl σ × FileSystem
  | .put key val => db.put env key val fs
  | .get key => (db.get fs key, db, fs)
  | .del key => db.del env key fs
  | .forceFlushForTests => db.forceFlushForTests env fs
  | .forceCompactForTests => (db.forceCompactForTests, db, fs)

/-- The machine that takes calls, each with its environment. -/
def step (s : DbImpl σ × FileSystem) (c : Call × Env) :
    Except Fault Response × DbImpl σ × FileSystem :=
  s.1.call c.2 s.2 c.1

/-- The call starts a flush: the explicit one, a `put` on a full memtable, or a `del` of a key that
is there on a full memtable. -/
def StartsFlush (db : DbImpl σ) (fs : FileSystem) : Call → Prop
  | .put _ _ =>
    db.m_memTable.m_readOnly = false ∧
      db.m_memTable.m_skiplist.getLength = some db.m_memTable.m_size
  | .del key =>
    ((db.m_memTable.get key).isSome ∨
        ∃ e, StorageManager.get db.m_memTable.m_storageManager fs key = .ok (some e)) ∧
      db.m_memTable.m_readOnly = false ∧
      db.m_memTable.m_skiplist.getLength = some db.m_memTable.m_size
  | .forceFlushForTests => True
  | .get _ | .forceCompactForTests => False

end DbImpl

/-- `DbFactory::createDbWithConfig`. Nothing is read from the disk. -/
def createDbWithConfig (config : DbFactoryConfig) : DbImpl StorageManagerImpl where
  m_memTable :=
    { m_size := config.memtableCapacity
      m_storageManager :=
        { m_maxLevel := config.maxLevels
          m_basePath := config.sstableDirectory
          m_tableFormat := config.tableFormat }
      m_wal := { m_basePath := config.walDirectory, m_id := config.walId } }

end TinyKv
