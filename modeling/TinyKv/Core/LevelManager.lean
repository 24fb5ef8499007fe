import TinyKv.Table.Format

/-!
# A level of tables

`level_manager_impl.cpp`. A level owns the directory `<base>/level-<n>` and a vector of readers for
the tables in it. `createTable` puts a new table in front; `initNew` appends a reader for every
regular file in the order of the directory listing; compaction does nothing.
-/

namespace TinyKv

open Bytes

/-- The name of a level directory. -/
def levelName (levelNum : Nat) : Bytes := ("level-" : Bytes) ++ decimal levelNum

/-- `_generateSSTableFileName`: the clock shifted by 16 bits, mixed with the counter. -/
def generateSSTableFileName (env : Env) : Bytes :=
  ("table-" : Bytes) ++ decimal (env.ns <<< 16 ^^^ env.nameCounter).toNat

/-- `LevelManagerImpl`; its directory is `m_basePath/level-<m_levelNum>`. -/
structure LevelManagerImpl where
  m_levelNum : Nat
  m_basePath : Bytes
  m_tableReaders : List TableReader := []
  deriving DecidableEq

namespace LevelManagerImpl

def m_directoryPath (lm : LevelManagerImpl) : Bytes :=
  lm.m_basePath ++ ("/" : Bytes) ++ levelName lm.m_levelNum

/-- The path of a file in the level's directory. -/
def pathOf (lm : LevelManagerImpl) (name : Bytes) : TablePath :=
  ⟨lm.m_basePath, levelName lm.m_levelNum, name⟩

/-- The loop of `getKey`: the first table with the key decides, and a tombstone reads as absent. -/
def getKeyFrom (fs : FileSystem) (key : Bytes) : List TableReader → Except Fault (Option Entry)
  | [] => .ok none
  | tableReader :: rest =>
    match tableReader.withinRange key with
    | .error f => .error f
    | .ok false => getKeyFrom fs key rest
    | .ok true =>
      match tableReader.get fs key with
      | .error f => .error f
      | .ok none => getKeyFrom fs key rest
      | .ok (some entry) => if entry.tombstone then .ok none else .ok (some entry)

/-- `LevelManagerImpl::getKey`. -/
def getKey (lm : LevelManagerImpl) (fs : FileSystem) (key : Bytes) : Except Fault (Option Entry) :=
  getKeyFrom fs key lm.m_tableReaders

/-- `LevelManagerImpl::createTable`. Name and file number are taken before the table is written. -/
def createTable (lm : LevelManagerImpl) (env : Env) (tableFormat : TableFormatKind)
    (entries : List Entry) (allocator : FileNumberAllocator) (fs : FileSystem) :
    Except Fault LevelManagerImpl × FileNumberAllocator × FileSystem :=
  let name := generateSSTableFileName env
  let (file_num, allocator) := allocator.next
  match tableFormat.writeTable env (lm.pathOf name) entries env.now file_num
      (fs.record (.nameDrawn name)) with
  | (.error f, fs) => (.error f, allocator, fs)
  | (.ok tableReader, fs) =>
    (.ok { lm with m_tableReaders := tableReader :: lm.m_tableReaders }, allocator, fs)

/-- The loop of `initNew` over the directory listing. -/
def openTables (lm : LevelManagerImpl) (tableFormat : TableFormatKind) (fs : FileSystem) :
    List (Bytes × FileNode) → Except Fault Unit × LevelManagerImpl
  | [] => (.ok (), lm)
  | (_, .other) :: rest => lm.openTables tableFormat fs rest
  | (name, .regular _) :: rest =>
    match tableFormat.openTable fs (lm.pathOf name) with
    | .error f => (.error f, lm)
    | .ok tableReader =>
      { lm with m_tableReaders := lm.m_tableReaders ++ [tableReader] }.openTables tableFormat fs rest

/-- `LevelManagerImpl::initNew`. -/
def initNew (lm : LevelManagerImpl) (env : Env) (tableFormat : TableFormatKind) (fs : FileSystem) :
    Except Fault Unit × LevelManagerImpl :=
  match fs.dir? (levelName lm.m_levelNum) with
  | none => (.error (.filesystemError lm.m_directoryPath), lm)
  | some dir => lm.openTables tableFormat fs (env.order.list dir.toList)

end LevelManagerImpl

end TinyKv
