import TinyKv.Core.LevelManager

/-!
# The storage manager

`storage_manager_impl.cpp`: the levels `0 … m_maxLevel`. They are loaded by the first `write`, never
by `get`; `write` ignores what `initLevels` returns and takes "no level manager" for "not loaded".

`StorageManager` is the interface that the memtable uses.
-/

namespace TinyKv

open Bytes

/-- The interface `StorageManager`. -/
class StorageManager (σ : Type) where
  write : σ → Env → List Entry → FileSystem → Except Fault (Option Error) × σ × FileSystem
  get : σ → FileSystem → Bytes → Except Fault (Option Entry)
  compact : σ → Except Fault (Option Error)

/-- `StorageManagerImpl`, with the allocator of its system context. -/
structure StorageManagerImpl where
  m_maxLevel : Int32
  m_basePath : Bytes
  m_tableFormat : TableFormatKind
  m_systemContext : FileNumberAllocator := {}
  m_levelManagers : List LevelManagerImpl := []
  deriving DecidableEq

namespace StorageManagerImpl

/-! ## Loading the levels -/

/-- `std::regex_match` against `level-(\d+)`: the digits. -/
def matchLevel (folderName : Bytes) : Option Bytes :=
  let digits := folderName.drop 6
  if folderName.take 6 = ("level-" : Bytes) ∧ digits ≠ [] ∧ digits.all isDigit then some digits
  else none

/-- `std::stoi` of a string of digits. -/
def stoi (digits : Bytes) : Except Fault Nat :=
  if decimalVal digits < 2 ^ 31 then .ok (decimalVal digits) else .error (.outOfRange "stoi")

/-- Step 1 of `initLevels`: the level numbers that have a directory. -/
def discoverLevels (m_maxLevel : Int32) : List (Bytes × BaseNode) → Except Fault (List Nat)
  | [] => .ok []
  | (_, .other) :: rest => discoverLevels m_maxLevel rest
  | (folderName, .directory _) :: rest =>
    match matchLevel folderName with
    | none => discoverLevels m_maxLevel rest
    | some digits =>
      match stoi digits with
      | .error f => .error f
      | .ok levelNum =>
        match discoverLevels m_maxLevel rest with
        | .error f => .error f
        | .ok discoveredLevels =>
          .ok (if (levelNum : Int) > m_maxLevel.toInt then discoveredLevels
            else levelNum :: discoveredLevels)

/-- `m_levelManagers.reserve(m_maxLevel + 1)`: the sum overflows at the largest `int`, and a
negative sum is a length no vector can have. -/
def reserve (m_maxLevel : Int32) : Except Fault Unit :=
  if m_maxLevel = Int32.maxValue then .error .signedOverflow
  else if m_maxLevel < -1 then .error (.lengthError "vector::reserve")
  else .ok ()

/-- Step 2 of `initLevels`: a manager for each level, loaded or with a new directory. -/
def createLevels (env : Env) (discoveredLevels : List Nat) :
    List Nat → StorageManagerImpl → FileSystem →
      Except Fault (Option Error) × StorageManagerImpl × FileSystem
  | [], sm, fs => (.ok none, sm, fs)
  | levelNum :: rest, sm, fs =>
    let level : LevelManagerImpl := { m_levelNum := levelNum, m_basePath := sm.m_basePath }
    if levelNum ∈ discoveredLevels then
      match level.initNew env sm.m_tableFormat fs with
      | (.error f, _) => (.error f, sm, fs)
      | (.ok (), level) =>
        createLevels env discoveredLevels rest
          { sm with m_levelManagers := sm.m_levelManagers ++ [level] } fs
    else
      let failed (message : Bytes) : Error :=
        ⟨("Failed to create directory " : Bytes) ++ level.m_directoryPath ++ (": " : Bytes) ++ message⟩
      match env.mkdirFault level.m_directoryPath with
      | some message => (.ok (some (failed message)), sm, fs)
      | none =>
        match fs.createDirectory (levelName levelNum) with
        | none => (.ok (some (failed "Not a directory")), sm, fs)
        | some fs =>
          createLevels env discoveredLevels rest
            { sm with m_levelManagers := sm.m_levelManagers ++ [level] } fs

/-- The level numbers `0 … m_maxLevel`. -/
def levelNums (m_maxLevel : Int32) : List Nat := List.range (m_maxLevel.toInt + 1).toNat

/-- `StorageManagerImpl::initLevels`. -/
def initLevels (sm : StorageManagerImpl) (env : Env) (fs : FileSystem) :
    Except Fault (Option Error) × StorageManagerImpl × FileSystem :=
  match env.mkdirFault sm.m_basePath with
  | some message =>
    (.ok (some ⟨("Failed to create base directory: " : Bytes) ++ message⟩), sm, fs)
  | none =>
    match discoverLevels sm.m_maxLevel fs.base.toList with
    | .error f => (.error f, sm, fs)
    | .ok discoveredLevels =>
      let sm := { sm with m_levelManagers := [] }
      match reserve sm.m_maxLevel with
      | .error f => (.error f, sm, fs)
      | .ok () => createLevels env discoveredLevels (levelNums sm.m_maxLevel) sm fs

/-! ## The interface -/

/-- What `write` does once the levels are there. -/
def writeLevel0 (sm : StorageManagerImpl) (env : Env) (entries : List Entry) (fs : FileSystem) :
    Except Fault (Option Error) × StorageManagerImpl × FileSystem :=
  match sm.m_levelManagers with
  | [] => (.error .outOfBounds, sm, fs)
  | level0Manager :: rest =>
    match level0Manager.createTable env sm.m_tableFormat entries sm.m_systemContext fs with
    | (.error f, allocator, fs) => (.error f, { sm with m_systemContext := allocator }, fs)
    | (.ok level0Manager, allocator, fs) =>
      (.ok none,
        { sm with m_systemContext := allocator, m_levelManagers := level0Manager :: rest }, fs)

/-- `StorageManagerImpl::write`. -/
def write (sm : StorageManagerImpl) (env : Env) (entries : List Entry) (fs : FileSystem) :
    Except Fault (Option Error) × StorageManagerImpl × FileSystem :=
  if sm.m_levelManagers.length = 0 then
    match sm.initLevels env fs with
    | (.error f, sm, fs) => (.error f, sm, fs)
    | (.ok _, sm, fs) => sm.writeLevel0 env entries fs
  else sm.writeLevel0 env entries fs

/-- The loop of `get`. The second test is for a tombstone, which `getKey` does not return. -/
def getFrom (fs : FileSystem) (key : Bytes) : List LevelManagerImpl → Except Fault (Option Entry)
  | [] => .ok none
  | levelManager :: rest =>
    match levelManager.getKey fs key with
    | .error f => .error f
    | .ok none => getFrom fs key rest
    | .ok (some entry) =>
      if !entry.tombstone then .ok (some entry)
      else .ok none

/-- `StorageManagerImpl::get`. -/
def get (sm : StorageManagerImpl) (fs : FileSystem) (key : Bytes) : Except Fault (Option Entry) :=
  getFrom fs key sm.m_levelManagers

/-- The loop of `compact`; `compactInto` itself does nothing. -/
def compactLevels (sm : StorageManagerImpl) : List Nat → Except Fault (Option Error)
  | [] => .ok none
  | lvl :: rest =>
    match sm.m_levelManagers[lvl]?, sm.m_levelManagers[lvl + 1]? with
    | some _, some _ => sm.compactLevels rest
    | _, _ => .error .outOfBounds

/-- `StorageManagerImpl::compact`. -/
def compact (sm : StorageManagerImpl) : Except Fault (Option Error) :=
  if sm.m_levelManagers.length = 0 then .ok none
  else sm.compactLevels (List.range sm.m_maxLevel.toInt.toNat)

instance : StorageManager StorageManagerImpl where
  write := write
  get := get
  compact := compact

end StorageManagerImpl

end TinyKv
