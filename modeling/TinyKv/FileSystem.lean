import TinyKv.Types

/-!
# The files of a database

The SSTable base directory with its level directories, and the log file. A directory is a map from
names to entries, so two files of a directory never share a name; the order in which a
`directory_iterator` lists it is not part of the state but of the environment (`Env.order`, any
permutation).

`FileSystem.effects` records, oldest first, the table names that were drawn and what reached the
disk: a table file created as a whole, the log removed, a record (or the first bytes of one)
appended to the log. Nothing reads it back: it is the history that statements about crashes and
about the files of a run speak of.
-/

namespace TinyKv

/-- A path `<base>/<level>/<name>` of a table file. -/
structure TablePath where
  base : Bytes
  level : Bytes
  name : Bytes
  deriving DecidableEq, Repr

/-- The path as a string. -/
def TablePath.string (p : TablePath) : Bytes :=
  p.base ++ ("/" : Bytes) ++ p.level ++ ("/" : Bytes) ++ p.name

/-- An entry of a level directory: a regular file or something `initNew` skips. -/
inductive FileNode where
  | regular (content : Bytes)
  | other
  deriving DecidableEq

abbrev Dir := SortedMap (Prod.fst : Bytes × FileNode → Bytes)

/-- An entry of the base directory: a directory or something `initLevels` skips. -/
inductive BaseNode where
  | directory (dir : Dir)
  | other
  deriving DecidableEq

abbrev BaseDir := SortedMap (Prod.fst : Bytes × BaseNode → Bytes)

/-- What happened to the disk, and the names drawn for new tables. -/
inductive Effect where
  | nameDrawn (name : Bytes)
  | tableCreated (path : TablePath) (content : Bytes)
  | walRemoved
  | walAppended (record : Bytes)
  deriving DecidableEq

/-- The table names drawn. -/
def drawnNames (effects : List Effect) : List Bytes :=
  effects.filterMap fun
    | .nameDrawn name => some name
    | _ => none

/-- The contents of the tables created. -/
def tableContents (effects : List Effect) : List Bytes :=
  effects.filterMap fun
    | .tableCreated _ content => some content
    | _ => none

theorem drawnNames_append (a b : List Effect) :
    drawnNames (a ++ b) = drawnNames a ++ drawnNames b := List.filterMap_append

theorem tableContents_append (a b : List Effect) :
    tableContents (a ++ b) = tableContents a ++ tableContents b := List.filterMap_append

structure FileSystem where
  base : BaseDir
  wal : Option Bytes
  effects : List Effect
  deriving DecidableEq

namespace FileSystem

/-- Empty WAL and SSTable directories. -/
def empty : FileSystem := ⟨SortedMap.empty, none, []⟩

def record (fs : FileSystem) (e : Effect) : FileSystem := { fs with effects := fs.effects ++ [e] }

/-- The level directory with this name, if it is one. -/
def dir? (fs : FileSystem) (level : Bytes) : Option Dir :=
  match fs.base.find? level with
  | some (_, .directory d) => some d
  | _ => none

/-- The content of a regular file. -/
def file? (fs : FileSystem) (level name : Bytes) : Option Bytes :=
  match (fs.dir? level).bind (·.find? name) with
  | some (_, .regular content) => some content
  | _ => none

def setDir (fs : FileSystem) (level : Bytes) (d : Dir) : FileSystem :=
  { fs with base := fs.base.insert (level, .directory d) }

/-- `create_directories` of a level directory: nothing to do when it exists, an error when
something else has its name. -/
def createDirectory (fs : FileSystem) (level : Bytes) : Option FileSystem :=
  match fs.base.find? level with
  | none => some (fs.setDir level SortedMap.empty)
  | some (_, .directory _) => some fs
  | some (_, .other) => none

/-- An `ofstream` (created or truncated) with this content in an existing level directory; an
error when there is no such directory or the name is taken by something that is no file. The writers
do not look at what `write` and `close` come to; here these do not fail. -/
def writeFile (fs : FileSystem) (level name content : Bytes) : Option FileSystem :=
  match fs.dir? level with
  | none => none
  | some d =>
    match d.find? name with
    | some (_, .other) => none
    | _ => some (fs.setDir level (d.insert (name, .regular content)))

/-! ## What the updates do -/

theorem dir?_setDir (fs : FileSystem) (level level' : Bytes) (d : Dir) :
    (fs.setDir level d).dir? level' = if level = level' then some d else fs.dir? level' := by
  simp only [dir?, setDir, SortedMap.find?_insert]
  by_cases h : level = level' <;> simp [h]

@[simp] theorem record_base (fs : FileSystem) (e : Effect) : (fs.record e).base = fs.base := rfl

@[simp] theorem record_wal (fs : FileSystem) (e : Effect) : (fs.record e).wal = fs.wal := rfl

@[simp] theorem record_effects (fs : FileSystem) (e : Effect) :
    (fs.record e).effects = fs.effects ++ [e] := rfl

@[simp] theorem record_dir? (fs : FileSystem) (e : Effect) (level : Bytes) :
    (fs.record e).dir? level = fs.dir? level := rfl

@[simp] theorem record_file? (fs : FileSystem) (e : Effect) (level name : Bytes) :
    (fs.record e).file? level name = fs.file? level name := rfl

@[simp] theorem setDir_wal (fs : FileSystem) (level : Bytes) (d : Dir) :
    (fs.setDir level d).wal = fs.wal := rfl

@[simp] theorem setDir_effects (fs : FileSystem) (level : Bytes) (d : Dir) :
    (fs.setDir level d).effects = fs.effects := rfl

theorem createDirectory_of_dir {fs : FileSystem} {level : Bytes} {d : Dir}
    (h : fs.dir? level = some d) : fs.createDirectory level = some fs := by
  unfold dir? at h
  unfold createDirectory
  split at h
  · rename_i hf
    rw [hf]
  · cases h

theorem writeFile_of_regular {fs : FileSystem} {level name : Bytes} {d : Dir}
    (h : fs.dir? level = some d) (hreg : ∀ p, d.find? name = some p → p.2 ≠ .other)
    (content : Bytes) :
    fs.writeFile level name content = some (fs.setDir level (d.insert (name, .regular content))) := by
  rw [writeFile, h]
  dsimp only
  split
  · rename_i hf
    exact absurd rfl (hreg _ hf)
  · rfl

/-- A new file is there, and every other file is as before. -/
theorem file?_setDir_insert {fs : FileSystem} {level : Bytes} {d : Dir} (h : fs.dir? level = some d)
    (name content level' name' : Bytes) :
    (fs.setDir level (d.insert (name, .regular content))).file? level' name' =
      if level = level' ∧ name = name' then some content else fs.file? level' name' := by
  simp only [file?, dir?_setDir]
  by_cases hl : level = level'
  · subst hl
    simp only [if_true, h, Option.bind_some, SortedMap.find?_insert, true_and]
    by_cases hn : name = name'
    · simp [hn]
    · simp [hn]
  · simp [hl]

theorem file?_of_dir {fs : FileSystem} {level name content : Bytes} {d : Dir}
    (h : fs.dir? level = some d) {p : Bytes × FileNode} (hp : d.find? name = some p)
    (hc : p.2 = .regular content) : fs.file? level name = some content := by
  obtain ⟨n, node⟩ := p
  obtain rfl : node = .regular content := hc
  simp only [file?, h, Option.bind_some, hp]

/-- At most the directories and the file `name` of `level` have changed. -/
structure Touches (level name : Bytes) (fs fs' : FileSystem) : Prop where
  effects : fs'.effects = fs.effects
  wal : fs'.wal = fs.wal
  files : ∀ l n, ¬ (l = level ∧ n = name) → fs'.file? l n = fs.file? l n

theorem Touches.refl (level name : Bytes) (fs : FileSystem) : fs.Touches level name fs :=
  ⟨rfl, rfl, fun _ _ _ => rfl⟩

theorem Touches.trans {level name : Bytes} {fs fs' fs'' : FileSystem}
    (h : fs.Touches level name fs') (h' : fs'.Touches level name fs'') :
    fs.Touches level name fs'' :=
  ⟨h'.effects.trans h.effects, h'.wal.trans h.wal,
    fun l n hn => (h'.files l n hn).trans (h.files l n hn)⟩

theorem createDirectory_files {fs fs' : FileSystem} {level : Bytes}
    (h : fs.createDirectory level = some fs') :
    fs'.effects = fs.effects ∧ fs'.wal = fs.wal ∧ ∀ l n, fs'.file? l n = fs.file? l n := by
  unfold createDirectory at h
  split at h
  · rename_i hnone
    cases h
    refine ⟨rfl, rfl, fun l n => ?_⟩
    simp only [file?, dir?_setDir]
    by_cases hl : level = l
    · subst hl
      simp [dir?, hnone]
    · simp [hl]
  · cases h
    exact ⟨rfl, rfl, fun _ _ => rfl⟩
  · cases h

theorem writeFile_touches {fs fs' : FileSystem} {level name content : Bytes}
    (h : fs.writeFile level name content = some fs') :
    fs.Touches level name fs' ∧ fs'.file? level name = some content := by
  unfold writeFile at h
  split at h
  · cases h
  · rename_i d hd
    split at h
    · cases h
    · cases h
      refine ⟨⟨rfl, rfl, fun l n hn => ?_⟩, ?_⟩
      · rw [file?_setDir_insert hd, if_neg fun he => hn ⟨he.1.symm, he.2.symm⟩]
      · rw [file?_setDir_insert hd, if_pos ⟨rfl, rfl⟩]

/-- Every file of `fs` is in `fs'`. -/
def Le (fs fs' : FileSystem) : Prop :=
  ∀ level name content, fs.file? level name = some content → fs'.file? level name = some content

theorem Le.trans {fs fs' fs'' : FileSystem} (h : fs.Le fs') (h' : fs'.Le fs'') : fs.Le fs'' :=
  fun level name content hf => h' level name content (h level name content hf)

theorem Le.record (fs : FileSystem) (e : Effect) : fs.Le (fs.record e) := fun _ _ _ h => h

theorem Le.setDir_insert {fs : FileSystem} {level name : Bytes} {d : Dir}
    (h : fs.dir? level = some d) (hfresh : d.find? name = none) (content : Bytes) :
    fs.Le (fs.setDir level (d.insert (name, .regular content))) := by
  intro level' name' content' hf
  rw [file?_setDir_insert h]
  split
  · rename_i heq
    obtain ⟨rfl, rfl⟩ := heq
    simp [file?, h, hfresh] at hf
  · exact hf

/-- The disk after a table has been written as a whole under a new name of the directory `d`. -/
def addTable (fs : FileSystem) (path : TablePath) (d : Dir) (content : Bytes) : FileSystem :=
  (fs.setDir path.level (d.insert (path.name, .regular content))).record
    (.tableCreated path content)

@[simp] theorem addTable_wal (fs : FileSystem) (path : TablePath) (d : Dir) (content : Bytes) :
    (fs.addTable path d content).wal = fs.wal := rfl

@[simp] theorem addTable_effects (fs : FileSystem) (path : TablePath) (d : Dir) (content : Bytes) :
    (fs.addTable path d content).effects = fs.effects ++ [.tableCreated path content] := rfl

end FileSystem

/-! ## The environment of a call -/

/-- The order in which a `directory_iterator` lists a level directory. -/
structure DirOrder where
  list : List (Bytes × FileNode) → List (Bytes × FileNode)
  perm : ∀ l, (list l).Perm l

/-- The order of the names. -/
def DirOrder.byName : DirOrder := ⟨id, fun _ => .refl _⟩

/-- Where `WAL::append` fails, and how many bytes of the record have reached the file by then. -/
inductive AppendFault where
  | openFailed
  | headerFailed (written : Nat)
  | payloadFailed (written : Nat)
  | flushFailed (written : Nat)
  deriving DecidableEq

/-- What a call takes from outside: the clocks and the process-wide counter that name a new table,
the order of directory listings, and which of these fail: the creation of a directory of tables, an
append to the log, its removal. -/
structure Env where
  ns : UInt64 := 0
  nameCounter : UInt64 := 0
  now : TimestampType := 0
  order : DirOrder := .byName
  mkdirFault : Bytes → Option Bytes := fun _ => none -- the message of the error code, by path
  appendFault : Option AppendFault := none
  removeFault : Option Bytes := none

/-- No filesystem failure. -/
structure Env.NoFault (env : Env) : Prop where
  mkdir : ∀ p, env.mkdirFault p = none
  append : env.appendFault = none
  remove : env.removeFault = none

end TinyKv
