import TinyKv.Core.LevelManager
import TinyKv.Table.Proof.Format

/-!
# What a level answers

* `getKeyFrom_eq`: over readers that serve tables, the first table that has the key decides; the
  range test drops no table that has it.
* `createTable_ok`, `createTable_error`: one table, written or not.
* `openTables_ok`: a listing of table files is opened in the order of the listing.
-/

namespace TinyKv

open Bytes

/-- The readers serve these tables, in this order. -/
abbrev ServesAll (fs : FileSystem) (readers : List TableReader) (tables : List (List Entry)) : Prop :=
  List.Forall₂ (Serves fs) readers tables

theorem ServesAll.mono {fs fs' : FileSystem} {readers : List TableReader}
    {tables : List (List Entry)} (h : ServesAll fs readers tables) (hle : fs.Le fs') :
    ServesAll fs' readers tables := h.imp fun _ _ hs => hs.mono hle

namespace LevelManagerImpl

theorem live_of_persisted {e x : Entry} (h : e.persisted = x.persisted) :
    (if e.tombstone then none else some e) = live (some x) := by
  have ht : e.tombstone = x.tombstone := by simpa using congrArg Entry.tombstone h
  rw [live_some, ht]
  cases hx : x.tombstone with
  | true => rfl
  | false =>
    rw [Entry.persisted_of_live (ht.trans hx), Entry.persisted_of_live hx] at h
    rw [h]

/-- **The loop of `getKey`.** -/
theorem getKeyFrom_eq {fs : FileSystem} {readers : List TableReader} {tables : List (List Entry)}
    (h : ServesAll fs readers tables) (key : Bytes) :
    getKeyFrom fs key readers = .ok (live (firstEntry tables key)) := by
  induction h with
  | nil => rfl
  | @cons r es readers tables hr _ ih =>
    rw [getKeyFrom, firstEntry_cons]
    cases hl : lookup es key with
    | none =>
      -- the table is passed over by its range or by its lookup
      obtain ⟨e, hget, he⟩ := hr.get key
      rw [hl, Option.map_none, Option.map_eq_none_iff] at he
      subst he
      rw [hr.withinRange, hget]
      cases decide (firstKey es ≤ key ∧ key ≤ lastKey es) <;> simpa using ih
    | some x =>
      obtain ⟨e, hget, he⟩ := hr.get key
      rw [hl, Option.map_some, Option.map_eq_some_iff] at he
      obtain ⟨e, rfl, he⟩ := he
      rw [hr.withinRange_of_lookup (by simp [hl]), hget]
      dsimp only
      rw [Option.some_or, ← live_of_persisted he]
      split <;> rfl

/-! ## Opening the tables of a listing -/

/-- A table that is served again when its file is opened. -/
structure Loadable (fmt : TableFormatKind) (es : List Entry) (timestamp : TimestampType)
    (fileNum : FileNumber) : Prop where
  ne : es ≠ []
  sorted : SortedEntries es
  length : es.length < 2 ^ 31
  small : ∀ e ∈ es, e.Small
  size : fmt = .BlockBased → (fmt.content es timestamp fileNum).length < 2 ^ 63

/-- The directory entry `p` of a level is the file of such a table. -/
structure TableFile (fmt : TableFormatKind) (fs : FileSystem) (level : Bytes)
    (p : Bytes × FileNode) (es : List Entry) (timestamp : TimestampType) (fileNum : FileNumber) :
    Prop where
  node : p.2 = .regular (fmt.content es timestamp fileNum)
  file : fs.file? level p.1 = some (fmt.content es timestamp fileNum)
  loadable : Loadable fmt es timestamp fileNum

/-- **The loop of `initNew`**: readers in the order of the listing. -/
theorem openTables_ok {fmt : TableFormatKind} {fs : FileSystem} {l : List (Bytes × FileNode)}
    {entries : Bytes → List Entry} {timestamp : Bytes → TimestampType} {fileNum : Bytes → FileNumber}
    (lm : LevelManagerImpl) (h : ∀ p ∈ l, TableFile fmt fs (levelName lm.m_levelNum) p
      (entries p.1) (timestamp p.1) (fileNum p.1)) :
    ∃ readers, lm.openTables fmt fs l =
        (.ok (), { lm with m_tableReaders := lm.m_tableReaders ++ readers }) ∧
      ServesAll fs readers (l.map fun p => entries p.1) ∧
      readers.map TableReader.metadata =
        l.map fun p =>
          ⟨fileNum p.1, timestamp p.1, firstKey (entries p.1), lastKey (entries p.1)⟩ := by
  induction l generalizing lm with
  | nil => exact ⟨[], by simp [openTables], .nil, rfl⟩
  | cons p l ih =>
    have hp := h p List.mem_cons_self
    obtain ⟨name, node⟩ := p
    obtain ⟨r, hopen, hserves, hmeta⟩ := @TableFormatKind.openTable_ok _ (lm.pathOf name) _ _ _ _ hp.file
      hp.loadable.ne hp.loadable.sorted hp.loadable.length hp.loadable.small hp.loadable.size
    obtain ⟨readers, hrun, hall, hmetas⟩ :=
      ih { lm with m_tableReaders := lm.m_tableReaders ++ [r] } fun q hq =>
        h q (List.mem_cons_of_mem _ hq)
    have hnode : node = .regular (fmt.content (entries name) (timestamp name) (fileNum name)) :=
      hp.node
    subst hnode
    refine ⟨r :: readers, ?_, .cons hserves hall, ?_⟩
    · simp only [openTables, hopen, hrun]
      simp
    · rw [List.map_cons, List.map_cons, hmetas, hmeta]

theorem openTables_error {fmt : TableFormatKind} {fs : FileSystem} {l : List (Bytes × FileNode)}
    (lm : LevelManagerImpl) (h : ∃ p ∈ l, (∃ content, p.2 = .regular content) ∧
      ∃ f, fmt.openTable fs (lm.pathOf p.1) = .error f) :
    ∃ f lm', lm.openTables fmt fs l = (.error f, lm') := by
  induction l generalizing lm with
  | nil =>
    obtain ⟨p, hp, -⟩ := h
    cases hp
  | cons q l ih =>
    obtain ⟨p, hp, hreg, hfail⟩ := h
    obtain ⟨name, node⟩ := q
    cases node with
    | other =>
      rcases List.mem_cons.1 hp with rfl | hp
      · obtain ⟨content, hc⟩ := hreg
        cases hc
      · exact ih lm ⟨p, hp, hreg, hfail⟩
    | regular content =>
      cases hopen : fmt.openTable fs (lm.pathOf name) with
      | error f =>
        simp only [openTables, hopen]
        exact ⟨f, lm, rfl⟩
      | ok r =>
        simp only [openTables, hopen]
        rcases List.mem_cons.1 hp with rfl | hp
        · obtain ⟨f, hf⟩ := hfail
          rw [hopen] at hf
          cases hf
        · exact ih _ ⟨p, hp, hreg, hfail⟩

theorem openTables_levelNum (fmt : TableFormatKind) (fs : FileSystem) (l : List (Bytes × FileNode))
    (lm : LevelManagerImpl) : (lm.openTables fmt fs l).2.m_levelNum = lm.m_levelNum := by
  induction l generalizing lm with
  | nil => rfl
  | cons p l ih =>
    obtain ⟨name, node⟩ := p
    cases node with
    | other => exact ih lm
    | regular content =>
      simp only [openTables]
      split
      · rfl
      · exact ih _

theorem initNew_levelNum (lm : LevelManagerImpl) (env : Env) (fmt : TableFormatKind)
    (fs : FileSystem) : (lm.initNew env fmt fs).2.m_levelNum = lm.m_levelNum := by
  unfold initNew
  split
  · rfl
  · exact openTables_levelNum ..

/-! ## Writing a table -/

variable (lm : LevelManagerImpl) {env : Env} {fmt : TableFormatKind} {es : List Entry}
  (allocator : FileNumberAllocator) {fs : FileSystem} {d : Dir}

/-- The path of the table that `createTable` writes. -/
def newPath (env : Env) : TablePath := lm.pathOf (generateSSTableFileName env)

/-- The file of the table that `createTable` writes. -/
def newContent (env : Env) (fmt : TableFormatKind) (es : List Entry)
    (allocator : FileNumberAllocator) : Bytes :=
  fmt.content es env.now allocator.counter

/-- `createTable` is the write of the table and a reader more if it returns one. -/
theorem createTable_eq (env : Env) (fmt : TableFormatKind) (es : List Entry) (fs : FileSystem) :
    lm.createTable env fmt es allocator fs =
      let res := fmt.writeTable env (lm.newPath env) es env.now allocator.counter
        (fs.record (.nameDrawn (generateSSTableFileName env)))
      (res.1.map fun r => { lm with m_tableReaders := r :: lm.m_tableReaders }, allocator.next.2,
        res.2) := by
  simp only [createTable, newPath, FileNumberAllocator.next]
  split <;> rename_i heq <;> rw [heq] <;> rfl

theorem createTable_outcome (env : Env) (fmt : TableFormatKind) (es : List Entry) (fs : FileSystem) :
    (lm.createTable env fmt es allocator fs).2.1 = allocator.next.2 ∧
    ∃ res, TableFormatKind.Outcome fmt (lm.newPath env) es env.now allocator.counter
      (fs.record (.nameDrawn (generateSSTableFileName env)))
      (res, (lm.createTable env fmt es allocator fs).2.2) := by
  rw [createTable_eq]
  exact ⟨rfl, _, TableFormatKind.writeTable_outcome ..⟩

theorem createTable_levelNum {lm lm' : LevelManagerImpl} {allocator allocator' : FileNumberAllocator}
    {fs' : FileSystem}
    (h : lm.createTable env fmt es allocator fs = (.ok lm', allocator', fs')) :
    lm'.m_levelNum = lm.m_levelNum := by
  rw [createTable_eq] at h
  generalize fmt.writeTable _ _ _ _ _ _ = res at h
  obtain ⟨res, fs1⟩ := res
  cases res with
  | error f => cases h
  | ok r =>
    cases h
    rfl

theorem createTable_files (env : Env) (fmt : TableFormatKind) (es : List Entry) (fs : FileSystem)
    (l : Bytes) {n : Bytes} (hn : n ≠ generateSSTableFileName env) :
    (lm.createTable env fmt es allocator fs).2.2.file? l n = fs.file? l n := by
  obtain ⟨-, res, h⟩ := lm.createTable_outcome allocator env fmt es fs
  exact h.files l n fun he => hn he.2

theorem createTable_ok (henv : env.NoFault) (hdir : fs.dir? (levelName lm.m_levelNum) = some d)
    (hreg : ∀ p, d.find? (generateSSTableFileName env) = some p → p.2 ≠ .other)
    (hw : fmt.Writable es) (hsort : SortedEntries es) (hlen : es.length < 2 ^ 31)
    (hsize : fmt = .BlockBased → (newContent env fmt es allocator).length < 2 ^ 63) :
    ∃ r, lm.createTable env fmt es allocator fs =
        (.ok { lm with m_tableReaders := r :: lm.m_tableReaders }, allocator.next.2,
          (fs.record (.nameDrawn (generateSSTableFileName env))).addTable (lm.newPath env) d
            (newContent env fmt es allocator)) ∧
      Serves ((fs.record (.nameDrawn (generateSSTableFileName env))).addTable (lm.newPath env) d
        (newContent env fmt es allocator)) r es ∧
      (fmt = .InMemory → ∀ fs', Serves fs' r es) ∧
      r.metadata = ⟨allocator.counter, env.now, firstKey es, lastKey es⟩ := by
  have hdir' : (fs.record (.nameDrawn (generateSSTableFileName env))).dir?
      (lm.newPath env).level = some d := hdir
  obtain ⟨r, hrun, hserves, hmem, hmeta⟩ :=
    TableFormatKind.writeTable_ok henv hdir' hreg hw hsort hlen env.now allocator.counter hsize
  refine ⟨r, ?_, hserves, hmem, hmeta⟩
  rw [createTable_eq, hrun]
  rfl

theorem createTable_snd (henv : env.NoFault) (hdir : fs.dir? (levelName lm.m_levelNum) = some d)
    (hreg : ∀ p, d.find? (generateSSTableFileName env) = some p → p.2 ≠ .other)
    (hw : fmt.Writable es) (hsort : SortedEntries es) (hlen : es.length < 2 ^ 31) :
    (lm.createTable env fmt es allocator fs).2.2 =
      (fs.record (.nameDrawn (generateSSTableFileName env))).addTable (lm.newPath env) d
        (newContent env fmt es allocator) := by
  have hdir' : (fs.record (.nameDrawn (generateSSTableFileName env))).dir?
      (lm.newPath env).level = some d := hdir
  rw [createTable_eq, TableFormatKind.writeTable_eq henv hdir' hreg hw hsort hlen]
  rfl

theorem createTable_error (henv : env.NoFault) (hdir : fs.dir? (levelName lm.m_levelNum) = some d)
    (hreg : ∀ p, d.find? (generateSSTableFileName env) = some p → p.2 ≠ .other)
    (hw : ¬ fmt.Writable es) :
    ∃ f fs', lm.createTable env fmt es allocator fs = (.error f, allocator.next.2, fs') ∧
      (fs' = fs.record (.nameDrawn (generateSSTableFileName env)) ∨
        ∃ c, fs' = (fs.record (.nameDrawn (generateSSTableFileName env))).setDir
          (levelName lm.m_levelNum) (d.insert (generateSSTableFileName env, .regular c)) ∧
            (es = [] → fmt = .BlockBased ∧ c = [])) := by
  have hdir' : (fs.record (.nameDrawn (generateSSTableFileName env))).dir?
      (lm.newPath env).level = some d := hdir
  obtain ⟨f, fs', hrun, hfs'⟩ :=
    TableFormatKind.writeTable_error henv hdir' hreg hw env.now allocator.counter
  refine ⟨f, fs', ?_, hfs'⟩
  rw [createTable_eq, hrun]
  rfl

end LevelManagerImpl

end TinyKv
