import TinyKv.Core.Proof.Levels

/-!
# The storage manager with its levels loaded

`Loaded sm fs readers d`: there is a manager for every level, level 0 has these readers over the
directory `d`, the levels behind it are empty. A `write` loads the levels if they are not
(`write_unloaded`) and then puts one table in front of level 0 or throws (`writeLevel0_ok`,
`writeLevel0_error`); `get_eq` and `compact_eq` are the other two calls.
-/

namespace TinyKv

open Bytes

namespace StorageManagerImpl

/-- The parts of the manager that no call changes. -/
structure SameConfig (sm sm' : StorageManagerImpl) : Prop where
  maxLevel : sm'.m_maxLevel = sm.m_maxLevel
  basePath : sm'.m_basePath = sm.m_basePath
  tableFormat : sm'.m_tableFormat = sm.m_tableFormat

/-- Every level has its manager; only level 0 has tables. -/
structure Loaded (sm : StorageManagerImpl) (fs : FileSystem) (readers : List TableReader)
    (d : Dir) : Prop where
  managers : ∃ rest, sm.m_levelManagers = sm.level0 readers :: rest ∧
    rest.length = sm.m_maxLevel.toInt.toNat ∧ ∀ lm ∈ rest, lm.m_tableReaders = []
  dir : fs.dir? (levelName 0) = some d
  regular : ∀ p ∈ d.toList, p.2 ≠ .other
  base : BaseOk sm.m_maxLevel fs
  nonneg : 0 ≤ sm.m_maxLevel

variable {sm : StorageManagerImpl} {env : Env} {fs : FileSystem} {readers : List TableReader}
  {d : Dir} {es : List Entry}

theorem getFrom_empty {lms : List LevelManagerImpl} (h : ∀ lm ∈ lms, lm.m_tableReaders = [])
    (fs : FileSystem) (key : Bytes) : getFrom fs key lms = .ok none := by
  induction lms with
  | nil => rfl
  | cons lm lms ih =>
    have hnil := h lm List.mem_cons_self
    simp only [getFrom, LevelManagerImpl.getKey, hnil, LevelManagerImpl.getKeyFrom]
    exact ih fun x hx => h x (List.mem_cons_of_mem _ hx)

theorem get_level0 {rest : List LevelManagerImpl}
    (hm : sm.m_levelManagers = sm.level0 readers :: rest)
    (hrest : ∀ lm ∈ rest, lm.m_tableReaders = []) {tables : List (List Entry)}
    (hs : ServesAll fs readers tables) (key : Bytes) :
    sm.get fs key = .ok (live (firstEntry tables key)) := by
  have hlevel : (sm.level0 readers).getKey fs key = .ok (live (firstEntry tables key)) :=
    LevelManagerImpl.getKeyFrom_eq hs key
  rw [get, hm, getFrom, hlevel]
  cases he : live (firstEntry tables key) with
  | none => exact getFrom_empty hrest fs key
  | some e =>
    have ht : e.tombstone = false := by
      simpa using (Option.filter_eq_some_iff.1 he).2
    simp [ht]

/-- **`get`** reads the first table that has the key. -/
theorem get_eq (h : sm.Loaded fs readers d) {tables : List (List Entry)}
    (hs : ServesAll fs readers tables) (key : Bytes) :
    sm.get fs key = .ok (live (firstEntry tables key)) := by
  obtain ⟨rest, hm, -, hrest⟩ := h.managers
  exact get_level0 hm hrest hs key

/-- With a manager for every level, `compact` stays within bounds. -/
theorem compact_of_length (hl : sm.m_levelManagers.length = sm.m_maxLevel.toInt.toNat + 1) :
    sm.compact = .ok none := by
  have key : ∀ ns : List Nat, (∀ n ∈ ns, n < sm.m_maxLevel.toInt.toNat) →
      sm.compactLevels ns = .ok none := by
    intro ns
    induction ns with
    | nil => exact fun _ => rfl
    | cons n ns ih =>
      intro hn
      have hlt := hn n List.mem_cons_self
      rw [compactLevels, List.getElem?_eq_getElem (by omega), List.getElem?_eq_getElem (by omega)]
      exact ih fun m hm => hn m (List.mem_cons_of_mem _ hm)
  rw [compact, if_neg (by omega)]
  exact key _ fun n hn => List.mem_range.1 hn

theorem compact_eq (h : sm.Loaded fs readers d) : sm.compact = .ok none := by
  obtain ⟨rest, hm, hlen, -⟩ := h.managers
  exact compact_of_length (by simp [hm, hlen])

/-! ## Writing -/

theorem write_loaded (h : sm.Loaded fs readers d) (env : Env) (es : List Entry) :
    sm.write env es fs = sm.writeLevel0 env es fs := by
  obtain ⟨rest, hm, -, -⟩ := h.managers
  rw [write, if_neg (by simp [hm])]

theorem write_unloaded (hnil : sm.m_levelManagers = []) (henv : env.NoFault)
    (hbase : BaseOk sm.m_maxLevel fs) (h0 : 0 ≤ sm.m_maxLevel)
    (hmax : sm.m_maxLevel ≠ Int32.maxValue)
    (hreg : ∀ d, fs.dir? (levelName 0) = some d → ∀ p ∈ d.toList, p.2 ≠ .other)
    (hload : sm.Level0Loads env fs readers) (es : List Entry) :
    ∃ sm' fs', sm.write env es fs = sm'.writeLevel0 env es fs' ∧ SameConfig sm sm' ∧
      sm'.m_systemContext = sm.m_systemContext ∧ SameFiles fs fs' ∧
      sm'.Loaded fs' readers ((fs.dir? (levelName 0)).getD SortedMap.empty) := by
  obtain ⟨fs', rest, hinit, hlen, hrest, hsame, hbase', hdir⟩ :=
    initLevels_ok henv hbase h0 hmax hload
  refine ⟨{ sm with m_levelManagers := sm.level0 readers :: rest }, fs', ?_, ⟨rfl, rfl, rfl⟩, rfl,
    hsame, ⟨rest, rfl, hlen, hrest⟩, hdir, ?_, hbase', h0⟩
  · rw [write, if_pos (by simp [hnil]), hinit]
  · intro p hp
    cases hd : fs.dir? (levelName 0) with
    | none =>
      rw [hd] at hp
      cases hp
    | some d =>
      rw [hd] at hp
      exact hreg d hd p hp

/-- The path that the next table of level 0 gets. -/
def newPath (sm : StorageManagerImpl) (env : Env) : TablePath :=
  ⟨sm.m_basePath, levelName 0, generateSSTableFileName env⟩

/-- The content that its file gets. -/
def newContent (sm : StorageManagerImpl) (env : Env) (es : List Entry) : Bytes :=
  sm.m_tableFormat.content es env.now sm.m_systemContext.counter

theorem Loaded.regular_find? (h : sm.Loaded fs readers d) (name : Bytes) :
    ∀ p, d.find? name = some p → p.2 ≠ .other :=
  fun p hp => h.regular p (Keyed.mem_of_lookup hp)

theorem Loaded.le_max (h : sm.Loaded fs readers d) : ((0 : Nat) : Int) ≤ sm.m_maxLevel.toInt := by
  have := h.nonneg
  rwa [Int32.le_iff_toInt_le, Int32.toInt_zero] at this

theorem Loaded.congr (h : sm.Loaded fs readers d) {fs' : FileSystem} (hb : fs'.base = fs.base) :
    sm.Loaded fs' readers d := by
  refine ⟨h.managers, ?_, h.regular, h.base.congr hb, h.nonneg⟩
  rw [← h.dir, FileSystem.dir?, hb]
  rfl

theorem Loaded.setDir (h : sm.Loaded fs readers d) (allocator : FileNumberAllocator)
    {lms : List LevelManagerImpl} {readers' : List TableReader}
    (hm : ∃ rest, lms = sm.level0 readers' :: rest ∧ rest.length = sm.m_maxLevel.toInt.toNat ∧
      ∀ lm ∈ rest, lm.m_tableReaders = []) (name content : Bytes) :
    ({ sm with m_systemContext := allocator, m_levelManagers := lms } : StorageManagerImpl).Loaded
      (fs.setDir (levelName 0) (d.insert (name, .regular content))) readers'
      (d.insert (name, .regular content)) := by
  refine ⟨hm, ?_, ?_, ?_, h.nonneg⟩
  · rw [FileSystem.dir?_setDir, if_pos rfl]
  · intro p hp
    rcases SortedMap.mem_insert hp with rfl | hp
    · simp
    · exact h.regular p hp
  · exact h.base.setDir h.le_max _ fun h0 => absurd h0 (Nat.lt_irrefl 0)

/-- The disk after `writeLevel0` has written a table. -/
def written (sm : StorageManagerImpl) (env : Env) (es : List Entry) (d : Dir) (fs : FileSystem) :
    FileSystem :=
  (fs.record (.nameDrawn (generateSSTableFileName env))).addTable (sm.newPath env) d
    (sm.newContent env es)

@[simp] theorem written_wal (sm : StorageManagerImpl) (env : Env) (es : List Entry) (d : Dir)
    (fs : FileSystem) : (sm.written env es d fs).wal = fs.wal := rfl

theorem written_effects (sm : StorageManagerImpl) (env : Env) (es : List Entry) (d : Dir)
    (fs : FileSystem) : (sm.written env es d fs).effects = fs.effects ++
      [.nameDrawn (generateSSTableFileName env),
        .tableCreated (sm.newPath env) (sm.newContent env es)] := by
  simp [written]

theorem le_written (hdir : fs.dir? (levelName 0) = some d)
    (hfresh : d.find? (generateSSTableFileName env) = none) :
    fs.Le (sm.written env es d fs) := by
  have hdir' : (fs.record (.nameDrawn (generateSSTableFileName env))).dir? (levelName 0) = some d :=
    hdir
  have := (FileSystem.Le.record fs _).trans
    (FileSystem.Le.setDir_insert hdir' hfresh (sm.newContent env es))
  exact this.trans (FileSystem.Le.record _ _)

/-- **One more table** in front of level 0, whatever is in the levels behind it. -/
theorem writeLevel0_eq {rest : List LevelManagerImpl}
    (hm : sm.m_levelManagers = sm.level0 readers :: rest)
    (hdir : fs.dir? (levelName 0) = some d)
    (hreg : ∀ p, d.find? (generateSSTableFileName env) = some p → p.2 ≠ .other)
    (henv : env.NoFault) (hw : sm.m_tableFormat.Writable es) (hsort : SortedEntries es)
    (hlen : es.length < 2 ^ 31)
    (hsize : sm.m_tableFormat = .BlockBased → (sm.newContent env es).length < 2 ^ 63) :
    ∃ r, sm.writeLevel0 env es fs =
        (.ok none, { sm with
          m_systemContext := sm.m_systemContext.next.2
          m_levelManagers := sm.level0 (r :: readers) :: rest }, sm.written env es d fs) ∧
      Serves (sm.written env es d fs) r es ∧
      (sm.m_tableFormat = .InMemory → ∀ fs', Serves fs' r es) := by
  obtain ⟨r, hrun, hserves, hmem, -⟩ := LevelManagerImpl.createTable_ok (sm.level0 readers)
    sm.m_systemContext henv hdir hreg hw hsort hlen hsize
  refine ⟨r, ?_, hserves, hmem⟩
  simp only [writeLevel0, hm, hrun]
  rfl

theorem writeLevel0_ok (h : sm.Loaded fs readers d) (henv : env.NoFault)
    (hw : sm.m_tableFormat.Writable es) (hsort : SortedEntries es) (hlen : es.length < 2 ^ 31)
    (hsize : sm.m_tableFormat = .BlockBased → (sm.newContent env es).length < 2 ^ 63) :
    ∃ r sm', sm.writeLevel0 env es fs = (.ok none, sm', sm.written env es d fs) ∧
      SameConfig sm sm' ∧ Serves (sm.written env es d fs) r es ∧
      (sm.m_tableFormat = .InMemory → ∀ fs', Serves fs' r es) ∧
      sm'.Loaded (sm.written env es d fs) (r :: readers)
        (d.insert (generateSSTableFileName env, .regular (sm.newContent env es))) := by
  obtain ⟨rest, hm, hrestlen, hrest⟩ := h.managers
  obtain ⟨r, hrun, hserves, hmem⟩ :=
    writeLevel0_eq hm h.dir (h.regular_find? _) henv hw hsort hlen hsize
  exact ⟨r, _, hrun, ⟨rfl, rfl, rfl⟩, hserves, hmem,
    (h.setDir _ ⟨rest, rfl, hrestlen, hrest⟩ _ _).congr rfl⟩

theorem writeLevel0_snd (h : sm.Loaded fs readers d) (henv : env.NoFault)
    (hw : sm.m_tableFormat.Writable es) (hsort : SortedEntries es) (hlen : es.length < 2 ^ 31) :
    (sm.writeLevel0 env es fs).2.2 = sm.written env es d fs := by
  obtain ⟨rest, hm, -, -⟩ := h.managers
  have hsnd := LevelManagerImpl.createTable_snd (sm.level0 readers) sm.m_systemContext henv h.dir
    (h.regular_find? _) hw hsort hlen
  simp only [writeLevel0, hm]
  split <;> rename_i heq <;> rw [heq] at hsnd <;> exact hsnd

theorem writeLevel0_error (h : sm.Loaded fs readers d) (henv : env.NoFault)
    (hw : ¬ sm.m_tableFormat.Writable es) :
    ∃ f sm' fs' d', sm.writeLevel0 env es fs = (.error f, sm', fs') ∧ SameConfig sm sm' ∧
      sm'.Loaded fs' readers d' ∧
      fs'.effects = fs.effects ++ [.nameDrawn (generateSSTableFileName env)] ∧ fs'.wal = fs.wal ∧
      (∀ p ∈ d'.toList, p ∈ d.toList ∨ p.1 = generateSSTableFileName env ∧
        (es = [] → sm.m_tableFormat = .BlockBased ∧ p.2 = .regular [])) ∧
      (d.find? (generateSSTableFileName env) = none → fs.Le fs') := by
  obtain ⟨rest, hm, hrestlen, hrest⟩ := h.managers
  obtain ⟨f, fs', hrun, hfs'⟩ := LevelManagerImpl.createTable_error (sm.level0 readers)
    sm.m_systemContext henv h.dir (h.regular_find? _) hw
  have hrun' : sm.writeLevel0 env es fs =
      (.error f, { sm with m_systemContext := sm.m_systemContext.next.2 }, fs') := by
    simp only [writeLevel0, hm, hrun]
  rcases hfs' with rfl | ⟨c, rfl, hc⟩
  · exact ⟨f, _, _, d, hrun', ⟨rfl, rfl, rfl⟩,
      ⟨h.managers, h.dir, h.regular, h.base.congr rfl, h.nonneg⟩, rfl, rfl,
      fun p hp => .inl hp, fun _ => FileSystem.Le.record fs _⟩
  · refine ⟨f, _, _, d.insert (generateSSTableFileName env, .regular c), hrun', ⟨rfl, rfl, rfl⟩,
      ?_, rfl, rfl, fun p hp => ?_, fun hfresh => ?_⟩
    · exact (h.setDir _ ⟨rest, hm, hrestlen, hrest⟩ _ c).congr rfl
    · rcases SortedMap.mem_insert hp with rfl | hp
      · exact .inr ⟨rfl, fun hnil => ⟨(hc hnil).1, by rw [(hc hnil).2]⟩⟩
      · exact .inl hp
    · have hdir : (fs.record (.nameDrawn (generateSSTableFileName env))).dir? (levelName 0) =
          some d := h.dir
      exact (FileSystem.Le.record fs _).trans (FileSystem.Le.setDir_insert hdir hfresh c)

end StorageManagerImpl

end TinyKv
