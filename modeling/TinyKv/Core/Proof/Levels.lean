import TinyKv.Core.StorageManager
import TinyKv.Core.Proof.Level

/-!
# Loading the levels

`initLevels` on a base directory that holds nothing but level directories, with tables at most in
level 0 (`BaseOk`): `initLevels_ok` when every table of level 0 can be opened, `initLevels_error`
when one cannot. Directories that are not there are created, and no file changes (`SameFiles`).
-/

namespace TinyKv

open Bytes

/-! ## Level names -/

theorem levelName_injective {i j : Nat} (h : levelName i = levelName j) : i = j :=
  decimal_injective (List.append_cancel_left h)

theorem matchLevel_levelName (n : Nat) :
    StorageManagerImpl.matchLevel (levelName n) = some (decimal n) := by
  have hl : (("level-" : Bytes)).length = 6 := rfl
  have h1 : (levelName n).take 6 = ("level-" : Bytes) := List.take_left' hl
  have h2 : (levelName n).drop 6 = decimal n := List.drop_left' hl
  have h3 : (decimal n).all isDigit = true := List.all_eq_true.2 fun b hb => isDigit_of_mem_decimal hb
  simp only [StorageManagerImpl.matchLevel, h1, h2, h3, decimal_ne_nil, ne_eq, not_false_eq_true,
    and_self, ↓reduceIte]

theorem stoi_decimal {n : Nat} (h : n < 2 ^ 31) : StorageManagerImpl.stoi (decimal n) = .ok n := by
  rw [StorageManagerImpl.stoi, decimalVal_decimal, if_pos h]

/-! ## Disks that differ in empty directories -/

/-- The same files, log and history. -/
structure SameFiles (fs fs' : FileSystem) : Prop where
  file : ∀ level name, fs'.file? level name = fs.file? level name
  wal : fs'.wal = fs.wal
  effects : fs'.effects = fs.effects

theorem SameFiles.refl (fs : FileSystem) : SameFiles fs fs := ⟨fun _ _ => rfl, rfl, rfl⟩

theorem SameFiles.trans {fs fs' fs'' : FileSystem} (h : SameFiles fs fs')
    (h' : SameFiles fs' fs'') : SameFiles fs fs'' :=
  ⟨fun l n => (h'.file l n).trans (h.file l n), h'.wal.trans h.wal, h'.effects.trans h.effects⟩

theorem SameFiles.le {fs fs' : FileSystem} (h : SameFiles fs fs') : fs.Le fs' :=
  fun l n _ hc => (h.file l n).trans hc

theorem SameFiles.setDir_empty {fs : FileSystem} {level : Bytes} (h : fs.dir? level = none) :
    SameFiles fs (fs.setDir level SortedMap.empty) := by
  refine ⟨fun l n => ?_, rfl, rfl⟩
  simp only [FileSystem.file?, FileSystem.dir?_setDir]
  by_cases hl : level = l
  · subst hl
    simp [h]
  · simp [hl]

theorem SameFiles.createDirectory {fs fs' : FileSystem} {level : Bytes}
    (h : fs.createDirectory level = some fs') : SameFiles fs fs' := by
  obtain ⟨heffects, hwal, hfiles⟩ := FileSystem.createDirectory_files h
  exact ⟨hfiles, hwal, heffects⟩

theorem openTable_of_file_eq {fs fs' : FileSystem} {path : TablePath}
    (h : fs'.file? path.level path.name = fs.file? path.level path.name) (fmt : TableFormatKind) :
    fmt.openTable fs' path = fmt.openTable fs path := by
  cases fmt <;>
    simp only [TableFormatKind.openTable, InMemoryTableFormat.openTable,
      BlockBasedTableFormat.openTable, h]

theorem openTable_congr {fs fs' : FileSystem} (h : SameFiles fs fs') (fmt : TableFormatKind)
    (path : TablePath) : fmt.openTable fs' path = fmt.openTable fs path :=
  openTable_of_file_eq (h.file ..) fmt

theorem openTables_congr {fs fs' : FileSystem} (h : SameFiles fs fs') (fmt : TableFormatKind)
    (l : List (Bytes × FileNode)) (lm : LevelManagerImpl) :
    lm.openTables fmt fs' l = lm.openTables fmt fs l := by
  induction l generalizing lm with
  | nil => rfl
  | cons p l ih =>
    obtain ⟨name, node⟩ := p
    cases node with
    | other => exact ih lm
    | regular c =>
      simp only [LevelManagerImpl.openTables, openTable_congr h]
      split
      · rfl
      · exact ih _

theorem initNew_congr {fs fs' : FileSystem} (h : SameFiles fs fs') (lm : LevelManagerImpl)
    (hdir : fs'.dir? (levelName lm.m_levelNum) = fs.dir? (levelName lm.m_levelNum)) (env : Env)
    (fmt : TableFormatKind) : lm.initNew env fmt fs' = lm.initNew env fmt fs := by
  simp only [LevelManagerImpl.initNew, hdir, openTables_congr h]

/-! ## The base directory -/

/-- Nothing but level directories, and no file behind level 0. -/
structure BaseOk (m_maxLevel : Int32) (fs : FileSystem) : Prop where
  names : ∀ p ∈ fs.base.toList,
    ∃ (i : Nat) (d : Dir), (i : Int) ≤ m_maxLevel.toInt ∧ p = (levelName i, BaseNode.directory d)
  deep : ∀ (i : Nat) (d : Dir), 0 < i → fs.dir? (levelName i) = some d → d = SortedMap.empty

theorem BaseOk.empty (m_maxLevel : Int32) : BaseOk m_maxLevel FileSystem.empty :=
  ⟨fun _ h => (by cases h), fun _ _ _ h => (by cases h)⟩

theorem find?_eq_some_dir {fs : FileSystem} {level : Bytes} {d : Dir} :
    fs.base.find? level = some (level, .directory d) ↔ fs.dir? level = some d := by
  unfold FileSystem.dir?
  refine ⟨fun h => ?_, fun h => ?_⟩
  · rw [h]
  · split at h
    · rename_i l d' hf
      have hk : l = level := Keyed.lookup_key hf
      cases h
      rw [hf, hk]
    · cases h

theorem mem_base_iff {fs : FileSystem} {level : Bytes} {d : Dir} :
    (level, BaseNode.directory d) ∈ fs.base.toList ↔ fs.dir? level = some d := by
  rw [← find?_eq_some_dir, SortedMap.find?, Keyed.lookup_eq_some fs.base.sorted]
  simp

theorem BaseOk.find?_none {m_maxLevel : Int32} {fs : FileSystem} (h : BaseOk m_maxLevel fs)
    {i : Nat} (hi : fs.dir? (levelName i) = none) : fs.base.find? (levelName i) = none := by
  cases hf : fs.base.find? (levelName i) with
  | none => rfl
  | some p =>
    obtain ⟨j, d, -, rfl⟩ := h.names p (Keyed.mem_of_lookup hf)
    have hk : ((levelName j, BaseNode.directory d) : Bytes × BaseNode).1 = levelName i :=
      Keyed.lookup_key hf
    dsimp only at hk
    rw [hk] at hf
    rw [find?_eq_some_dir.1 hf] at hi
    cases hi

theorem BaseOk.congr {m_maxLevel : Int32} {fs fs' : FileSystem} (h : BaseOk m_maxLevel fs)
    (hb : fs'.base = fs.base) : BaseOk m_maxLevel fs' := by
  obtain ⟨base', wal', effects'⟩ := fs'
  subst hb
  exact ⟨h.names, h.deep⟩

theorem BaseOk.setDir {m_maxLevel : Int32} {fs : FileSystem} (h : BaseOk m_maxLevel fs) {i : Nat}
    (hi : (i : Int) ≤ m_maxLevel.toInt) (d : Dir) (hd : 0 < i → d = SortedMap.empty) :
    BaseOk m_maxLevel (fs.setDir (levelName i) d) := by
  refine ⟨fun p hp => ?_, fun j d' hj hd' => ?_⟩
  · rcases SortedMap.mem_insert hp with rfl | hp
    · exact ⟨i, d, hi, rfl⟩
    · exact h.names p hp
  · rw [FileSystem.dir?_setDir] at hd'
    split at hd'
    · rename_i heq
      cases hd'
      exact hd (levelName_injective heq ▸ hj)
    · exact h.deep j d' hj hd'

namespace StorageManagerImpl

theorem discoverLevels_eq {m_maxLevel : Int32} {l : List (Bytes × BaseNode)}
    (h : ∀ p ∈ l, ∃ (i : Nat) (d : Dir), (i : Int) ≤ m_maxLevel.toInt ∧ p = (levelName i, BaseNode.directory d)) :
    ∃ discovered, discoverLevels m_maxLevel l = .ok discovered ∧
      ∀ n, n ∈ discovered ↔ ∃ d, (levelName n, BaseNode.directory d) ∈ l := by
  induction l with
  | nil => exact ⟨[], rfl, by simp⟩
  | cons p l ih =>
    obtain ⟨i, d, hi, rfl⟩ := h p List.mem_cons_self
    obtain ⟨discovered, hrun, hmem⟩ := ih fun q hq => h q (List.mem_cons_of_mem _ hq)
    have hlt : i < 2 ^ 31 := by
      have := m_maxLevel.toInt_lt
      omega
    refine ⟨i :: discovered, ?_, fun n => ?_⟩
    · simp only [discoverLevels, matchLevel_levelName, stoi_decimal hlt, hrun]
      rw [if_neg (by omega)]
    · simp only [List.mem_cons, hmem, Prod.mk.injEq, BaseNode.directory.injEq]
      constructor
      · rintro (rfl | ⟨d', hd'⟩)
        · exact ⟨d, .inl ⟨rfl, rfl⟩⟩
        · exact ⟨d', .inr hd'⟩
      · rintro ⟨d', ⟨hn, -⟩ | hd'⟩
        · exact .inl (levelName_injective hn)
        · exact .inr ⟨d', hd'⟩

/-- The manager that `initLevels` makes for a level before it loads it. -/
def freshLevel (sm : StorageManagerImpl) (levelNum : Nat) : LevelManagerImpl :=
  { m_levelNum := levelNum, m_basePath := sm.m_basePath }

/-- The manager of level 0 with these tables. -/
def level0 (sm : StorageManagerImpl) (readers : List TableReader) : LevelManagerImpl :=
  { sm.freshLevel 0 with m_tableReaders := readers }

/-- `initLevels` makes `lm` of level `n`: the directory is there and loads, or the level is new. -/
def Ready (sm : StorageManagerImpl) (env : Env) (discovered : List Nat) (fs : FileSystem) (n : Nat)
    (lm : LevelManagerImpl) : Prop :=
  (n ∈ discovered ∧ (fs.dir? (levelName n)).isSome ∧
    (sm.freshLevel n).initNew env sm.m_tableFormat fs = (.ok (), lm)) ∨
  (n ∉ discovered ∧ fs.dir? (levelName n) = none ∧ lm = sm.freshLevel n)

theorem Ready.congr {sm : StorageManagerImpl} {env : Env} {discovered : List Nat}
    {fs fs' : FileSystem} {n : Nat} {lm : LevelManagerImpl} (h : Ready sm env discovered fs n lm)
    (hsame : SameFiles fs fs') (hdir : fs'.dir? (levelName n) = fs.dir? (levelName n)) :
    Ready sm env discovered fs' n lm := by
  unfold Ready
  rw [hdir, initNew_congr hsame (sm.freshLevel n) hdir]
  exact h

/-- **Step 2 of `initLevels`**, when every level loads or is new: `load n` is the manager of level
`n`, and the directories of the levels that are new are created. -/
theorem createLevels_ok {env : Env} (henv : env.NoFault) {discovered : List Nat}
    {m_maxLevel : Int32} {load : Nat → LevelManagerImpl} {ns : List Nat} :
    ∀ (sm : StorageManagerImpl) (fs : FileSystem), ns.Nodup → BaseOk m_maxLevel fs →
      (∀ n ∈ ns, (n : Int) ≤ m_maxLevel.toInt ∧ Ready sm env discovered fs n (load n)) →
      ∃ fs', createLevels env discovered ns sm fs =
          (.ok none, { sm with m_levelManagers := sm.m_levelManagers ++ ns.map load }, fs') ∧
        SameFiles fs fs' ∧ BaseOk m_maxLevel fs' ∧
        ∀ n, fs'.dir? (levelName n) =
          (fs.dir? (levelName n)).or (if n ∈ ns then some SortedMap.empty else none) := by
  induction ns with
  | nil =>
    intro sm fs _ hbase _
    refine ⟨fs, ?_, .refl fs, hbase, by simp⟩
    simp [createLevels]
  | cons n ns ih =>
    intro sm fs hnd hbase h
    obtain ⟨hn, hnd⟩ := List.nodup_cons.1 hnd
    obtain ⟨hle, hcase⟩ := h n List.mem_cons_self
    have hrest := fun x hx => h x (List.mem_cons_of_mem n hx)
    rcases hcase with ⟨hdisc, hsome, hload⟩ | ⟨hdisc, hnone, hload⟩
    · -- a level that is there
      obtain ⟨fs', hrun, hsame, hbase', hdir⟩ :=
        ih { sm with m_levelManagers := sm.m_levelManagers ++ [load n] } fs hnd hbase hrest
      refine ⟨fs', ?_, hsame, hbase', fun m => ?_⟩
      · unfold freshLevel at hload
        simp only [createLevels, if_pos hdisc, hload, hrun]
        simp
      · rw [hdir]
        obtain ⟨d, hd⟩ := Option.isSome_iff_exists.1 hsome
        by_cases hm : m = n
        · subst hm
          simp [hd]
        · simp [hm]
    · -- a level whose directory is created: the levels after it see the same files
      have hsame1 := SameFiles.setDir_empty hnone
      have hdir1 : ∀ m, m ≠ n → (fs.setDir (levelName n) SortedMap.empty).dir? (levelName m) =
          fs.dir? (levelName m) := by
        intro m hm
        rw [FileSystem.dir?_setDir, if_neg fun he => hm (levelName_injective he).symm]
      obtain ⟨fs', hrun, hsame, hbase', hdir⟩ :=
        ih { sm with m_levelManagers := sm.m_levelManagers ++ [load n] }
          (fs.setDir (levelName n) SortedMap.empty) hnd (hbase.setDir hle _ fun _ => rfl)
          fun m hm => ⟨(hrest m hm).1, (hrest m hm).2.congr hsame1 (hdir1 m fun he => hn (he ▸ hm))⟩
      refine ⟨fs', ?_, hsame1.trans hsame, hbase', fun m => ?_⟩
      · have hcreate : fs.createDirectory (levelName n) =
            some (fs.setDir (levelName n) SortedMap.empty) := by
          rw [FileSystem.createDirectory, hbase.find?_none hnone]
        unfold freshLevel at hload
        simp only [createLevels, if_neg hdisc, henv.mkdir, hcreate]
        rw [← hload, hrun]
        simp
      · rw [hdir]
        by_cases hm : m = n
        · subst hm
          rw [FileSystem.dir?_setDir]
          simp [hnone]
        · rw [hdir1 m hm]
          simp [hm]

theorem createLevels_leaves (env : Env) (discovered ns : List Nat) (sm : StorageManagerImpl)
    (fs : FileSystem) :
    ∃ ms fs', (createLevels env discovered ns sm fs).2 =
        ({ sm with m_levelManagers := sm.m_levelManagers ++ ms }, fs') ∧
      ms.map LevelManagerImpl.m_levelNum <+: ns ∧ SameFiles fs fs' := by
  have hstop : ∃ ms fs', (sm, fs) =
        ({ sm with m_levelManagers := sm.m_levelManagers ++ ms }, fs') ∧
      ms.map LevelManagerImpl.m_levelNum <+: ns ∧ SameFiles fs fs' :=
    ⟨[], fs, by simp, List.nil_prefix, .refl fs⟩
  induction ns generalizing sm fs with
  | nil => exact hstop
  | cons n ns ih =>
    have hnext : ∀ (lm : LevelManagerImpl) (fs1 : FileSystem), lm.m_levelNum = n →
        SameFiles fs fs1 → ∃ ms fs', (createLevels env discovered ns
            { sm with m_levelManagers := sm.m_levelManagers ++ [lm] } fs1).2 =
          ({ sm with m_levelManagers := sm.m_levelManagers ++ ms }, fs') ∧
        ms.map LevelManagerImpl.m_levelNum <+: n :: ns ∧ SameFiles fs fs' := by
      intro lm fs1 hlm hsame
      obtain ⟨ms, fs', hrun, hms, hsame'⟩ :=
        ih { sm with m_levelManagers := sm.m_levelManagers ++ [lm] } fs1
          ⟨[], fs1, by simp, List.nil_prefix, .refl fs1⟩
      refine ⟨lm :: ms, fs', ?_, ?_, hsame.trans hsame'⟩
      · rw [hrun, List.append_assoc]
        rfl
      · rw [List.map_cons, hlm]
        exact List.prefix_cons_inj n |>.2 hms
    simp only [createLevels]
    split
    · split
      · exact hstop
      · rename_i lm hinit
        have hnum := LevelManagerImpl.initNew_levelNum
          { m_levelNum := n, m_basePath := sm.m_basePath } env sm.m_tableFormat fs
        rw [hinit] at hnum
        exact hnext lm fs hnum (.refl fs)
    · split
      · exact hstop
      · split
        · exact hstop
        · rename_i hc
          exact hnext _ _ rfl (SameFiles.createDirectory hc)

theorem reserve_ok {m_maxLevel : Int32} (h0 : 0 ≤ m_maxLevel) (hmax : m_maxLevel ≠ Int32.maxValue) :
    reserve m_maxLevel = .ok () := by
  have hlt : ¬ m_maxLevel < -1 := by
    have hneg : (-1 : Int32).toInt = -1 := by decide
    rw [Int32.lt_iff_toInt_lt, hneg]
    rw [Int32.le_iff_toInt_le, Int32.toInt_zero] at h0
    omega
  rw [reserve, if_neg hmax, if_neg hlt]

theorem mem_levelNums {m_maxLevel : Int32} {n : Nat} :
    n ∈ levelNums m_maxLevel ↔ (n : Int) ≤ m_maxLevel.toInt := by
  simp only [levelNums, List.mem_range]
  omega

theorem levelNums_eq {m_maxLevel : Int32} (h0 : 0 ≤ m_maxLevel) :
    levelNums m_maxLevel = 0 :: (List.range m_maxLevel.toInt.toNat).map (· + 1) := by
  rw [Int32.le_iff_toInt_le, Int32.toInt_zero] at h0
  rw [levelNums, show (m_maxLevel.toInt + 1).toNat = m_maxLevel.toInt.toNat + 1 by omega,
    List.range_succ_eq_map]

/-- Level 0 as the listing of its directory loads it; without a directory there is nothing to
load. -/
def Level0Loads (sm : StorageManagerImpl) (env : Env) (fs : FileSystem)
    (readers : List TableReader) : Prop :=
  match fs.dir? (levelName 0) with
  | none => readers = []
  | some d => (sm.freshLevel 0).openTables sm.m_tableFormat fs (env.order.list d.toList) =
      (.ok (), sm.level0 readers)

section InitLevels

variable {sm : StorageManagerImpl} {env : Env} {fs : FileSystem}

theorem initNew_empty {lm : LevelManagerImpl} {fmt : TableFormatKind}
    (h : fs.dir? (levelName lm.m_levelNum) = some SortedMap.empty) :
    lm.initNew env fmt fs = (.ok (), lm) := by
  have hlist : env.order.list (SortedMap.empty : Dir).toList = [] := (env.order.perm []).eq_nil
  simp only [LevelManagerImpl.initNew, h, hlist, LevelManagerImpl.openTables]

/-- The manager of level `n` after a load: only level 0 has tables. -/
def loadedLevel (sm : StorageManagerImpl) (readers : List TableReader) (n : Nat) :
    LevelManagerImpl :=
  if n = 0 then sm.level0 readers else sm.freshLevel n

theorem ready_loadedLevel (hbase : BaseOk sm.m_maxLevel fs) {readers : List TableReader}
    (hload : sm.Level0Loads env fs readers) {discovered : List Nat}
    (hmem : ∀ n, n ∈ discovered ↔ (fs.dir? (levelName n)).isSome) (n : Nat) :
    Ready { sm with m_levelManagers := [] } env discovered fs n (sm.loadedLevel readers n) := by
  unfold loadedLevel
  cases hd : fs.dir? (levelName n) with
  | none =>
    refine .inr ⟨by rw [hmem, hd]; simp, hd, ?_⟩
    by_cases hz : n = 0
    · subst hz
      simp only [Level0Loads, hd] at hload
      simp only [↓reduceIte, hload]
      rfl
    · rw [if_neg hz]
      rfl
  | some d =>
    refine .inl ⟨by rw [hmem, hd]; rfl, by rw [hd]; rfl, ?_⟩
    by_cases hz : n = 0
    · subst hz
      simp only [Level0Loads, hd] at hload
      simp only [↓reduceIte, LevelManagerImpl.initNew, freshLevel, hd]
      exact hload
    · rw [hbase.deep n d (Nat.pos_of_ne_zero hz) hd] at hd
      rw [if_neg hz]
      exact initNew_empty hd

/-- **`initLevels`**, whatever fails: at most the managers and the directories change. -/
theorem initLevels_leaves (sm : StorageManagerImpl) (env : Env) (fs : FileSystem) :
    ∃ ms fs', (sm.initLevels env fs).2 = ({ sm with m_levelManagers := ms }, fs') ∧
      (ms = sm.m_levelManagers ∨
        ms.map LevelManagerImpl.m_levelNum <+: levelNums sm.m_maxLevel) ∧ SameFiles fs fs' := by
  simp only [initLevels]
  split
  · exact ⟨_, fs, rfl, .inl rfl, .refl fs⟩
  · split
    · exact ⟨_, fs, rfl, .inl rfl, .refl fs⟩
    · split
      · exact ⟨[], fs, rfl, .inr List.nil_prefix, .refl fs⟩
      · obtain ⟨ms, fs', hrun, hms, hsame⟩ := createLevels_leaves env _
          (levelNums sm.m_maxLevel) { sm with m_levelManagers := [] } fs
        exact ⟨ms, fs', hrun, .inr hms, hsame⟩

/-- **`initLevels`** when level 0 loads: its readers, and nothing in the levels behind it. -/
theorem initLevels_ok (henv : env.NoFault) (hbase : BaseOk sm.m_maxLevel fs)
    (h0 : 0 ≤ sm.m_maxLevel) (hmax : sm.m_maxLevel ≠ Int32.maxValue) {readers : List TableReader}
    (hload : sm.Level0Loads env fs readers) :
    ∃ fs' rest, sm.initLevels env fs = (.ok none, { sm with
        m_levelManagers := sm.level0 readers :: rest }, fs') ∧
      rest.length = sm.m_maxLevel.toInt.toNat ∧ (∀ lm ∈ rest, lm.m_tableReaders = []) ∧
      SameFiles fs fs' ∧ BaseOk sm.m_maxLevel fs' ∧
      fs'.dir? (levelName 0) = some ((fs.dir? (levelName 0)).getD SortedMap.empty) := by
  obtain ⟨discovered, hdisc, hmem⟩ := discoverLevels_eq hbase.names
  have hmem' : ∀ n, n ∈ discovered ↔ (fs.dir? (levelName n)).isSome := fun n => by
    rw [hmem, Option.isSome_iff_exists]
    exact exists_congr fun d => mem_base_iff
  have hnodup : (levelNums sm.m_maxLevel).Nodup := List.nodup_range
  obtain ⟨fs', hrun, hsame, hbase', hdir⟩ := createLevels_ok henv
    { sm with m_levelManagers := [] } fs hnodup hbase
    fun n hn => ⟨mem_levelNums.1 hn, ready_loadedLevel hbase hload hmem' n⟩
  refine ⟨fs', ((List.range sm.m_maxLevel.toInt.toNat).map (· + 1)).map (sm.loadedLevel readers), ?_,
    by simp, ?_, hsame, hbase', ?_⟩
  · simp only [initLevels, henv.mkdir, hdisc, reserve_ok h0 hmax]
    rw [hrun, levelNums_eq h0]
    rfl
  · intro lm hlm
    obtain ⟨n, hn, rfl⟩ := List.mem_map.1 hlm
    obtain ⟨m, -, rfl⟩ := List.mem_map.1 hn
    rfl
  · have h0mem : 0 ∈ levelNums sm.m_maxLevel := by
      rw [levelNums_eq h0]
      exact List.mem_cons_self
    rw [hdir, if_pos h0mem]
    cases fs.dir? (levelName 0) <;> rfl

theorem initLevels_error (henv : env.NoFault) (hbase : BaseOk sm.m_maxLevel fs)
    (h0 : 0 ≤ sm.m_maxLevel) (hmax : sm.m_maxLevel ≠ Int32.maxValue) {d : Dir}
    (hdir : fs.dir? (levelName 0) = some d) {f : Fault} {lm : LevelManagerImpl}
    (hopen : (sm.freshLevel 0).openTables sm.m_tableFormat fs (env.order.list d.toList) =
      (.error f, lm)) :
    sm.initLevels env fs = (.error f, { sm with m_levelManagers := [] }, fs) := by
  obtain ⟨discovered, hdisc, hmem⟩ := discoverLevels_eq hbase.names
  have h0mem : 0 ∈ discovered := (hmem 0).2 ⟨d, mem_base_iff.2 hdir⟩
  have hinit : ({ m_levelNum := 0, m_basePath := sm.m_basePath } : LevelManagerImpl).initNew env
      sm.m_tableFormat fs = (.error f, lm) := by
    simp only [LevelManagerImpl.initNew, hdir]
    exact hopen
  simp only [initLevels, henv.mkdir, hdisc, reserve_ok h0 hmax, levelNums_eq h0, createLevels,
    if_pos h0mem, hinit]

/-- The overflow in the argument of `reserve` comes after the managers have been cleared. -/
theorem initLevels_overflow (henv : env.NoFault) (hbase : BaseOk sm.m_maxLevel fs)
    (hmax : sm.m_maxLevel = Int32.maxValue) :
    sm.initLevels env fs = (.error .signedOverflow, { sm with m_levelManagers := [] }, fs) := by
  obtain ⟨discovered, hdisc, -⟩ := discoverLevels_eq hbase.names
  simp only [initLevels, henv.mkdir, hdisc, reserve, if_pos hmax]

end InitLevels

end StorageManagerImpl

end TinyKv
