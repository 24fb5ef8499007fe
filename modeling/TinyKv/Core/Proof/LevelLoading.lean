import TinyKv.Core.Proof.Storage
import TinyKv.Lib.Run

/-!
# Loading the levels is not all or nothing

`initLevels` clears the managers and refills them one level at a time. A level that cannot be loaded
or created ends it there, with the managers of the levels before (`createLevels_cases`), and `write`
neither looks at the error it returns nor at the number of managers, only at whether there are any.

* `loadOk_iff`: which disks and failures leave no manager or all of them.
* `levels_whole_iff`: which runs keep it so and index the managers within bounds.
-/

namespace TinyKv

open Bytes

namespace StorageManagerImpl

/-! ## The levels that stop a load -/

/-- The number `n` has been found in the base directory, but there is no directory with the name
that the manager uses, or a file in it that is not a table. -/
def LevelThrows (sm : StorageManagerImpl) (fs : FileSystem) (discovered : List Nat) (n : Nat) :
    Prop :=
  n ∈ discovered ∧ ∀ d, fs.dir? (levelName n) = some d →
    ∃ p ∈ d.toList, (∃ content, p.2 = .regular content) ∧
      ∃ f, sm.m_tableFormat.openTable fs ((sm.freshLevel n).pathOf p.1) = .error f

/-- The level is new, and its directory cannot be created. -/
def LevelRefused (sm : StorageManagerImpl) (env : Env) (fs : FileSystem) (discovered : List Nat)
    (n : Nat) : Prop :=
  n ∉ discovered ∧ (env.mkdirFault (sm.freshLevel n).m_directoryPath ≠ none ∨
    fs.createDirectory (levelName n) = none)

/-- The base directory is there, and if the managers come to be made, level 0 throws or no level
stops the load. -/
def LoadsWhole (sm : StorageManagerImpl) (env : Env) (fs : FileSystem) : Prop :=
  env.mkdirFault sm.m_basePath = none ∧
  ∀ discovered, discoverLevels sm.m_maxLevel fs.base.toList = .ok discovered →
    reserve sm.m_maxLevel = .ok () →
    0 ≤ sm.m_maxLevel ∧ (sm.LevelThrows fs discovered 0 ∨
      ∀ n : Nat, (n : Int) ≤ sm.m_maxLevel.toInt →
        ¬ sm.LevelThrows fs discovered n ∧ ¬ sm.LevelRefused env fs discovered n)

/-! ## One level -/

variable {sm : StorageManagerImpl} {env : Env} {fs fs' : FileSystem} {discovered : List Nat}
  {n : Nat}

theorem openTables_total {fmt : TableFormatKind} {l : List (Bytes × FileNode)}
    (lm : LevelManagerImpl) (h : ∀ p ∈ l, (∃ content, p.2 = .regular content) →
      ∀ f, fmt.openTable fs (lm.pathOf p.1) ≠ .error f) :
    ∃ lm', lm.openTables fmt fs l = (.ok (), lm') ∧ lm'.m_levelNum = lm.m_levelNum := by
  induction l generalizing lm with
  | nil => exact ⟨lm, rfl, rfl⟩
  | cons p l ih =>
    obtain ⟨name, node⟩ := p
    have hrest := fun q hq => h q (List.mem_cons_of_mem _ hq)
    cases node with
    | other => exact ih lm hrest
    | regular content =>
      cases hopen : fmt.openTable fs (lm.pathOf name) with
      | error f => exact absurd hopen (h _ List.mem_cons_self ⟨content, rfl⟩ f)
      | ok r =>
        simp only [LevelManagerImpl.openTables, hopen]
        exact ih { lm with m_tableReaders := lm.m_tableReaders ++ [r] } hrest

theorem initNew_cases (hn : n ∈ discovered) :
    (sm.LevelThrows fs discovered n ∧
      ∃ f lm, (sm.freshLevel n).initNew env sm.m_tableFormat fs = (.error f, lm)) ∨
    (¬ sm.LevelThrows fs discovered n ∧ ∃ lm, lm.m_levelNum = n ∧
      (sm.freshLevel n).initNew env sm.m_tableFormat fs = (.ok (), lm)) := by
  unfold LevelManagerImpl.initNew
  cases hd : fs.dir? (levelName (sm.freshLevel n).m_levelNum) with
  | none =>
    refine .inl ⟨⟨hn, fun d hd' => ?_⟩, _, _, rfl⟩
    exact absurd (hd.symm.trans hd') (by simp)
  | some d =>
    have hperm := env.order.perm d.toList
    by_cases ht : sm.LevelThrows fs discovered n
    · refine .inl ⟨ht, ?_⟩
      obtain ⟨p, hp, hreg, hopen⟩ := ht.2 d hd
      exact LevelManagerImpl.openTables_error _ ⟨p, hperm.symm.subset hp, hreg, hopen⟩
    · refine .inr ⟨ht, ?_⟩
      obtain ⟨lm, hrun, hnum⟩ := @openTables_total fs sm.m_tableFormat (env.order.list d.toList)
        (sm.freshLevel n) (by
          intro p hp hreg f hopen
          apply ht
          refine ⟨hn, fun d' hd' => ?_⟩
          obtain rfl := Option.some_inj.1 (hd.symm.trans hd')
          exact ⟨p, hperm.subset hp, hreg, f, hopen⟩)
      exact ⟨lm, hnum, hrun⟩

/-- The directories that the load creates change nothing for the other levels. -/
structure SameLevel (fs fs' : FileSystem) (n : Nat) : Prop where
  files : SameFiles fs fs'
  node : fs'.base.find? (levelName n) = fs.base.find? (levelName n)

theorem createDirectory_sameLevel {m : Nat} (h : fs.createDirectory (levelName m) = some fs')
    (hne : n ≠ m) : SameLevel fs fs' n := by
  unfold FileSystem.createDirectory at h
  split at h
  · rename_i hnone
    cases h
    have hdir : fs.dir? (levelName m) = none := by
      unfold FileSystem.dir?
      rw [hnone]
    refine ⟨SameFiles.setDir_empty hdir, ?_⟩
    show (fs.base.insert _).find? _ = _
    rw [SortedMap.find?_insert, if_neg fun he => hne (levelName_injective he).symm]
  · cases h
    exact ⟨.refl fs, rfl⟩
  · cases h

theorem SameLevel.levelThrows_iff (h : SameLevel fs fs' n) :
    sm.LevelThrows fs' discovered n ↔ sm.LevelThrows fs discovered n := by
  simp only [LevelThrows, FileSystem.dir?, h.node, openTable_congr h.files]

theorem SameLevel.levelRefused_iff (h : SameLevel fs fs' n) :
    sm.LevelRefused env fs' discovered n ↔ sm.LevelRefused env fs discovered n := by
  have hcreate : fs'.createDirectory (levelName n) = none ↔
      fs.createDirectory (levelName n) = none := by
    simp only [FileSystem.createDirectory, h.node]
    split <;> simp
  simp only [LevelRefused, hcreate]

/-! ## The loop -/

/-- What the loop over `ns` leaves: managers for all of them, or for those before the first that
stops it. -/
def LoadLeaves (sm : StorageManagerImpl) (env : Env) (fs : FileSystem) (discovered ns : List Nat)
    (res : Except Fault (Option Error) × StorageManagerImpl × FileSystem) : Prop :=
  (∃ ms fs', res = (.ok none, { sm with m_levelManagers := sm.m_levelManagers ++ ms }, fs') ∧
    ms.map LevelManagerImpl.m_levelNum = ns ∧
    ∀ n ∈ ns, ¬ sm.LevelThrows fs discovered n ∧ ¬ sm.LevelRefused env fs discovered n) ∨
  (∃ before n after ms fs' out, ns = before ++ n :: after ∧
    res = (out, { sm with m_levelManagers := sm.m_levelManagers ++ ms }, fs') ∧
    ms.map LevelManagerImpl.m_levelNum = before ∧
    (∀ m ∈ before, ¬ sm.LevelThrows fs discovered m ∧ ¬ sm.LevelRefused env fs discovered m) ∧
    ((sm.LevelThrows fs discovered n ∧ ∃ f, out = .error f) ∨
      (sm.LevelRefused env fs discovered n ∧ ∃ err, out = .ok (some err))))

theorem LoadLeaves.stopped {ns : List Nat} {out : Except Fault (Option Error)}
    (h : (sm.LevelThrows fs discovered n ∧ ∃ f, out = .error f) ∨
      (sm.LevelRefused env fs discovered n ∧ ∃ err, out = .ok (some err))) :
    sm.LoadLeaves env fs discovered (n :: ns) (out, sm, fs) :=
  .inr ⟨[], n, ns, [], fs, out, rfl, by rw [List.append_nil], rfl, nofun, h⟩

theorem LoadLeaves.cons {ns : List Nat} {lm : LevelManagerImpl}
    {res : Except Fault (Option Error) × StorageManagerImpl × FileSystem}
    (h : { sm with m_levelManagers := sm.m_levelManagers ++ [lm] }.LoadLeaves env fs' discovered ns
      res) (hlm : lm.m_levelNum = n)
    (hn : ¬ sm.LevelThrows fs discovered n ∧ ¬ sm.LevelRefused env fs discovered n)
    (hsame : ∀ m ∈ ns, SameLevel fs fs' m) : sm.LoadLeaves env fs discovered (n :: ns) res := by
  have hcons : ∀ ms : List Nat, (∀ m ∈ ms, m ∈ ns) → (∀ m ∈ ms, ¬ sm.LevelThrows fs' discovered m ∧
      ¬ sm.LevelRefused env fs' discovered m) → ∀ m ∈ n :: ms,
        ¬ sm.LevelThrows fs discovered m ∧ ¬ sm.LevelRefused env fs discovered m := by
    intro ms hsub hall m hm
    rcases List.mem_cons.1 hm with rfl | hm
    · exact hn
    · obtain ⟨ht, hr⟩ := hall m hm
      have hm := hsame m (hsub m hm)
      exact ⟨fun h => ht (hm.levelThrows_iff.2 h), fun h => hr (hm.levelRefused_iff.2 h)⟩
  rcases h with ⟨ms, fs'', rfl, hms, hall⟩ |
    ⟨before, m, after, ms, fs'', out, rfl, rfl, hms, hall, hstop⟩
  · exact .inl ⟨lm :: ms, fs'', by simp, by simp [hlm, hms], hcons ns (fun _ h => h) hall⟩
  · have hm := hsame m (by simp)
    refine .inr ⟨n :: before, m, after, lm :: ms, fs'', out, by simp, by simp, by simp [hlm, hms],
      hcons before (fun m hm => List.mem_append_left _ hm) hall, ?_⟩
    exact hstop.imp (fun h => ⟨hm.levelThrows_iff.1 h.1, h.2⟩)
      fun h => ⟨hm.levelRefused_iff.1 h.1, h.2⟩

/-- **Step 2 of `initLevels`**, whatever fails. -/
theorem createLevels_cases {ns : List Nat} (hnd : ns.Nodup) (sm : StorageManagerImpl)
    (fs : FileSystem) :
    sm.LoadLeaves env fs discovered ns (createLevels env discovered ns sm fs) := by
  induction ns generalizing sm fs with
  | nil => exact .inl ⟨[], fs, by simp [createLevels], rfl, nofun⟩
  | cons n ns ih =>
    obtain ⟨hn, hnd⟩ := List.nodup_cons.1 hnd
    simp only [createLevels]
    by_cases hdisc : n ∈ discovered
    · rw [if_pos hdisc]
      have hnot : ¬ sm.LevelRefused env fs discovered n := fun h => h.1 hdisc
      rcases @initNew_cases sm env fs discovered n hdisc with
        ⟨ht, f, lm, hinit⟩ | ⟨ht, lm, hnum, hinit⟩
      · unfold freshLevel at hinit
        rw [hinit]
        exact .stopped (.inl ⟨ht, f, rfl⟩)
      · unfold freshLevel at hinit
        rw [hinit]
        exact (ih hnd _ _).cons hnum ⟨ht, hnot⟩ fun m _ => ⟨.refl fs, rfl⟩
    · rw [if_neg hdisc]
      have hnot : ¬ sm.LevelThrows fs discovered n := fun h => hdisc h.1
      cases hf : env.mkdirFault (sm.freshLevel n).m_directoryPath with
      | some message =>
        have hrefused : sm.LevelRefused env fs discovered n := ⟨hdisc, .inl (by simp [hf])⟩
        unfold freshLevel at hf
        simp only [hf]
        exact .stopped (.inr ⟨hrefused, _, rfl⟩)
      | none =>
        cases hc : fs.createDirectory (levelName n) with
        | none =>
          unfold freshLevel at hf
          simp only [hf]
          exact .stopped (.inr ⟨⟨hdisc, .inr hc⟩, _, rfl⟩)
        | some fs1 =>
          have hready : ¬ sm.LevelRefused env fs discovered n := by
            intro hload
            obtain ⟨-, h | h⟩ := hload
            · exact h hf
            · rw [hc] at h
              cases h
          unfold freshLevel at hf
          simp only [hf]
          exact (ih hnd _ _).cons rfl ⟨hnot, hready⟩ fun m hm =>
            createDirectory_sameLevel hc fun he => hn (he ▸ hm)

/-! ## The whole load -/

/-- No manager, or one for each level, in their order. -/
def AllOrNothing (sm : StorageManagerImpl) : Prop :=
  sm.m_levelManagers = [] ∨
    (sm.m_levelManagers.length : Int) = sm.m_maxLevel.toInt + 1 ∧
      sm.m_levelManagers.map LevelManagerImpl.m_levelNum = List.range sm.m_levelManagers.length

/-- What a load should leave: no manager or all of them, and where `write` goes on to index them
there is one for level 0. -/
structure LoadOk (sm : StorageManagerImpl) (env : Env) (fs : FileSystem) : Prop where
  whole : (sm.initLevels env fs).2.1.AllOrNothing
  indexed : ∀ err, (sm.initLevels env fs).1 = .ok err →
    (sm.initLevels env fs).2.1.m_levelManagers ≠ []

theorem allOrNothing_levelNums (h : sm.m_levelManagers.map LevelManagerImpl.m_levelNum =
    levelNums sm.m_maxLevel) (h0 : 0 ≤ sm.m_maxLevel) : sm.AllOrNothing := by
  rw [Int32.le_iff_toInt_le, Int32.toInt_zero] at h0
  have hlen := congrArg List.length h
  rw [List.length_map, levelNums, List.length_range] at hlen
  refine .inr ⟨by omega, ?_⟩
  rw [h, hlen]
  rfl

theorem not_allOrNothing {before after : List Nat}
    (h : sm.m_levelManagers.map LevelManagerImpl.m_levelNum = before) (hne : before ≠ [])
    (hsplit : levelNums sm.m_maxLevel = before ++ n :: after) : ¬ sm.AllOrNothing := by
  have hlen := congrArg List.length h
  have hall := congrArg List.length hsplit
  rw [List.length_map] at hlen
  rw [levelNums, List.length_range, List.length_append, List.length_cons] at hall
  rintro (hnil | ⟨hfull, -⟩)
  · rw [hnil] at h
    exact hne h.symm
  · omega

theorem eq_zero_of_levelNums {m_maxLevel : Int32} {l : List Nat}
    (h : levelNums m_maxLevel = n :: l) : n = 0 ∧ 0 ≤ m_maxLevel := by
  have hn : n ∈ levelNums m_maxLevel := h ▸ List.mem_cons_self
  rw [mem_levelNums] at hn
  have h0 : 0 ≤ m_maxLevel := by
    rw [Int32.le_iff_toInt_le, Int32.toInt_zero]
    omega
  rw [levelNums_eq h0] at h
  exact ⟨(List.cons.inj h).1.symm, h0⟩

section

variable {ms : List LevelManagerImpl} {out : Except Fault (Option Error)}

theorem loadOk_of_all
    (hinit : sm.initLevels env fs = (.ok none, { sm with m_levelManagers := ms }, fs'))
    (hms : ms.map LevelManagerImpl.m_levelNum = levelNums sm.m_maxLevel) :
    sm.LoadOk env fs ↔ 0 ≤ sm.m_maxLevel := by
  refine ⟨fun h => ?_, fun h0 => ?_⟩
  · have hne := h.indexed none (by rw [hinit])
    rw [hinit] at hne
    obtain ⟨lm, ms, rfl⟩ := List.exists_cons_of_ne_nil hne
    exact (eq_zero_of_levelNums hms.symm).2
  · refine ⟨?_, fun err _ => ?_⟩
    · rw [hinit]
      exact allOrNothing_levelNums hms h0
    · rw [hinit]
      rintro rfl
      rw [levelNums_eq h0] at hms
      cases hms

/-- Level 0 stops the load: without a manager, which only an exception may do. -/
theorem loadOk_of_none (hinit : sm.initLevels env fs = (out, { sm with m_levelManagers := [] }, fs')) :
    sm.LoadOk env fs ↔ ∃ f, out = .error f := by
  refine ⟨fun h => ?_, fun hload => ?_⟩
  · cases out with
    | error f => exact ⟨f, rfl⟩
    | ok err =>
      have hne := h.indexed err (by rw [hinit])
      rw [hinit] at hne
      exact absurd rfl hne
  · obtain ⟨f, rfl⟩ := hload
    refine ⟨?_, fun err he => ?_⟩
    · rw [hinit]
      exact .inl rfl
    · rw [hinit] at he
      cases he

theorem not_loadOk_of_some {before after : List Nat}
    (hinit : sm.initLevels env fs = (out, { sm with m_levelManagers := ms }, fs'))
    (hms : ms.map LevelManagerImpl.m_levelNum = before) (hne : before ≠ [])
    (hsplit : levelNums sm.m_maxLevel = before ++ n :: after) : ¬ sm.LoadOk env fs := by
  intro h
  have hwhole := h.whole
  rw [hinit] at hwhole
  exact absurd hwhole (not_allOrNothing hms hne hsplit)

end

theorem loadOk_createLevels (hinit : sm.initLevels env fs =
      createLevels env discovered (levelNums sm.m_maxLevel) { sm with m_levelManagers := [] } fs) :
    sm.LoadOk env fs ↔ 0 ≤ sm.m_maxLevel ∧
      (sm.LevelThrows fs discovered 0 ∨ ∀ n ∈ levelNums sm.m_maxLevel,
        ¬ sm.LevelThrows fs discovered n ∧ ¬ sm.LevelRefused env fs discovered n) := by
  rcases @createLevels_cases env discovered (levelNums sm.m_maxLevel) List.nodup_range
      { sm with m_levelManagers := [] } fs with
    ⟨ms, fs', hrun, hms, hall⟩ | ⟨before, n, after, ms, fs', out, hsplit, hrun, hms, hall, hstop⟩
  · rw [loadOk_of_all (hinit.trans hrun) hms]
    exact ⟨fun h0 => ⟨h0, .inr hall⟩, fun h => h.1⟩
  · cases before with
    | nil =>
      obtain ⟨rfl, h0⟩ := eq_zero_of_levelNums hsplit
      obtain rfl := List.map_eq_nil_iff.1 hms
      rw [loadOk_of_none (hinit.trans hrun)]
      rcases hstop with ⟨ht, hf⟩ | ⟨hr, err, rfl⟩
      · exact ⟨fun _ => ⟨h0, .inl ht⟩, fun _ => hf⟩
      · refine ⟨nofun, fun h => ?_⟩
        rcases h.2 with ht | hall'
        · exact absurd ht.1 hr.1
        · exact absurd hr (hall' 0 (hsplit ▸ List.mem_cons_self)).2
    | cons m before =>
      refine iff_of_false
        (not_loadOk_of_some (hinit.trans hrun) hms (List.cons_ne_nil _ _) hsplit) fun h => ?_
      obtain ⟨rfl, -⟩ := eq_zero_of_levelNums hsplit
      have hn : n ∈ levelNums sm.m_maxLevel := hsplit ▸ (by simp)
      rcases h.2 with ht | hall'
      · exact absurd ht (hall 0 List.mem_cons_self).1
      · rcases hstop with ⟨ht, -⟩ | ⟨hr, -⟩
        · exact absurd ht (hall' n hn).1
        · exact absurd hr (hall' n hn).2

/-- **A load is all or nothing exactly when** no level behind level 0 can stop it. -/
theorem loadOk_iff (hnil : sm.m_levelManagers = []) : sm.LoadOk env fs ↔ sm.LoadsWhole env fs := by
  cases hbase : env.mkdirFault sm.m_basePath with
  | some message =>
    have hinit : sm.initLevels env fs =
        (.ok (some ⟨("Failed to create base directory: " : Bytes) ++ message⟩), sm, fs) := by
      simp only [initLevels, hbase]
    refine ⟨fun h => ?_, fun h => ?_⟩
    · exact absurd hnil (by simpa [hinit] using h.indexed _ (congrArg Prod.fst hinit))
    · rw [LoadsWhole, hbase] at h
      exact absurd h.1 (Option.some_ne_none _)
  | none =>
    cases hdisc : discoverLevels sm.m_maxLevel fs.base.toList with
    | error f =>
      have hinit : sm.initLevels env fs = (.error f, sm, fs) := by
        simp only [initLevels, hbase, hdisc]
      refine ⟨fun _ => ⟨hbase, fun disc hd => ?_⟩, fun _ => ⟨?_, fun err he => ?_⟩⟩
      · rw [hdisc] at hd
        cases hd
      · rw [hinit]
        exact .inl hnil
      · rw [hinit] at he
        cases he
    | ok discovered =>
      cases hres : reserve sm.m_maxLevel with
      | error f =>
        have hinit : sm.initLevels env fs = (.error f, { sm with m_levelManagers := [] }, fs) := by
          simp only [initLevels, hbase, hdisc, hres]
        refine ⟨fun _ => ⟨hbase, fun disc _ hr => ?_⟩, fun _ => ⟨?_, fun err he => ?_⟩⟩
        · rw [hres] at hr
          cases hr
        · rw [hinit]
          exact .inl rfl
        · rw [hinit] at he
          cases he
      | ok u =>
        have hinit : sm.initLevels env fs = createLevels env discovered (levelNums sm.m_maxLevel)
            { sm with m_levelManagers := [] } fs := by
          simp only [initLevels, hbase, hdisc, hres]
        have hiff : sm.LoadsWhole env fs ↔ 0 ≤ sm.m_maxLevel ∧
            (sm.LevelThrows fs discovered 0 ∨ ∀ n ∈ levelNums sm.m_maxLevel,
              ¬ sm.LevelThrows fs discovered n ∧ ¬ sm.LevelRefused env fs discovered n) := by
          simp only [LoadsWhole, hbase, hdisc, hres, Except.ok.injEq, forall_eq', mem_levelNums,
            true_and, forall_const]
        rw [hiff]
        exact loadOk_createLevels hinit

/-! ## Runs -/

/-- A call of the storage manager. -/
inductive Operation where
  | write (entries : List Entry)
  | get (key : Bytes)
  | compact

/-- One call, on whatever disk it finds: a run covers every change of the files between the calls. -/
def operate (sm : StorageManagerImpl) (c : Operation × Env × FileSystem) :
    Except Fault Unit × StorageManagerImpl :=
  match c with
  | (.write entries, env, fs) =>
    ((sm.write env entries fs).1.map fun _ => (), (sm.write env entries fs).2.1)
  | (.get key, _, fs) => ((sm.get fs key).map fun _ => (), sm)
  | (.compact, _, _) => (sm.compact.map fun _ => (), sm)

/-- The managers are all there or none is, before the call and after it and, if it loads them, when
the load has ended; and no index into them is out of bounds. -/
structure OperationOk (sm : StorageManagerImpl) (c : Operation × Env × FileSystem) : Prop where
  before : sm.AllOrNothing
  after : (sm.operate c).2.AllOrNothing
  load : ∀ entries, c.1 = .write entries → sm.m_levelManagers = [] → sm.LoadOk c.2.1 c.2.2
  compact : sm.compact = .ok none

/-- If the call loads the levels, it loads them as a whole. -/
def OperationLoads (sm : StorageManagerImpl) (c : Operation × Env × FileSystem) : Prop :=
  ∀ entries, c.1 = .write entries → sm.m_levelManagers = [] → sm.LoadsWhole c.2.1 c.2.2

theorem AllOrNothing.compact_eq (h : sm.AllOrNothing) : sm.compact = .ok none := by
  rcases h with hnil | ⟨hlen, -⟩
  · rw [compact, if_pos (by simp [hnil])]
  · by_cases hz : sm.m_levelManagers.length = 0
    · rw [compact, if_pos hz]
    · exact compact_of_length (by omega)

/-- A table more in level 0 keeps the managers. -/
theorem AllOrNothing.writeLevel0 (h : sm.AllOrNothing) (entries : List Entry) :
    (sm.writeLevel0 env entries fs).2.1.AllOrNothing := by
  unfold StorageManagerImpl.writeLevel0
  split
  · exact h
  · rename_i lm rest hm
    split
    · exact h
    · rename_i lm' allocator fs' hcreate
      have hnum := LevelManagerImpl.createTable_levelNum hcreate
      rcases h with hnil | ⟨hlen, hnums⟩
      · rw [hm] at hnil
        cases hnil
      · rw [hm] at hlen hnums
        refine .inr ⟨hlen, ?_⟩
        rw [List.map_cons, hnum]
        exact hnums

/-- **One call** that loads the levels as a whole if it loads them. -/
theorem operate_ok (h : sm.AllOrNothing) {c : Operation × Env × FileSystem}
    (hload : sm.OperationLoads c) : sm.OperationOk c := by
  refine ⟨h, ?_, fun entries hc hnil => (loadOk_iff hnil).2 (hload entries hc hnil), h.compact_eq⟩
  obtain ⟨op, env, fs⟩ := c
  cases op with
  | get key => exact h
  | compact => exact h
  | write entries =>
    show (sm.write env entries fs).2.1.AllOrNothing
    unfold StorageManagerImpl.write
    split
    · rename_i hzero
      have hnil : sm.m_levelManagers = [] := List.length_eq_zero_iff.1 hzero
      have hwhole := ((loadOk_iff hnil).2 (hload entries rfl hnil)).whole
      dsimp only at hwhole
      split
      · rename_i hinit
        rw [hinit] at hwhole
        exact hwhole
      · rename_i hinit
        rw [hinit] at hwhole
        exact hwhole.writeLevel0 entries
    · exact h.writeLevel0 entries

/-- **Every run** of a new storage manager: it is in order exactly when every load it makes is one
that no level behind level 0 stops. -/
theorem levels_whole_iff {sm : StorageManagerImpl} (hnew : sm.m_levelManagers = [])
    (steps : List (Operation × Env × FileSystem)) :
    (∀ done c rest, steps = done ++ c :: rest →
      (Machine.run operate sm done).2.OperationOk c) ↔
    ∀ done c rest, steps = done ++ c :: rest →
      (Machine.run operate sm done).2.OperationLoads c := by
  refine ⟨fun h done c rest hsplit entries hc hnil => ?_, fun h => ?_⟩
  · exact (loadOk_iff hnil).1 ((h done c rest hsplit).load entries hc hnil)
  · -- the managers are all there or none is, along the run
    have hinv : ∀ done rest, steps = done ++ rest → (Machine.run operate sm done).2.AllOrNothing := by
      intro done
      induction done using List.reverseRecOn with
      | nil => exact fun _ _ => .inl hnew
      | append_singleton done c ih =>
        intro rest hsplit
        rw [List.append_assoc, List.singleton_append] at hsplit
        rw [Machine.run_snoc]
        exact (operate_ok (ih _ hsplit) (h done c rest hsplit)).after
    intro done c rest hsplit
    exact operate_ok (hinv done _ hsplit) (h done c rest hsplit)

/-- A storage manager with two levels that has loaded nothing yet. -/
def newTwoLevels : StorageManagerImpl :=
  { m_maxLevel := 1, m_basePath := "", m_tableFormat := .InMemory }

/-- A disk on which the directory of the level `n` has an empty file. -/
def emptyFileAt (n : Nat) : FileSystem :=
  FileSystem.empty.setDir (levelName n) (SortedMap.empty.insert (ofString "junk", .regular []))

/-- A failed load of level 0, and a write that finds the disk in order. -/
def retried : List (Operation × Env × FileSystem) :=
  [(.write [⟨"a", "1", false⟩], {}, emptyFileAt 0),
    (.write [⟨"a", "1", false⟩], {}, FileSystem.empty), (.compact, {}, FileSystem.empty)]

theorem levels_whole_iff_retried : newTwoLevels.m_levelManagers = [] ∧
    ∀ done c rest, retried = done ++ c :: rest →
      (Machine.run operate newTwoLevels done).2.OperationOk c := by
  refine ⟨rfl, (levels_whole_iff rfl retried).2 fun done c rest hsplit => ?_⟩
  rcases done with _ | ⟨a, _ | ⟨b, _ | ⟨x, done⟩⟩⟩
  · obtain ⟨rfl, -⟩ := List.cons.inj hsplit
    refine fun entries _ _ => ⟨rfl, fun discovered hdisc _ => ⟨by decide, .inl ?_⟩⟩
    have hfound : discoverLevels 1 (emptyFileAt 0).base.toList = .ok [0] := by decide +kernel
    cases hfound.symm.trans hdisc
    refine ⟨List.mem_cons_self, fun d hd => ⟨(ofString "junk", .regular []), ?_, ⟨[], rfl⟩, ?_⟩⟩
    · have hdir : (emptyFileAt 0).dir? (levelName 0) =
          some (SortedMap.empty.insert (ofString "junk", .regular [])) := by decide +kernel
      cases hdir.symm.trans hd
      exact List.mem_cons_self
    · exact ⟨.runtimeError "SSTableReader::read(): Failed to read binary from file - file is empty",
        by decide +kernel⟩
  · obtain ⟨rfl, hrest⟩ := List.cons.inj hsplit
    obtain ⟨rfl, -⟩ := List.cons.inj hrest
    have hstate : (Machine.run operate newTwoLevels
        [(.write [⟨"a", "1", false⟩], {}, emptyFileAt 0)]).2 = newTwoLevels := by decide +kernel
    rw [hstate]
    refine fun entries _ _ => ⟨rfl, fun discovered hdisc _ => ⟨by decide, .inr fun n _ => ?_⟩⟩
    have hfound : discoverLevels 1 FileSystem.empty.base.toList = .ok [] := by decide +kernel
    cases hfound.symm.trans hdisc
    refine ⟨fun h => (by cases h.1), fun h => ?_⟩
    rcases h.2 with h | h
    · exact h rfl
    · cases h
  · obtain ⟨-, hrest⟩ := List.cons.inj hsplit
    obtain ⟨-, hlast⟩ := List.cons.inj hrest
    obtain ⟨rfl, -⟩ := List.cons.inj hlast
    exact fun entries hc => (by cases hc)
  · have := congrArg List.length hsplit
    simp [retried] at this

/-- **A file of level 1 that is not a table**: the write that loads the levels throws and leaves one
manager of two. The next write takes that for loaded, and `compact` indexes behind the end. A base
directory that cannot be created leaves no manager, and the write indexes level 0 all the same. -/
theorem partial_load_out_of_bounds :
    (let s := Machine.run operate newTwoLevels [(.write [⟨"a", "1", false⟩], {}, emptyFileAt 1),
      (.write [⟨"a", "1", false⟩], {}, emptyFileAt 1)]
    s.1[1]? = some (.ok ()) ∧ s.2.m_levelManagers.length = 1 ∧ ¬ s.2.AllOrNothing ∧
      s.2.compact = .error .outOfBounds) ∧
    (newTwoLevels.write { mkdirFault := fun _ => some "Read-only file system" } [⟨"a", "1", false⟩]
      FileSystem.empty).1 = .error .outOfBounds := by
  refine ⟨⟨by decide +kernel, by decide +kernel, ?_, by decide +kernel⟩, by decide +kernel⟩
  rintro (hnil | ⟨hlen, -⟩)
  · have := congrArg List.length hnil
    exact absurd this (by decide +kernel)
  · exact absurd hlen (by decide +kernel)

end StorageManagerImpl

end TinyKv
