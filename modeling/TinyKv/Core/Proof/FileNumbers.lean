import TinyKv.Core.Proof.Lifetimes

/-!
# File numbers over several process lifetimes

Every process counts its file numbers from 0 again: a new `SystemContext` does not know the tables on
the disk, and nothing restores its allocator.

* `ageOrdered_iff_seeded`: the numbers order the tables by age in every state of a run exactly when
  every write that creates a table finds the counter above the numbers that stay on the disk.
* `ageOrdered_of_one_lifetime`: without a restart they always do.
-/

namespace TinyKv

open Bytes

namespace Lifetimes

/-- Of two tables on the disk the one created later is the larger one for `operator<`. -/
def AgeOrdered (fmt : TableFormatKind) (x : Lifetimes) : Prop :=
  ∀ (i j : Nat) (t t' : DiskTable) (r r' : TableReader),
    x.tables[i]? = some t → x.tables[j]? = some t' →
    fmt.openTable x.fs t.path = .ok r → fmt.openTable x.fs t'.path = .ok r' →
    (r.metadata.lt r'.metadata = true ↔ i < j)

/-- The allocator is above the number of every table on the disk that has another name. -/
def Above (fmt : TableFormatKind) (x : Lifetimes) (name : Bytes) : Prop :=
  ∀ t ∈ x.tables, t.path.name ≠ name → ∀ r, fmt.openTable x.fs t.path = .ok r →
    r.metadata.m_file_number < x.sm.m_systemContext.counter

/-- A write that gets to create its table finds the allocator above the others. -/
def Seeded (fmt : TableFormatKind) (x : Lifetimes) : ProcessStep → Prop
  | .restart | .initLevels _ => True
  | .write env entries =>
    let fs := (x.sm.write env entries x.fs).2.2
    ∀ t ∈ x.newTables fs, ∀ r, fmt.openTable fs t.path = .ok r →
      x.Above fmt (generateSSTableFileName env)

/-! ## The order is kept -/

variable {fmt : TableFormatKind} {config : DbFactoryConfig} {x : Lifetimes}
  {sm : StorageManagerImpl} {fs : FileSystem}

/-- The first table has the smaller number. -/
def Older (fmt : TableFormatKind) (fs : FileSystem) (t t' : DiskTable) : Prop :=
  ∀ r r', fmt.openTable fs t.path = .ok r → fmt.openTable fs t'.path = .ok r' →
    r.metadata.m_file_number < r'.metadata.m_file_number

theorem ageOrdered_iff : x.AgeOrdered fmt ↔ x.tables.Pairwise (Older fmt x.fs) := by
  refine ⟨fun h => ?_, fun h => ?_⟩
  · refine List.pairwise_iff_getElem.2 fun i j hi hj hij r r' hr hr' => ?_
    have hlt := (h i j _ _ r r' (List.getElem?_eq_getElem hi) (List.getElem?_eq_getElem hj) hr hr').2 hij
    rwa [SSTableMetadata.lt, decide_eq_true_iff] at hlt
  · have hlt : ∀ {i j : Nat} {t t' : DiskTable} {r r' : TableReader}, i < j →
        x.tables[i]? = some t → x.tables[j]? = some t' → fmt.openTable x.fs t.path = .ok r →
        fmt.openTable x.fs t'.path = .ok r' →
        r.metadata.m_file_number < r'.metadata.m_file_number := by
      intro i j t t' r r' hij hi hj hr hr'
      obtain ⟨hilen, rfl⟩ := List.getElem?_eq_some_iff.1 hi
      obtain ⟨hjlen, rfl⟩ := List.getElem?_eq_some_iff.1 hj
      exact List.pairwise_iff_getElem.1 h i j hilen hjlen hij r r' hr hr'
    intro i j t t' r r' hi hj hr hr'
    rw [SSTableMetadata.lt, decide_eq_true_iff]
    refine ⟨fun hnum => ?_, fun hij => hlt hij hi hj hr hr'⟩
    rcases Nat.lt_trichotomy i j with hij | rfl | hij
    · exact hij
    · cases hi.symm.trans hj
      cases hr.symm.trans hr'
      exact absurd hnum (UInt64.lt_irrefl _)
    · exact absurd (hlt hij hj hi hr' hr) (UInt64.lt_asymm hnum)

/-- The tables are in level 0, in the files they were created as. -/
structure Placed (fmt : TableFormatKind) (x : Lifetimes) : Prop where
  format : x.sm.m_tableFormat = fmt
  level0 : x.sm.Level0First
  level : ∀ t ∈ x.tables, t.path.level = levelName 0
  file : ∀ t ∈ x.tables, x.fs.file? t.path.level t.path.name = some t.content

/-- A table that stays is the same table. -/
theorem Placed.mem_keptTables (h : Placed fmt x) {t : DiskTable} (ht : t ∈ x.keptTables fs) :
    t ∈ x.tables ∧ fs.file? t.path.level t.path.name = some t.content ∧
      (∀ fmt : TableFormatKind, fmt.openTable fs t.path = fmt.openTable x.fs t.path) ∧
      ∀ t' ∈ x.newTables fs, t'.place ≠ t.place := by
  obtain ⟨hmem, hkeep⟩ := List.mem_filter.1 ht
  obtain ⟨hfile, hplace⟩ := of_decide_eq_true hkeep
  exact ⟨hmem, hfile, openTable_of_file_eq (hfile.trans (h.file t hmem).symm), hplace⟩

theorem Placed.moveTo (h : Placed fmt x) (hformat : sm.m_tableFormat = fmt)
    (hlevel0 : sm.Level0First) (hlevel : ∀ t ∈ x.newTables fs, t.path.level = levelName 0)
    (hfile : ∀ t ∈ x.newTables fs, fs.file? t.path.level t.path.name = some t.content) :
    Placed fmt (x.moveTo sm fs) := by
  refine ⟨hformat, hlevel0, fun t ht => ?_, fun t ht => ?_⟩
  · rcases List.mem_append.1 ht with ht | ht
    · exact h.level t (h.mem_keptTables ht).1
    · exact hlevel t ht
  · rcases List.mem_append.1 ht with ht | ht
    · exact (h.mem_keptTables ht).2.1
    · exact hfile t ht

/-- **The tables that stay** keep their order, so it is for the new ones to come behind them. -/
theorem Placed.ordered_moveTo (h : Placed fmt x) (ho : x.AgeOrdered fmt) :
    (x.moveTo sm fs).AgeOrdered fmt ↔ (x.newTables fs).Pairwise (Older fmt fs) ∧
      ∀ t ∈ x.keptTables fs, ∀ t' ∈ x.newTables fs, Older fmt fs t t' := by
  have hkept : (x.keptTables fs).Pairwise (Older fmt fs) := by
    refine ((ageOrdered_iff.1 ho).sublist List.filter_sublist).imp_of_mem fun {t t'} ht ht' hold => ?_
    obtain ⟨-, -, hopen, -⟩ := h.mem_keptTables ht
    obtain ⟨-, -, hopen', -⟩ := h.mem_keptTables ht'
    intro r r' hr hr'
    exact hold r r' ((hopen fmt).symm.trans hr) ((hopen' fmt).symm.trans hr')
  rw [ageOrdered_iff]
  exact List.pairwise_append.trans (and_iff_right hkept)

theorem Placed.moveTo_nil (h : Placed fmt x) (hformat : sm.m_tableFormat = fmt)
    (hlevel0 : sm.Level0First) (hnil : x.newTables fs = []) :
    Placed fmt (x.moveTo sm fs) ∧ (x.AgeOrdered fmt → (x.moveTo sm fs).AgeOrdered fmt) := by
  have hnone : ∀ t, t ∉ x.newTables fs := fun t ht => by
    rw [hnil] at ht
    cases ht
  refine ⟨h.moveTo hformat hlevel0 (fun t ht => absurd ht (hnone t))
    fun t ht => absurd ht (hnone t), fun ho => (h.ordered_moveTo ho).2 ⟨?_, ?_⟩⟩
  · rw [hnil]
    exact .nil
  · exact fun _ _ t ht => absurd ht (hnone t)

section Write

variable {env : Env} {es : List Entry} {t : DiskTable}

/-- A write that creates the table `t`. -/
structure CreatesTable (x : Lifetimes) (env : Env) (es : List Entry) (t : DiskTable) : Prop where
  one : x.newTables (x.sm.write env es x.fs).2.2 = [t]
  new : NewTable x.sm.m_tableFormat env es x.sm.m_systemContext.counter
    (x.sm.write env es x.fs).2.2 t
  size : t.content ∈ tableContents (x.sm.write env es x.fs).2.2.effects
  context : (x.sm.write env es x.fs).2.1.m_systemContext = x.sm.m_systemContext.next.2

theorem write_cases (h : x.sm.Level0First) (env : Env) (es : List Entry) :
    (x.newTables (x.sm.write env es x.fs).2.2 = [] ∧
      ((x.sm.write env es x.fs).2.1.m_systemContext = x.sm.m_systemContext ∨
        (x.sm.write env es x.fs).2.1.m_systemContext = x.sm.m_systemContext.next.2)) ∨
    ∃ t, x.CreatesTable env es t := by
  have hw := @StorageManagerImpl.write_tables x.sm env es x.fs h
  obtain ⟨more, heff, htables⟩ := hw.tables
  have hnewTables : x.newTables (x.sm.write env es x.fs).2.2 = createdFiles more := by
    rw [newTables, heff, List.drop_left]
  rcases htables with ⟨hnil, hctx⟩ | ⟨hnil, hctx⟩ | ⟨t, hcreated, hctx, hnew⟩
  · exact .inl ⟨hnewTables.trans hnil, .inl hctx⟩
  · exact .inl ⟨hnewTables.trans hnil, .inr hctx⟩
  · refine .inr ⟨t, hnewTables.trans hcreated, hnew, ?_, hctx⟩
    rw [heff, tableContents_append, ← map_content_createdFiles more, hcreated]
    exact List.mem_append_right _ List.mem_cons_self

theorem Placed.mem_keptTables_iff (h : Placed fmt x) (hc : x.CreatesTable env es t)
    {t₀ : DiskTable} : t₀ ∈ x.keptTables (x.sm.write env es x.fs).2.2 ↔
      t₀ ∈ x.tables ∧ t₀.path.name ≠ generateSSTableFileName env := by
  refine ⟨fun ht₀ => ?_, ?_⟩
  · obtain ⟨hmem, -, -, hplace⟩ := h.mem_keptTables ht₀
    refine ⟨hmem, fun he => ?_⟩
    apply hplace t (hc.one ▸ List.mem_cons_self)
    rw [DiskTable.place, DiskTable.place, hc.new.level, hc.new.name, h.level t₀ hmem, he]
  · intro ⟨hmem, hname⟩
    have hfiles := (@StorageManagerImpl.write_tables x.sm env es x.fs h.level0).files
    refine List.mem_filter.2 ⟨hmem, decide_eq_true ⟨?_, fun t' ht' hplace => ?_⟩⟩
    · rw [hfiles _ _ hname, h.file t₀ hmem]
    · rw [hc.one, List.mem_singleton] at ht'
      subst ht'
      exact hname ((Prod.mk.inj hplace).2.symm.trans hc.new.name)

theorem Placed.number_eq (h : Placed fmt x) (hc : x.CreatesTable env es t)
    (hsize : t.content.length < 2 ^ 63) {r : TableReader}
    (hr : fmt.openTable (x.sm.write env es x.fs).2.2 t.path = .ok r) :
    r.metadata.m_file_number = x.sm.m_systemContext.counter := by
  rw [← h.format] at hr
  exact TableFormatKind.fileNumber_of_encodes hc.new.encodes hsize hc.new.file hr

theorem Placed.ordered_write_iff (h : Placed fmt x) (ho : x.AgeOrdered fmt)
    (hc : x.CreatesTable env es t) (hsize : t.content.length < 2 ^ 63) :
    (x.moveTo (x.sm.write env es x.fs).2.1 (x.sm.write env es x.fs).2.2).AgeOrdered fmt ↔
      x.Seeded fmt (.write env es) := by
  rw [h.ordered_moveTo ho, hc.one, and_iff_right (List.pairwise_singleton _ _)]
  simp only [Seeded, hc.one, List.forall_mem_singleton]
  refine ⟨fun hold r' hr' t₀ hmem hname r hr => ?_, fun hseed t₀ ht₀ r r' hr hr' => ?_⟩
  · have hkept := (h.mem_keptTables_iff hc).2 ⟨hmem, hname⟩
    obtain ⟨-, -, hopen, -⟩ := h.mem_keptTables hkept
    rw [← h.number_eq hc hsize hr']
    exact hold t₀ hkept r r' ((hopen fmt).trans hr) hr'
  · obtain ⟨-, -, hopen, -⟩ := h.mem_keptTables ht₀
    obtain ⟨hmem, hname⟩ := (h.mem_keptTables_iff hc).1 ht₀
    rw [h.number_eq hc hsize hr']
    exact hseed r' hr' t₀ hmem hname r ((hopen fmt).symm.trans hr)

/-- A write keeps the tables in place, and their order exactly when it is seeded. -/
theorem Placed.write (h : Placed fmt x) (hsizes : ∀ content ∈
      tableContents (x.sm.write env es x.fs).2.2.effects, content.length < 2 ^ 63) :
    Placed fmt (x.moveTo (x.sm.write env es x.fs).2.1 (x.sm.write env es x.fs).2.2) ∧
      (x.AgeOrdered fmt →
        ((x.moveTo (x.sm.write env es x.fs).2.1 (x.sm.write env es x.fs).2.2).AgeOrdered fmt ↔
          x.Seeded fmt (.write env es))) := by
  have hw := @StorageManagerImpl.write_tables x.sm env es x.fs h.level0
  have hformat := hw.format.trans h.format
  obtain ⟨hnil, -⟩ | ⟨t, hc⟩ := write_cases h.level0 env es
  · obtain ⟨hplaced, hordered⟩ := h.moveTo_nil hformat hw.level0 hnil
    refine ⟨hplaced, fun ho => iff_of_true (hordered ho) fun t ht => ?_⟩
    rw [hnil] at ht
    cases ht
  · refine ⟨h.moveTo hformat hw.level0 ?_ ?_, fun ho =>
      h.ordered_write_iff ho hc (hsizes _ hc.size)⟩
    · rw [hc.one]
      exact List.forall_mem_singleton.2 hc.new.level
    · rw [hc.one]
      exact List.forall_mem_singleton.2 hc.new.file

end Write

theorem newTables_initLevels (x : Lifetimes) (env : Env) :
    x.newTables (x.sm.initLevels env x.fs).2.2 = [] := by
  rw [newTables, (x.sm.initLevels_quiet env x.fs).effects, List.drop_length]
  rfl

/-- **One step** keeps the order exactly when it is seeded. -/
theorem Placed.step (h : Placed config.tableFormat x) {s : ProcessStep}
    (hsizes : ∀ content ∈ tableContents (x.step config s).2.fs.effects, content.length < 2 ^ 63) :
    Placed config.tableFormat (x.step config s).2 ∧ (x.AgeOrdered config.tableFormat →
      ((x.step config s).2.AgeOrdered config.tableFormat ↔ x.Seeded config.tableFormat s)) := by
  cases s with
  | restart =>
    exact ⟨⟨rfl, fun _ _ hm => (by cases hm), h.level, h.file⟩, fun ho => iff_of_true ho trivial⟩
  | initLevels env =>
    have hformat := (x.sm.initLevels_tableFormat env x.fs).trans h.format
    have hlevel0 := StorageManagerImpl.level0First_initLevels h.level0 env x.fs
    obtain ⟨hplaced, hordered⟩ := h.moveTo_nil hformat hlevel0 (x.newTables_initLevels env)
    exact ⟨hplaced, fun ho => iff_of_true (hordered ho) trivial⟩
  | write env es => exact h.write hsizes

theorem step_effects (config : DbFactoryConfig) (x : Lifetimes) (s : ProcessStep) :
    x.fs.effects <+: (x.step config s).2.fs.effects := by
  cases s with
  | restart => exact List.prefix_refl _
  | initLevels env =>
    simp only [Lifetimes.step, moveTo]
    rw [(x.sm.initLevels_quiet env x.fs).effects]
  | write env es => exact x.sm.write_effects env es x.fs

theorem run_take_succ {steps : List ProcessStep} {n : Nat} {s : ProcessStep}
    (hn : steps[n]? = some s) : run config (steps.take (n + 1)) =
      ((run config (steps.take n)).step config s).2 := by
  rw [run, Machine.run_take_succ hn]
  rfl

section Run

variable {steps : List ProcessStep}
  (hsizes : ∀ content ∈ tableContents (run config steps).fs.effects, content.length < 2 ^ 63)

include hsizes

theorem sizes_take (n : Nat) : ∀ content ∈
    tableContents (run config (steps.take n)).fs.effects, content.length < 2 ^ 63 := by
  intro content hc
  obtain ⟨more, hmore⟩ := Machine.run_take_rel
    (R := fun x y : Lifetimes => x.fs.effects <+: y.fs.effects) (fun _ => List.prefix_refl _)
    List.IsPrefix.trans (step_effects config) ⟨newProcess config, FileSystem.empty, []⟩ steps n
  apply hsizes
  rw [run, ← hmore, tableContents_append]
  exact List.mem_append_left _ hc

theorem Placed.run_succ {n : Nat} {s : ProcessStep} (hn : steps[n]? = some s)
    (h : Placed config.tableFormat (run config (steps.take n))) :
    Placed config.tableFormat (run config (steps.take (n + 1))) ∧
      ((run config (steps.take n)).AgeOrdered config.tableFormat →
        ((run config (steps.take (n + 1))).AgeOrdered config.tableFormat ↔
          (run config (steps.take n)).Seeded config.tableFormat s)) := by
  have hsizes := sizes_take hsizes (n + 1)
  rw [run_take_succ hn] at hsizes ⊢
  exact h.step hsizes

theorem placed_run (n : Nat) : Placed config.tableFormat (run config (steps.take n)) := by
  refine Machine.run_take_induction (P := fun x => Placed config.tableFormat x.2) ?_
    (fun n s hn h => (Placed.run_succ hsizes hn h).1) n
  exact ⟨rfl, fun _ _ hm => (by cases hm), nofun, nofun⟩

/-- **Every run** of seeded steps. -/
theorem ageOrdered_run
    (hseed : ∀ n s, steps[n]? = some s → (run config (steps.take n)).Seeded config.tableFormat s)
    (n : Nat) : (run config (steps.take n)).AgeOrdered config.tableFormat := by
  refine Machine.run_take_induction (P := fun x => AgeOrdered config.tableFormat x.2) ?_
    (fun n s hn h => ?_) n
  · exact ageOrdered_iff.2 .nil
  · exact ((Placed.run_succ hsizes hn (placed_run hsizes n)).2 h).2 (hseed n s hn)

end Run

end Lifetimes

/-- **File numbers order the tables by age** in every state of a run, exactly when every write that
creates a table finds the allocator above the numbers of the tables that stay on the disk. -/
theorem ageOrdered_iff_seeded {config : DbFactoryConfig} {steps : List ProcessStep}
    (hsizes : ∀ content ∈ tableContents (Lifetimes.run config steps).fs.effects,
      content.length < 2 ^ 63) :
    (∀ n, (Lifetimes.run config (steps.take n)).AgeOrdered config.tableFormat) ↔
      ∀ n s, steps[n]? = some s →
        (Lifetimes.run config (steps.take n)).Seeded config.tableFormat s := by
  refine ⟨fun h n s hn => ?_, fun hseed n => Lifetimes.ageOrdered_run hsizes hseed n⟩
  have hplaced := Lifetimes.placed_run hsizes n
  exact ((Lifetimes.Placed.run_succ hsizes hn hplaced).2 (h n)).1 (h (n + 1))

/-! ## One lifetime -/

namespace Lifetimes

variable {fmt : TableFormatKind} {config : DbFactoryConfig} {x : Lifetimes}

/-- The allocator is above all tables on the disk, after at most `n` numbers. -/
structure Below (fmt : TableFormatKind) (x : Lifetimes) (n : Nat) : Prop where
  numbers : ∀ t ∈ x.tables, ∀ r, fmt.openTable x.fs t.path = .ok r →
    r.metadata.m_file_number < x.sm.m_systemContext.counter
  counter : x.sm.m_systemContext.counter.toNat ≤ n

theorem Below.seeded {n : Nat} (h : Below fmt x n) (s : ProcessStep) : x.Seeded fmt s := by
  cases s with
  | restart => trivial
  | initLevels env => trivial
  | write env es => exact fun _ _ _ _ t ht _ r hr => h.numbers t ht r hr

theorem Below.moveTo_nil {n : Nat} (h : Below fmt x n) (hp : Placed fmt x)
    {sm : StorageManagerImpl} {fs : FileSystem} (hnil : x.newTables fs = [])
    (hle : x.sm.m_systemContext.counter.toNat ≤ sm.m_systemContext.counter.toNat)
    (hcount : sm.m_systemContext.counter.toNat ≤ n + 1) : Below fmt (x.moveTo sm fs) (n + 1) := by
  refine ⟨fun t ht r hr => ?_, hcount⟩
  rw [moveTo, hnil, List.append_nil] at ht
  obtain ⟨hmem, -, hopen, -⟩ := hp.mem_keptTables ht
  have hlt := h.numbers t hmem r ((hopen fmt).symm.trans hr)
  rw [UInt64.lt_iff_toNat_lt] at hlt ⊢
  exact hlt.trans_le hle

theorem toNat_next {a : FileNumberAllocator} {n : Nat} (h : a.counter.toNat ≤ n)
    (hn : n + 1 < 2 ^ 64) : a.next.2.counter.toNat = a.counter.toNat + 1 := by
  rw [FileNumberAllocator.next, UInt64.toNat_add, UInt64.toNat_one]
  omega

theorem Below.write {n : Nat} (h : Below fmt x n) (hp : Placed fmt x) (hn : n + 1 < 2 ^ 64)
    {env : Env} {es : List Entry} (hsizes : ∀ content ∈
      tableContents (x.sm.write env es x.fs).2.2.effects, content.length < 2 ^ 63) :
    Below fmt (x.moveTo (x.sm.write env es x.fs).2.1 (x.sm.write env es x.fs).2.2) (n + 1) := by
  have hcount := h.counter
  have hnext := toNat_next h.counter hn
  obtain ⟨hnil, hctx | hctx⟩ | ⟨t, hc⟩ := write_cases hp.level0 env es
  · refine h.moveTo_nil hp hnil ?_ ?_
    · rw [hctx]
    · rw [hctx]
      omega
  · refine h.moveTo_nil hp hnil ?_ ?_
    · rw [hctx, hnext]
      omega
    · rw [hctx, hnext]
      omega
  · refine ⟨fun t₀ ht₀ r hr => ?_, ?_⟩
    · rw [moveTo, hc.one] at ht₀
      show _ < (x.sm.write env es x.fs).2.1.m_systemContext.counter
      rw [hc.context, UInt64.lt_iff_toNat_lt, hnext]
      rcases List.mem_append.1 ht₀ with ht₀ | ht₀
      · obtain ⟨hmem, -, hopen, -⟩ := hp.mem_keptTables ht₀
        have hlt := h.numbers t₀ hmem r ((hopen fmt).symm.trans hr)
        rw [UInt64.lt_iff_toNat_lt] at hlt
        omega
      · rw [List.mem_singleton] at ht₀
        subst ht₀
        rw [hp.number_eq hc (hsizes _ hc.size) hr]
        omega
    · show (x.sm.write env es x.fs).2.1.m_systemContext.counter.toNat ≤ n + 1
      rw [hc.context, hnext]
      omega

theorem Below.step {n : Nat} (h : Below config.tableFormat x n) (hp : Placed config.tableFormat x)
    (hn : n + 1 < 2 ^ 64) {s : ProcessStep} (hs : s ≠ .restart)
    (hsizes : ∀ content ∈ tableContents (x.step config s).2.fs.effects, content.length < 2 ^ 63) :
    Below config.tableFormat (x.step config s).2 (n + 1) := by
  cases s with
  | restart => exact absurd rfl hs
  | initLevels env =>
    obtain ⟨ms, fs1, hrun, -, -⟩ := x.sm.initLevels_leaves env x.fs
    have hctx : (x.sm.initLevels env x.fs).2.1.m_systemContext = x.sm.m_systemContext := by
      rw [hrun]
    have hle : x.sm.m_systemContext.counter.toNat ≤
        (x.sm.initLevels env x.fs).2.1.m_systemContext.counter.toNat := by rw [hctx]
    have hcount : (x.sm.initLevels env x.fs).2.1.m_systemContext.counter.toNat ≤ n + 1 := by
      rw [hctx]
      exact h.counter.trans (Nat.le_succ n)
    exact h.moveTo_nil hp (x.newTables_initLevels env) hle hcount
  | write env es => exact h.write hp hn hsizes

end Lifetimes

theorem ageOrdered_of_one_lifetime {config : DbFactoryConfig} {steps : List ProcessStep}
    (hlife : .restart ∉ steps) (hlen : steps.length < 2 ^ 64)
    (hsizes : ∀ content ∈ tableContents (Lifetimes.run config steps).fs.effects,
      content.length < 2 ^ 63) (n : Nat) :
    (Lifetimes.run config (steps.take n)).AgeOrdered config.tableFormat := by
  have hbelow : ∀ n ≤ steps.length,
      Lifetimes.Below config.tableFormat (Lifetimes.run config (steps.take n)) n := by
    intro n hn
    induction n with
    | zero => exact ⟨nofun, Nat.le_refl 0⟩
    | succ n ih =>
      have hs : steps[n]? = some steps[n] := List.getElem?_eq_getElem hn
      rw [Lifetimes.run_take_succ hs]
      refine (ih (by omega)).step (Lifetimes.placed_run hsizes n) (by omega) ?_ ?_
      · exact fun he => hlife (he ▸ List.getElem_mem hn)
      · rw [← Lifetimes.run_take_succ hs]
        exact Lifetimes.sizes_take hsizes (n + 1)
  refine Lifetimes.ageOrdered_run hsizes (fun n s hn => ?_) n
  have hlt := (List.getElem?_eq_some_iff.1 hn).1
  exact (hbelow n (by omega)).seeded s

/-! ## Two lifetimes -/

/-- The numbers of the tables on the disk, from the oldest to the newest. -/
def Lifetimes.numbers (fmt : TableFormatKind) (x : Lifetimes) : List (Option FileNumber) :=
  x.tables.map fun t => (fmt.openTable x.fs t.path).toOption.map fun r => r.metadata.m_file_number

theorem Lifetimes.mem_numbers {fmt : TableFormatKind} {x : Lifetimes} {t : DiskTable}
    {r : TableReader} (ht : t ∈ x.tables) (hr : fmt.openTable x.fs t.path = .ok r) :
    some r.metadata.m_file_number ∈ x.numbers fmt := by
  refine List.mem_map.2 ⟨t, ht, ?_⟩
  rw [hr]
  rfl

theorem Lifetimes.ageOrdered_iff_numbers {fmt : TableFormatKind} {x : Lifetimes} :
    x.AgeOrdered fmt ↔ (x.numbers fmt).Pairwise fun a b => ∀ n ∈ a, ∀ m ∈ b, n < m := by
  rw [ageOrdered_iff, numbers, List.pairwise_map]
  refine iff_of_eq (congrArg (fun R => List.Pairwise R x.tables) ?_)
  funext t t'
  rw [Older]
  cases fmt.openTable x.fs t.path with
  | error f => simp [Except.toOption]
  | ok r =>
    cases fmt.openTable x.fs t'.path with
    | error f => simp [Except.toOption]
    | ok r' => simp [Except.toOption]

/-- Restoring the largest number on the disk, as the parameter of `restore` has it, is not enough:
`next` gives that number again. -/
theorem Lifetimes.not_above_restore {fmt : TableFormatKind} {x : Lifetimes} {t : DiskTable}
    {r : TableReader} {name : Bytes} (ht : t ∈ x.tables) (hname : t.path.name ≠ name)
    (hr : fmt.openTable x.fs t.path = .ok r) :
    ¬ { x with sm := { x.sm with
        m_systemContext := x.sm.m_systemContext.restore r.metadata.m_file_number } }.Above fmt name := by
  intro h
  exact absurd (h t ht hname r hr) (UInt64.lt_irrefl _)

/-- The second lifetime loses its number 0 to a table that is refused, and is above the table of the
first one by then. -/
def sampleLifetimes : List ProcessStep :=
  [.write {} [⟨"a", "1", false⟩], .restart, .write {} [],
    .write { nameCounter := 1 } [⟨"b", "2", false⟩]]

theorem sampleLifetimes_seeded (n : Nat) (s : ProcessStep) (hn : sampleLifetimes[n]? = some s) :
    (Lifetimes.run {} (sampleLifetimes.take n)).Seeded .InMemory s := by
  have hlt : n < 4 := (List.getElem?_eq_some_iff.1 hn).1
  obtain rfl | rfl | rfl | rfl : n = 0 ∨ n = 1 ∨ n = 2 ∨ n = 3 := by omega
  · cases hn
    exact fun _ _ _ _ => nofun
  · cases hn
    trivial
  · cases hn
    have hnil : (Lifetimes.run {} (sampleLifetimes.take 2)).newTables
        ((Lifetimes.run {} (sampleLifetimes.take 2)).sm.write {} []
          (Lifetimes.run {} (sampleLifetimes.take 2)).fs).2.2 = [] := by decide +kernel
    exact fun t ht => absurd hnil (List.ne_nil_of_mem ht)
  · cases hn
    have hnum : (Lifetimes.run {} (sampleLifetimes.take 3)).numbers .InMemory = [some 0] := by
      decide +kernel
    have hcounter : (0 : FileNumber) <
        (Lifetimes.run {} (sampleLifetimes.take 3)).sm.m_systemContext.counter := by decide +kernel
    intro _ _ _ _ t ht _ r hr
    have hmem := Lifetimes.mem_numbers ht hr
    rw [hnum, List.mem_singleton, Option.some_inj] at hmem
    rw [hmem]
    exact hcounter

theorem ageOrdered_iff_seeded_sample :
    (Lifetimes.run {} sampleLifetimes).AgeOrdered .InMemory ∧
      (Lifetimes.run {} sampleLifetimes).numbers .InMemory = [some 0, some 1] :=
  ⟨(@ageOrdered_iff_seeded {} sampleLifetimes (by decide +kernel)).2 sampleLifetimes_seeded 4,
    by decide +kernel⟩

/-- **A restart gives the same number again.** -/
theorem restart_repeats_number :
    let x := Lifetimes.run {} [.write {} [⟨"a", "1", false⟩], .restart,
      .write { nameCounter := 1 } [⟨"b", "2", false⟩]]
    x.numbers .InMemory = [some 0, some 0] ∧ ¬ x.AgeOrdered .InMemory := by
  intro x
  have hnum : x.numbers .InMemory = [some 0, some 0] := by decide +kernel
  refine ⟨hnum, ?_⟩
  rw [Lifetimes.ageOrdered_iff_numbers, hnum]
  simp

end TinyKv
