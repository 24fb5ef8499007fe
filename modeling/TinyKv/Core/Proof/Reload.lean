import TinyKv.Core.Proof.History
import TinyKv.Core.Proof.Level
import TinyKv.Lib.Run

/-!
# Reloading a level

`createTable` puts a new table in front, so a level is newest first; `initNew` takes the tables as
the directory lists them, and `std::filesystem` leaves that order open. `reload_iff`: the reloaded
level is newest first exactly when the listing is, and it reads as before exactly when for every
key the first listed table and the newest table that have it agree.

* `Built`: what a run of `createTable` calls leaves, in memory and on the disk.
-/

namespace TinyKv

open Bytes

/-- A table as a call of `createTable` makes it. -/
structure CreatedTable where
  name : Bytes
  entries : List Entry
  timestamp : TimestampType
  fileNum : FileNumber
  deriving DecidableEq, Inhabited

namespace CreatedTable

def content (t : CreatedTable) (fmt : TableFormatKind) : Bytes :=
  fmt.content t.entries t.timestamp t.fileNum

def metadata (t : CreatedTable) : SSTableMetadata :=
  ⟨t.fileNum, t.timestamp, firstKey t.entries, lastKey t.entries⟩

/-- The table with this name. -/
abbrev named (tables : List CreatedTable) (name : Bytes) : Option CreatedTable :=
  Keyed.lookup CreatedTable.name tables name

end CreatedTable

namespace LevelManagerImpl

/-- One call of `createTable` on a level, its file numbers and its disk. -/
def createStep (fmt : TableFormatKind) (s : LevelManagerImpl × FileNumberAllocator × FileSystem)
    (c : List Entry × Env) :
    Except Fault Unit × LevelManagerImpl × FileNumberAllocator × FileSystem :=
  match s.1.createTable c.2 fmt c.1 s.2.1 s.2.2 with
  | (.error f, allocator, fs) => (.error f, s.1, allocator, fs)
  | (.ok lm, allocator, fs) => (.ok (), lm, allocator, fs)

/-- The table that a call creates. -/
def createdTable (allocator : FileNumberAllocator) (c : List Entry × Env) : CreatedTable :=
  ⟨generateSSTableFileName c.2, c.1, c.2.now, allocator.counter⟩

/-- The tables that calls create, oldest first. -/
def createdTables (allocator : FileNumberAllocator) : List (List Entry × Env) → List CreatedTable
  | [] => []
  | c :: calls => createdTable allocator c :: createdTables allocator.next.2 calls

/-- What calls that created `tables` on the level `n` leave. -/
structure Built (fmt : TableFormatKind) (n : Nat)
    (s : LevelManagerImpl × FileNumberAllocator × FileSystem) (tables : List CreatedTable) :
    Prop where
  levelNum : s.1.m_levelNum = n
  serves : ServesAll s.2.2 s.1.m_tableReaders (tables.reverse.map CreatedTable.entries)
  metadata : s.1.m_tableReaders.map TableReader.metadata =
    tables.reverse.map CreatedTable.metadata
  dir : ∃ d, s.2.2.dir? (levelName n) = some d ∧ ∀ name, d.find? name =
    (CreatedTable.named tables name).map fun t => (t.name, .regular (t.content fmt))
  loadable : ∀ t ∈ tables, Loadable fmt t.entries t.timestamp t.fileNum
  drawn : ∀ t ∈ tables, t.name ∈ drawnNames s.2.2.effects
  nodup : (tables.map CreatedTable.name).Nodup

section

variable {fmt : TableFormatKind} {n : Nat}
  {s : LevelManagerImpl × FileNumberAllocator × FileSystem} {tables : List CreatedTable}
  {c : List Entry × Env}

theorem createStep_effects (fmt : TableFormatKind)
    (s : LevelManagerImpl × FileNumberAllocator × FileSystem) (c : List Entry × Env) :
    s.2.2.effects <+: (createStep fmt s c).2.2.2.effects := by
  have h := s.1.createTable_effects c.2 fmt c.1 s.2.1 s.2.2
  unfold createStep
  split <;> rename_i heq <;> rw [heq] at h <;> exact h

/-- A table with a new name, in front of the readers and in the directory. -/
theorem Built.snoc (h : Built fmt n s tables) {t : CreatedTable} {r : TableReader} {d : Dir}
    {s' : LevelManagerImpl × FileNumberAllocator × FileSystem} {more : List Effect}
    (hlevel : s'.1.m_levelNum = n) (hreaders : s'.1.m_tableReaders = r :: s.1.m_tableReaders)
    (hr : Serves s'.2.2 r t.entries) (hmeta : r.metadata = t.metadata) (hle : s.2.2.Le s'.2.2)
    (hdir : s.2.2.dir? (levelName n) = some d)
    (hdir' : s'.2.2.dir? (levelName n) = some (d.insert (t.name, .regular (t.content fmt))))
    (hload : Loadable fmt t.entries t.timestamp t.fileNum)
    (heff : s'.2.2.effects = s.2.2.effects ++ more) (hname : t.name ∈ drawnNames more)
    (hfresh : t.name ∉ drawnNames s.2.2.effects) : Built fmt n s' (tables ++ [t]) := by
  have hnew : ∀ u ∈ tables, u.name ≠ t.name := fun u hu he => hfresh (he ▸ h.drawn u hu)
  obtain ⟨d₀, hd₀, hfind⟩ := h.dir
  obtain rfl : d₀ = d := Option.some_inj.1 (hd₀.symm.trans hdir)
  refine ⟨hlevel, ?_, ?_, ⟨_, hdir', fun name => ?_⟩, fun u hu => ?_, fun u hu => ?_, ?_⟩
  · rw [List.reverse_append, List.reverse_singleton, List.singleton_append, List.map_cons, hreaders]
    exact .cons hr (h.serves.mono hle)
  · rw [List.reverse_append, List.reverse_singleton, List.singleton_append, List.map_cons, hreaders,
      List.map_cons, h.metadata, hmeta]
  · rw [SortedMap.find?_insert, hfind, CreatedTable.named, CreatedTable.named, Keyed.lookup_append,
      Keyed.lookup_cons, Keyed.lookup_nil]
    by_cases hn : t.name = name
    · subst hn
      rw [Keyed.lookup_eq_none.2 hnew]
      simp
    · simp [hn]
  · rcases List.mem_append.1 hu with hu | hu
    · exact h.loadable u hu
    · rwa [List.mem_singleton.1 hu]
  · rw [heff, drawnNames_append]
    rcases List.mem_append.1 hu with hu | hu
    · exact List.mem_append_left _ (h.drawn u hu)
    · rw [List.mem_singleton.1 hu]
      exact List.mem_append_right _ hname
  · rw [List.map_append, List.nodup_append]
    refine ⟨h.nodup, List.nodup_singleton _, fun a ha b hb => ?_⟩
    obtain ⟨u, hu, rfl⟩ := List.mem_map.1 ha
    rw [List.mem_singleton.1 hb]
    exact hnew u hu

/-- **One table more.** -/
theorem Built.step (h : Built fmt n s tables) (henv : c.2.NoFault) (hsort : SortedEntries c.1)
    (hlen : c.1.length < 2 ^ 31) (hsmall : ∀ e ∈ c.1, e.Small)
    (hok : (createStep fmt s c).1 = .ok ()) (hfits : Fits (createStep fmt s c).2.2.2.effects) :
    Built fmt n (createStep fmt s c).2 (tables ++ [createdTable s.2.1 c]) ∧
      (createStep fmt s c).2.2.1 = s.2.1.next.2 := by
  obtain ⟨d, hdir, hfind⟩ := h.dir
  have hlevel := h.levelNum
  obtain ⟨lm, allocator, fs⟩ := s
  obtain ⟨es, env⟩ := c
  dsimp only at hdir hlevel henv hsort hlen hsmall
  subst hlevel
  have hreg : ∀ p, d.find? (generateSSTableFileName env) = some p → p.2 ≠ .other := by
    intro p hp
    rw [hfind, Option.map_eq_some_iff] at hp
    obtain ⟨t, -, rfl⟩ := hp
    nofun
  have hw : fmt.Writable es := by
    by_contra hw
    obtain ⟨f, fs', hrun, -⟩ := createTable_error lm allocator henv hdir hreg hw
    simp only [createStep, hrun] at hok
    cases hok
  have hstep : (createStep fmt (lm, allocator, fs) (es, env)).2.2.2 =
      (lm.createTable env fmt es allocator fs).2.2 := by
    unfold createStep
    split <;> rename_i heq <;> rw [heq]
  rw [hstep, createTable_snd lm allocator henv hdir hreg hw hsort hlen, FileSystem.addTable_effects,
    FileSystem.record_effects, List.append_assoc] at hfits
  have hsize : fmt = .BlockBased → (newContent env fmt es allocator).length < 2 ^ 63 := by
    intro _
    apply hfits.sizes
    rw [tableContents_append]
    exact List.mem_append_right _ List.mem_cons_self
  have hnone : d.find? (generateSSTableFileName env) = none := by
    rw [hfind, Option.map_eq_none_iff]
    exact Keyed.lookup_eq_none.2 fun t ht he => hfits.fresh (he ▸ h.drawn t ht)
  have hle := (FileSystem.Le.record fs _).trans (FileSystem.Le.setDir_insert
    (show (fs.record (.nameDrawn (generateSSTableFileName env))).dir? (levelName lm.m_levelNum) =
      some d from hdir) hnone (newContent env fmt es allocator))
  obtain ⟨r, hrun, hr, -, hrmeta⟩ :=
    createTable_ok lm allocator henv hdir hreg hw hsort hlen hsize
  have heff : ((fs.record (.nameDrawn (generateSSTableFileName env))).addTable (lm.newPath env) d
      (newContent env fmt es allocator)).effects = fs.effects ++
        [.nameDrawn (generateSSTableFileName env),
          .tableCreated (lm.newPath env) (newContent env fmt es allocator)] := by
    rw [FileSystem.addTable_effects, FileSystem.record_effects, List.append_assoc]
    rfl
  simp only [createStep, hrun]
  exact ⟨h.snoc rfl rfl hr hrmeta (hle.trans (FileSystem.Le.record _ _)) hdir
    ((FileSystem.dir?_setDir ..).trans (if_pos rfl)) ⟨hw.ne, hsort, hlen, hsmall, hsize⟩ heff
    List.mem_cons_self hfits.fresh, trivial⟩

/-- **Every run** of successful calls. -/
theorem Built.run {calls : List (List Entry × Env)} (h : Built fmt n s tables)
    (hcalls : ∀ c ∈ calls, c.2.NoFault ∧ SortedEntries c.1 ∧ c.1.length < 2 ^ 31 ∧ ∀ e ∈ c.1, e.Small)
    (hok : ∀ o ∈ (Machine.run (createStep fmt) s calls).1, o = .ok ())
    (hfits : Fits (Machine.run (createStep fmt) s calls).2.2.2.effects) :
    Built fmt n (Machine.run (createStep fmt) s calls).2 (tables ++ createdTables s.2.1 calls) := by
  induction calls generalizing s tables with
  | nil =>
    rw [createdTables, List.append_nil]
    exact h
  | cons c calls ih =>
    rw [Machine.run_cons] at hok hfits
    obtain ⟨henv, hsort, hlen, hsmall⟩ := hcalls c List.mem_cons_self
    have hgrow := Machine.run_rel (R := fun s s' => s.2.2.effects <+: s'.2.2.effects)
      (fun _ => List.prefix_refl _) List.IsPrefix.trans (createStep_effects fmt)
      (createStep fmt s c).2 calls
    obtain ⟨h', halloc⟩ := h.step henv hsort hlen hsmall (hok _ List.mem_cons_self)
      (hfits.earlier hgrow)
    have := ih h' (fun c hc => hcalls c (List.mem_cons_of_mem _ hc))
      (fun o ho => hok o (List.mem_cons_of_mem _ ho)) hfits
    rwa [halloc, List.append_assoc, List.singleton_append, ← createdTables] at this

/-! ## Loading the tables again -/

/-- The table with the name. -/
def tableNamed (tables : List CreatedTable) (name : Bytes) : CreatedTable :=
  (CreatedTable.named tables name).getD default

section Directory

variable {d : Dir}

theorem Built.find? (h : Built fmt n s tables) (hdir : s.2.2.dir? (levelName n) = some d)
    (name : Bytes) : d.find? name =
      (CreatedTable.named tables name).map fun t => (t.name, .regular (t.content fmt)) := by
  obtain ⟨d', hdir', hfind⟩ := h.dir
  obtain rfl : d' = d := Option.some_inj.1 (hdir'.symm.trans hdir)
  exact hfind name

theorem Built.entry (h : Built fmt n s tables) (hdir : s.2.2.dir? (levelName n) = some d)
    {p : Bytes × FileNode} (hp : p ∈ d.toList) :
    tableNamed tables p.1 ∈ tables ∧ (tableNamed tables p.1).name = p.1 ∧
      p.2 = .regular ((tableNamed tables p.1).content fmt) := by
  have hp' : d.find? p.1 = some p := (Keyed.lookup_eq_some d.sorted).2 ⟨hp, rfl⟩
  rw [h.find? hdir, Option.map_eq_some_iff] at hp'
  obtain ⟨t, ht, rfl⟩ := hp'
  have htable : tableNamed tables t.name = t := by rw [tableNamed, ht, Option.getD_some]
  dsimp only
  rw [htable]
  exact ⟨Keyed.mem_of_lookup ht, rfl, rfl⟩

theorem Built.names_perm (h : Built fmt n s tables) (hdir : s.2.2.dir? (levelName n) = some d) :
    (d.toList.map Prod.fst).Perm (tables.map CreatedTable.name) := by
  refine (List.perm_ext_iff_of_nodup d.sorted.nodup_map h.nodup).2 fun name => ⟨?_, ?_⟩
  · intro hn
    obtain ⟨p, hp, rfl⟩ := List.mem_map.1 hn
    obtain ⟨hmem, hname, -⟩ := h.entry hdir hp
    exact List.mem_map.2 ⟨_, hmem, hname⟩
  · intro hn
    obtain ⟨t, ht, rfl⟩ := List.mem_map.1 hn
    have hf := h.find? hdir t.name
    rw [CreatedTable.named, Keyed.lookup_of_mem h.nodup ht, Option.map_some] at hf
    exact List.mem_map.2 ⟨_, Keyed.mem_of_lookup hf, rfl⟩

theorem Built.map_tableNamed (h : Built fmt n s tables) :
    (tables.map CreatedTable.name).map (tableNamed tables) = tables := by
  have hback : ∀ t ∈ tables, tableNamed tables t.name = t := fun t ht => by
    rw [tableNamed, CreatedTable.named, Keyed.lookup_of_mem h.nodup ht, Option.getD_some]
  rw [List.map_map]
  exact (List.map_congr_left fun t ht => hback t ht).trans (List.map_id _)

end Directory

/-- What `initNew` makes of such a level: the tables in the order of the listing. -/
theorem Built.reload (h : Built fmt n s tables) (env : Env) (base : Bytes) :
    ∃ (listed : List CreatedTable) (d : Dir) (lm' : LevelManagerImpl),
      s.2.2.dir? (levelName n) = some d ∧
      listed.map CreatedTable.name = (env.order.list d.toList).map Prod.fst ∧
      listed.Perm tables ∧
      ({ m_levelNum := n, m_basePath := base } : LevelManagerImpl).initNew env fmt s.2.2 =
        (.ok (), lm') ∧
      ServesAll s.2.2 lm'.m_tableReaders (listed.map CreatedTable.entries) ∧
      lm'.m_tableReaders.map TableReader.metadata = listed.map CreatedTable.metadata := by
  obtain ⟨d, hdir, -⟩ := h.dir
  have hperm := env.order.perm d.toList
  set table := tableNamed tables
  have hfile : ∀ p ∈ env.order.list d.toList, TableFile fmt s.2.2 (levelName n) p
      (table p.1).entries (table p.1).timestamp (table p.1).fileNum := by
    intro p hp
    obtain ⟨hmem, -, hnode⟩ := h.entry hdir (hperm.subset hp)
    exact ⟨hnode, FileSystem.file?_of_dir hdir
      ((Keyed.lookup_eq_some d.sorted).2 ⟨hperm.subset hp, rfl⟩) hnode, h.loadable _ hmem⟩
  obtain ⟨readers, hrun, hserves, hmeta⟩ := @openTables_ok fmt s.2.2 (env.order.list d.toList)
    (fun name => (table name).entries) (fun name => (table name).timestamp)
    (fun name => (table name).fileNum) { m_levelNum := n, m_basePath := base } hfile
  refine ⟨(env.order.list d.toList).map fun p => table p.1, d,
    { m_levelNum := n, m_basePath := base, m_tableReaders := readers }, hdir, ?_, ?_, ?_, ?_, ?_⟩
  · rw [List.map_map]
    exact List.map_congr_left fun p hp => (h.entry hdir (hperm.subset hp)).2.1
  · have hlisted := ((hperm.map Prod.fst).trans (h.names_perm hdir)).map table
    rwa [h.map_tableNamed, List.map_map] at hlisted
  · simp only [initNew, hdir, hrun, List.nil_append]
  · rw [List.map_map]
    exact hserves
  · rw [List.map_map]
    exact hmeta

theorem createdTables_nodup {calls : List (List Entry × Env)} (h : calls.length ≤ 2 ^ 64)
    (allocator : FileNumberAllocator) :
    ((createdTables allocator calls).map CreatedTable.fileNum).Nodup := by
  have hnums : ∀ (calls : List (List Entry × Env)) (a : FileNumberAllocator),
      (createdTables a calls).map CreatedTable.fileNum =
        (List.range calls.length).map fun i => a.counter + UInt64.ofNat i := by
    intro calls
    induction calls with
    | nil => exact fun _ => rfl
    | cons c calls ih =>
      intro a
      rw [createdTables, List.map_cons, ih, List.length_cons, List.range_succ_eq_map, List.map_cons,
        List.map_map]
      refine congrArg₂ _ (by simp [createdTable]) (List.map_congr_left fun i _ => ?_)
      simp only [FileNumberAllocator.next, Function.comp_apply, Nat.succ_eq_add_one,
        UInt64.ofNat_add]
      rw [UInt64.add_assoc, UInt64.add_comm 1]
      rfl
  rw [hnums]
  refine List.Nodup.map_on (fun i hi j hj hij => ?_) List.nodup_range
  have hlt : ∀ i, i ∈ List.range calls.length → i < 2 ^ 64 := fun i hi => by
    have := List.mem_range.1 hi
    omega
  have := congrArg UInt64.toNat ((UInt64.add_right_inj _).1 hij)
  rwa [UInt64.toNat_ofNat_of_lt' (hlt i hi), UInt64.toNat_ofNat_of_lt' (hlt j hj)] at this

end

/-- **A reloaded level**: newest first exactly when the listing is, and with the same reads exactly
when the first listed table and the newest table with a key never disagree about it. -/
theorem reload_iff {fmt : TableFormatKind} {n : Nat} {base : Bytes}
    {allocator : FileNumberAllocator} {fs : FileSystem}
    (hempty : fs.dir? (levelName n) = some SortedMap.empty) {calls : List (List Entry × Env)}
    (hcalls : ∀ c ∈ calls, c.2.NoFault ∧ SortedEntries c.1 ∧ c.1.length < 2 ^ 31 ∧ ∀ e ∈ c.1, e.Small)
    {s : LevelManagerImpl × FileNumberAllocator × FileSystem} {results : List (Except Fault Unit)}
    (hrun : Machine.run (createStep fmt) ({ m_levelNum := n, m_basePath := base }, allocator, fs)
      calls = (results, s))
    (hok : ∀ o ∈ results, o = .ok ()) (hfits : Fits s.2.2.effects) (env : Env) :
    ∃ (listed : List CreatedTable) (d : Dir) (lm' : LevelManagerImpl),
      s.2.2.dir? (levelName n) = some d ∧
      listed.map CreatedTable.name = (env.order.list d.toList).map Prod.fst ∧
      listed.Perm (createdTables allocator calls) ∧
      ({ m_levelNum := n, m_basePath := base } : LevelManagerImpl).initNew env fmt s.2.2 =
        (.ok (), lm') ∧
      ((∀ k, lm'.getKey s.2.2 k = s.1.getKey s.2.2 k) ↔
        ∀ k, live (firstEntry (listed.map CreatedTable.entries) k) =
          live (firstEntry ((createdTables allocator calls).reverse.map CreatedTable.entries) k)) ∧
      (calls.length ≤ 2 ^ 64 →
        (lm'.m_tableReaders.map TableReader.metadata = s.1.m_tableReaders.map TableReader.metadata ↔
          listed = (createdTables allocator calls).reverse)) := by
  have hstart : Built fmt n ({ m_levelNum := n, m_basePath := base }, allocator, fs) [] :=
    ⟨rfl, .nil, rfl, ⟨_, hempty, fun _ => rfl⟩, nofun, nofun, List.nodup_nil⟩
  have hbuilt := hstart.run hcalls (by rwa [hrun]) (by rwa [hrun])
  rw [hrun, List.nil_append] at hbuilt
  obtain ⟨listed, d, lm', hdir, hnames, hperm, hinit, hserves, hmeta⟩ := hbuilt.reload env base
  refine ⟨listed, d, lm', hdir, hnames, hperm, hinit, forall_congr' fun k => ?_, fun hlen => ?_⟩
  · have h1 : lm'.getKey s.2.2 k = _ := getKeyFrom_eq hserves k
    have h2 : s.1.getKey s.2.2 k = _ := getKeyFrom_eq hbuilt.serves k
    rw [h1, h2, Except.ok.injEq]
  · rw [hmeta, hbuilt.metadata]
    refine ⟨fun heq => ?_, fun heq => by rw [heq]⟩
    have hinj := List.inj_on_of_nodup_map (createdTables_nodup hlen allocator)
    refine @Keyed.eq_of_map_eq _ _ CreatedTable.fileNum _ _ (fun t ht t' ht' he =>
      hinj (hperm.subset ht) (List.mem_reverse.1 ht') he) ?_
    have := congrArg (List.map SSTableMetadata.m_file_number) heq
    rwa [List.map_map, List.map_map] at this

/-- The disk of a new level. -/
def newLevelDisk : FileSystem := FileSystem.empty.setDir (levelName 0) SortedMap.empty

/-- Two tables with different keys, reloaded oldest first. -/
def disjointCalls : List (List Entry × Env) :=
  [([⟨"a", "1", false⟩], {}), ([⟨"b", "2", false⟩], { nameCounter := 1 })]

theorem reload_iff_disjoint :
    let s := (Machine.run (createStep .InMemory)
      ({ m_levelNum := 0, m_basePath := "" }, {}, newLevelDisk) disjointCalls).2
    ∃ lm', ({ m_levelNum := 0, m_basePath := "" } : LevelManagerImpl).initNew {} .InMemory s.2.2 =
      (.ok (), lm') ∧ ∀ k, lm'.getKey s.2.2 k = s.1.getKey s.2.2 k := by
  intro s
  have hcalls : ∀ c ∈ disjointCalls, c.2.NoFault ∧ SortedEntries c.1 ∧ c.1.length < 2 ^ 31 ∧
      ∀ e ∈ c.1, e.Small := by
    intro c hc
    simp only [disjointCalls, List.mem_cons, List.not_mem_nil, or_false] at hc
    rcases hc with rfl | rfl <;> exact ⟨⟨fun _ => rfl, rfl, rfl⟩, by decide, by decide, by decide⟩
  obtain ⟨listed, d, lm', hdir, hnames, hperm, hinit, hreads, -⟩ :=
    @reload_iff .InMemory 0 "" {} newLevelDisk (by decide +kernel) disjointCalls hcalls s _ rfl
      (by decide +kernel) ⟨by decide +kernel, by decide +kernel⟩ {}
  refine ⟨lm', hinit, hreads.2 fun k => ?_⟩
  have hd : (s.2.2.dir? (levelName 0)).map (fun d => d.toList.map Prod.fst) =
      some ((createdTables {} disjointCalls).map CreatedTable.name) := by decide +kernel
  have hlisted : listed = createdTables {} disjointCalls := by
    rw [hdir, Option.map_some, Option.some_inj] at hd
    refine Keyed.eq_of_map_eq (fun t ht t' ht' he => ?_) (hnames.trans hd)
    exact List.inj_on_of_nodup_map (by decide +kernel) (hperm.subset ht) ht' he
  rw [hlisted]
  show live (firstEntry [[⟨"a", "1", false⟩], [⟨"b", "2", false⟩]] k) =
    live (firstEntry [[⟨"b", "2", false⟩], [⟨"a", "1", false⟩]] k)
  simp only [firstEntry_cons, firstEntry_nil, lookup, Keyed.lookup_cons, Keyed.lookup_nil]
  by_cases ha : ofString "a" = k
  · subst ha
    rw [if_pos rfl, if_neg (by decide)]
    rfl
  · rw [if_neg ha]
    split <;> rfl

/-- **The old value comes back**: a key is overwritten by the second table, and a listing by name
puts the first one in front. -/
theorem reload_reads_overwritten :
    let s := (Machine.run (createStep .InMemory)
      ({ m_levelNum := 0, m_basePath := "" }, {}, newLevelDisk)
      [([⟨"a", "1", false⟩], {}), ([⟨"a", "2", false⟩], { nameCounter := 1 })]).2
    let lm' := (({ m_levelNum := 0, m_basePath := "" } : LevelManagerImpl).initNew {} .InMemory
      s.2.2).2
    s.1.getKey s.2.2 "a" = .ok (some ⟨"a", "2", false⟩) ∧
      lm'.getKey s.2.2 "a" = .ok (some ⟨"a", "1", false⟩) := by
  decide +kernel

end LevelManagerImpl

end TinyKv
