import TinyKv.Core.Proof.Reload

/-!
# A level reads newest first

Whatever calls of `createTable` a new level has seen, and whatever the filesystem refused: the
readers are those of the calls that returned, newest first, so their file numbers decrease and
`getKey` answers from the most recently created table that has the key. The range test of `getKey`
passes over no table that would have answered.

* `Served`: the readers and the tables they stand for, kept by every call (`Served.step`).
-/

namespace TinyKv

open Bytes

namespace LevelManagerImpl

/-- The tables of the calls that returned, oldest first. -/
def keptTables : List (Except Fault Unit) → List CreatedTable → List CreatedTable
  | .ok () :: outs, t :: tables => t :: keptTables outs tables
  | .error _ :: outs, _ :: tables => keptTables outs tables
  | _, _ => []

theorem keptTables_sublist (outs : List (Except Fault Unit)) (tables : List CreatedTable) :
    (keptTables outs tables).Sublist tables := by
  fun_induction keptTables outs tables with
  | case1 outs t tables ih => exact ih.cons_cons t
  | case2 f outs t tables ih => exact ih.cons t
  | case3 => exact List.nil_sublist _

/-- The loop of `getKey` without its range test. -/
def getKeyUnpruned (fs : FileSystem) (key : Bytes) : List TableReader → Except Fault (Option Entry)
  | [] => .ok none
  | tableReader :: rest =>
    match tableReader.get fs key with
    | .error f => .error f
    | .ok none => getKeyUnpruned fs key rest
    | .ok (some entry) => if entry.tombstone then .ok none else .ok (some entry)

theorem getKeyUnpruned_eq {fs : FileSystem} {readers : List TableReader}
    {tables : List (List Entry)} (h : ServesAll fs readers tables) (key : Bytes) :
    getKeyUnpruned fs key readers = .ok (live (firstEntry tables key)) := by
  induction h with
  | nil => rfl
  | @cons r es readers tables hr _ ih =>
    obtain ⟨e, hget, he⟩ := hr.get key
    rw [getKeyUnpruned, firstEntry_cons, hget]
    cases hl : lookup es key with
    | none =>
      rw [hl, Option.map_none, Option.map_eq_none_iff] at he
      subst he
      exact ih
    | some x =>
      rw [hl, Option.map_some, Option.map_eq_some_iff] at he
      obtain ⟨e, rfl, he⟩ := he
      rw [Option.some_or, ← live_of_persisted he]
      dsimp only
      split <;> rfl

/-! ## The readers of a run -/

/-- The reader `r` of the level `n` is that of the table `t`, in its own file. -/
structure ReaderOf (fs : FileSystem) (n : Nat) (r : TableReader) (t : CreatedTable) : Prop where
  serves : Serves fs r t.entries
  metadata : r.metadata = t.metadata
  path : ∀ b, r = .blockBased b → b.m_fullPath.level = levelName n ∧ b.m_fullPath.name = t.name

/-- The files of the level `n` other than `name` are as before. -/
def OnlyNew (n : Nat) (name : Bytes) (fs fs' : FileSystem) : Prop :=
  ∀ other, other ≠ name → fs'.file? (levelName n) other = fs.file? (levelName n) other

theorem ReaderOf.onlyNew {fs fs' : FileSystem} {n : Nat} {r : TableReader} {t : CreatedTable}
    (h : ReaderOf fs n r t) {name : Bytes} (hnew : OnlyNew n name fs fs') (hname : t.name ≠ name) :
    ReaderOf fs' n r t := by
  refine ⟨h.serves.congr fun b hb => ?_, h.metadata, h.path⟩
  rw [(h.path b hb).1, (h.path b hb).2]
  exact hnew t.name hname

/-- The readers of the level `n` are those of `tables`, newest first. -/
structure Served (n : Nat) (s : LevelManagerImpl × FileNumberAllocator × FileSystem)
    (tables : List CreatedTable) : Prop where
  levelNum : s.1.m_levelNum = n
  readers : List.Forall₂ (ReaderOf s.2.2 n) s.1.m_tableReaders tables.reverse

theorem Served.onlyNew {n : Nat} {s : LevelManagerImpl × FileNumberAllocator × FileSystem}
    {tables : List CreatedTable} (h : Served n s tables) {name : Bytes} {fs' : FileSystem}
    (hnew : OnlyNew n name s.2.2 fs') (hname : ∀ t ∈ tables, t.name ≠ name) :
    List.Forall₂ (ReaderOf fs' n) s.1.m_tableReaders tables.reverse := by
  obtain ⟨hlen, hget⟩ := List.forall₂_iff_zip.1 h.readers
  refine List.forall₂_iff_zip.2 ⟨hlen, fun {r t} hmem => (hget hmem).onlyNew hnew (hname t ?_)⟩
  exact List.mem_reverse.1 (List.of_mem_zip hmem).2

section

variable {fmt : TableFormatKind} {n : Nat}
  {s : LevelManagerImpl × FileNumberAllocator × FileSystem} {tables : List CreatedTable}
  {c : List Entry × Env}

/-- What `createTable` may be called with. -/
structure Creatable (fmt : TableFormatKind) (c : List Entry × Env) (t : CreatedTable) : Prop where
  sorted : SortedEntries c.1
  length : c.1.length < 2 ^ 31
  small : ∀ e ∈ c.1, e.Small
  size : fmt = .BlockBased → (t.content fmt).length < 2 ^ 63

/-- The write of a call. -/
def writeOf (fmt : TableFormatKind) (s : LevelManagerImpl × FileNumberAllocator × FileSystem)
    (c : List Entry × Env) : Except Fault TableReader × FileSystem :=
  fmt.writeTable c.2 (s.1.pathOf (generateSSTableFileName c.2)) c.1 c.2.now s.2.1.counter
    (s.2.2.record (.nameDrawn (generateSSTableFileName c.2)))

theorem createStep_eq_error {fs' : FileSystem} {f : Fault} (h : writeOf fmt s c = (.error f, fs')) :
    createStep fmt s c = (.error f, s.1, s.2.1.next.2, fs') := by
  have h : fmt.writeTable c.2 (s.1.newPath c.2) c.1 c.2.now s.2.1.counter _ = (.error f, fs') := h
  rw [createStep, createTable_eq, h]
  rfl

theorem createStep_eq_ok {fs' : FileSystem} {r : TableReader} (h : writeOf fmt s c = (.ok r, fs')) :
    createStep fmt s c =
      (.ok (), { s.1 with m_tableReaders := r :: s.1.m_tableReaders }, s.2.1.next.2, fs') := by
  have h : fmt.writeTable c.2 (s.1.newPath c.2) c.1 c.2.now s.2.1.counter _ = (.ok r, fs') := h
  rw [createStep, createTable_eq, h]
  rfl

theorem creatable_calls {calls : List (List Entry × Env)} {allocator : FileNumberAllocator}
    (hcalls : ∀ c ∈ calls, SortedEntries c.1 ∧ c.1.length < 2 ^ 31 ∧ ∀ e ∈ c.1, e.Small)
    (hsize : fmt = .BlockBased →
      ∀ t ∈ createdTables allocator calls, (t.content fmt).length < 2 ^ 63) :
    List.Forall₂ (Creatable fmt) calls (createdTables allocator calls) := by
  induction calls generalizing allocator with
  | nil => exact .nil
  | cons c calls ih =>
    rw [createdTables] at hsize ⊢
    obtain ⟨hsort, hlen, hsmall⟩ := hcalls c List.mem_cons_self
    refine .cons ⟨hsort, hlen, hsmall, fun hb => hsize hb _ List.mem_cons_self⟩ ?_
    exact ih (fun c hc => hcalls c (List.mem_cons_of_mem _ hc))
      fun hb t ht => hsize hb t (List.mem_cons_of_mem _ ht)

theorem createStep_allocator (fmt : TableFormatKind)
    (s : LevelManagerImpl × FileNumberAllocator × FileSystem) (c : List Entry × Env) :
    (createStep fmt s c).2.2.1 = s.2.1.next.2 := by
  cases h : writeOf fmt s c with
  | mk res fs' =>
    cases res with
    | error f => rw [createStep_eq_error h]
    | ok r => rw [createStep_eq_ok h]

theorem createStep_nil (fmt : TableFormatKind)
    (s : LevelManagerImpl × FileNumberAllocator × FileSystem) (env : Env) :
    ∃ f, (createStep fmt s ([], env)).1 = .error f := by
  have h : TableFormatKind.Outcome fmt _ [] env.now s.2.1.counter _ (writeOf fmt s ([], env)) :=
    fmt.writeTable_outcome env (s.1.pathOf (generateSSTableFileName env)) [] env.now s.2.1.counter
      (s.2.2.record (.nameDrawn (generateSSTableFileName env)))
  generalize hw : writeOf fmt s ([], env) = res at h
  cases h with
  | @refused f fs1 _ _ => exact ⟨f, by rw [createStep_eq_error hw]⟩
  | @left f fs1 _ _ _ _ _ => exact ⟨f, by rw [createStep_eq_error hw]⟩
  | created hencodes _ _ => exact absurd rfl hencodes.ne

theorem createStep_error {f : Fault} (h : (createStep fmt s c).1 = .error f) :
    (createStep fmt s c).2.1 = s.1 := by
  cases hw : writeOf fmt s c with
  | mk res fs' =>
    cases res with
    | error f => rw [createStep_eq_error hw]
    | ok r =>
      rw [createStep_eq_ok hw] at h
      cases h

/-- **One call**: it returns and its table is in front, or it throws and the readers stay. -/
theorem Served.step (h : Served n s tables) (hc : Creatable fmt c (createdTable s.2.1 c))
    (hname : ∀ t ∈ tables, t.name ≠ generateSSTableFileName c.2) :
    Served n (createStep fmt s c).2
      (tables ++ keptTables [(createStep fmt s c).1] [createdTable s.2.1 c]) := by
  have hlevel := h.levelNum
  subst hlevel
  obtain ⟨f, fs1, hrun, ht⟩ | ⟨-, r, fs1, hrun, ht, hserves, hmeta, hpath⟩ :=
    TableFormatKind.writeTable_leaves c.2 (s.1.pathOf (generateSSTableFileName c.2)) c.2.now
      s.2.1.counter (s.2.2.record (.nameDrawn (generateSSTableFileName c.2))) fmt hc.sorted
      hc.length hc.size
  · have hnew : OnlyNew s.1.m_levelNum (generateSSTableFileName c.2) s.2.2 fs1 :=
      fun other hother => ht.files _ _ fun he => hother he.2
    rw [createStep_eq_error hrun, keptTables, keptTables, List.append_nil]
    · exact ⟨rfl, h.onlyNew hnew hname⟩
    all_goals nofun
  · have hnew : OnlyNew s.1.m_levelNum (generateSSTableFileName c.2) s.2.2
        (fs1.record (.tableCreated (s.1.pathOf (generateSSTableFileName c.2))
          (fmt.content c.1 c.2.now s.2.1.counter))) :=
      fun other hother => ht.files _ _ fun he => hother he.2
    rw [createStep_eq_ok hrun, keptTables, keptTables]
    · refine ⟨rfl, ?_⟩
      rw [List.reverse_append, List.reverse_singleton, List.singleton_append]
      refine .cons ⟨hserves.mono (.record fs1 _), hmeta, fun b hb => ?_⟩ (h.onlyNew hnew hname)
      rw [hpath b hb]
      exact ⟨rfl, rfl⟩
    all_goals nofun

/-- **Every run** of calls. -/
theorem Served.run {calls : List (List Entry × Env)} (h : Served n s tables)
    (hcalls : List.Forall₂ (Creatable fmt) calls (createdTables s.2.1 calls))
    (hnames : (calls.map fun c => generateSSTableFileName c.2).Nodup)
    (hnew : ∀ t ∈ tables, ∀ c ∈ calls, t.name ≠ generateSSTableFileName c.2) :
    Served n (Machine.run (createStep fmt) s calls).2 (tables ++
      keptTables (Machine.run (createStep fmt) s calls).1 (createdTables s.2.1 calls)) := by
  induction calls generalizing s tables with
  | nil => simpa [createdTables, keptTables] using h
  | cons c calls ih =>
    rw [createdTables, List.forall₂_cons] at hcalls
    rw [List.map_cons, List.nodup_cons] at hnames
    have hstep := h.step hcalls.1 fun t ht => hnew t ht c List.mem_cons_self
    have halloc := createStep_allocator fmt s c
    have hrest := ih hstep (by rw [halloc]; exact hcalls.2) hnames.2 ?_
    · rw [Machine.run_cons, createdTables]
      rw [halloc, List.append_assoc] at hrest
      cases hout : (createStep fmt s c).1 <;> rw [hout] at hrest <;> exact hrest
    · intro t ht c' hc'
      rcases List.mem_append.1 ht with ht | ht
      · exact hnew t ht c' (List.mem_cons_of_mem _ hc')
      · have ht := (keptTables_sublist _ _).subset ht
        rw [List.mem_singleton.1 ht]
        exact fun he => hnames.1 (List.mem_map.2 ⟨c', hc', he.symm⟩)

end

/-! ## Their file numbers -/

theorem createdTables_pairwise {calls : List (List Entry × Env)} {allocator : FileNumberAllocator}
    (h : allocator.counter.toNat + calls.length ≤ 2 ^ 64) :
    (∀ t ∈ createdTables allocator calls, allocator.counter ≤ t.fileNum) ∧
      (createdTables allocator calls).Pairwise fun t u => t.fileNum < u.fileNum := by
  induction calls generalizing allocator with
  | nil => exact ⟨nofun, .nil⟩
  | cons c calls ih =>
    cases calls with
    | nil => simp [createdTables, createdTable]
    | cons c' calls =>
      -- a call follows, so the counter has not wrapped
      have hnext : allocator.next.2.counter.toNat = allocator.counter.toNat + 1 := by
        rw [List.length_cons, List.length_cons] at h
        show (allocator.counter + 1).toNat = _
        rw [UInt64.toNat_add, UInt64.toNat_one]
        omega
      have hbound : allocator.next.2.counter.toNat + (c' :: calls).length ≤ 2 ^ 64 := by
        rw [hnext]
        simp only [List.length_cons] at h ⊢
        omega
      obtain ⟨hge, hpair⟩ := ih hbound
      have hlt : ∀ t ∈ createdTables allocator.next.2 (c' :: calls),
          allocator.counter < t.fileNum := by
        intro t ht
        have := UInt64.le_iff_toNat_le.1 (hge t ht)
        rw [UInt64.lt_iff_toNat_lt]
        omega
      rw [createdTables]
      refine ⟨fun t ht => ?_, List.pairwise_cons.2 ⟨hlt, hpair⟩⟩
      rcases List.mem_cons.1 ht with rfl | ht
      · exact UInt64.le_refl _
      · exact UInt64.le_of_lt (hlt t ht)

/-- **A level reads newest first**, after any calls of `createTable`, also failed ones. -/
theorem reads_newest_first {fmt : TableFormatKind} (n : Nat) (base : Bytes)
    {allocator : FileNumberAllocator} (fs : FileSystem) {calls : List (List Entry × Env)}
    (hcount : allocator.counter.toNat + calls.length ≤ 2 ^ 64)
    (hcalls : ∀ c ∈ calls, SortedEntries c.1 ∧ c.1.length < 2 ^ 31 ∧ ∀ e ∈ c.1, e.Small)
    (hnames : (calls.map fun c => generateSSTableFileName c.2).Nodup)
    (hsize : fmt = .BlockBased →
      ∀ t ∈ createdTables allocator calls, (t.content fmt).length < 2 ^ 63) :
    let run := Machine.run (createStep fmt)
      ({ m_levelNum := n, m_basePath := base }, allocator, fs) calls
    let lm := run.2.1
    let fs' := run.2.2.2
    let newest := (keptTables run.1 (createdTables allocator calls)).reverse
    (∀ s c f, (createStep fmt s c).1 = .error f →
      (createStep fmt s c).2.1.m_tableReaders = s.1.m_tableReaders) ∧
    (∀ s c, c.1 = [] → ∃ f, (createStep fmt s c).1 = .error f) ∧
    lm.m_tableReaders.map TableReader.metadata = newest.map CreatedTable.metadata ∧
    lm.m_tableReaders.Pairwise (fun r r' => r'.metadata.m_file_number < r.metadata.m_file_number) ∧
    ∀ k, lm.getKey fs' k = .ok (live (firstEntry (newest.map CreatedTable.entries) k)) ∧
      getKeyUnpruned fs' k lm.m_tableReaders = lm.getKey fs' k := by
  intro run lm fs' newest
  have hcreatable := creatable_calls hcalls hsize
  have hstart : Served n ({ m_levelNum := n, m_basePath := base }, allocator, fs) [] := ⟨rfl, .nil⟩
  have hserved := (hstart.run hcreatable hnames nofun).readers
  rw [List.nil_append] at hserved
  have hserves : ServesAll fs' lm.m_tableReaders (newest.map CreatedTable.entries) :=
    List.forall₂_map_right_iff.2 (hserved.imp fun _ _ h => h.serves)
  have hmeta : lm.m_tableReaders.map TableReader.metadata = newest.map CreatedTable.metadata := by
    have := List.forall₂_map_left_iff.2 (List.forall₂_map_right_iff.2
      (hserved.imp fun _ _ h => h.metadata))
    exact List.forall₂_eq_eq_eq ▸ this
  refine ⟨fun s c f hf => ?_, fun s c hc => ?_, hmeta, ?_, fun k => ?_⟩
  · rw [createStep_error hf]
  · obtain ⟨es, env⟩ := c
    obtain rfl : es = [] := hc
    exact createStep_nil fmt s env
  · have hnums := ((createdTables_pairwise hcount).2.sublist
      (keptTables_sublist run.1 _)).map (S := fun m m' : SSTableMetadata =>
        m.m_file_number < m'.m_file_number) CreatedTable.metadata fun _ _ h => h
    rw [← List.pairwise_reverse, ← List.map_reverse, ← hmeta, List.pairwise_map] at hnums
    exact hnums
  · have hget : lm.getKey fs' k = _ := getKeyFrom_eq hserves k
    exact ⟨hget, (getKeyUnpruned_eq hserves k).trans hget.symm⟩

/-- Two tables that overlap and a call on an empty list between them: the second table deletes `b`
and overwrites `a`. -/
def overlappingCalls : List (List Entry × Env) :=
  [([⟨"a", "1", false⟩, ⟨"b", "2", false⟩], {}), ([], { nameCounter := 1 }),
    ([⟨"a", "3", false⟩, ⟨"b", "", true⟩], { nameCounter := 2 })]

theorem reads_newest_first_overlapping :
    let run := Machine.run (createStep .InMemory)
      ({ m_levelNum := 0, m_basePath := "" }, {}, FileSystem.empty) overlappingCalls
    run.2.1.m_tableReaders.map (·.metadata.m_file_number) = [2, 0] ∧
      run.2.1.getKey run.2.2.2 "a" = .ok (some ⟨"a", "3", false⟩) ∧
      run.2.1.getKey run.2.2.2 "b" = .ok none := by
  intro run
  have hcalls : ∀ c ∈ overlappingCalls, SortedEntries c.1 ∧ c.1.length < 2 ^ 31 ∧
      ∀ e ∈ c.1, e.Small := by
    intro c hc
    simp only [overlappingCalls, List.mem_cons, List.not_mem_nil, or_false] at hc
    rcases hc with rfl | rfl | rfl <;> exact ⟨by decide, by decide, by decide⟩
  obtain ⟨-, -, hmeta, -, hget⟩ := @reads_newest_first .InMemory 0 "" {} FileSystem.empty overlappingCalls
    (by decide) hcalls (by decide +kernel) nofun
  refine ⟨?_, (hget "a").1.trans (by decide +kernel), (hget "b").1.trans (by decide +kernel)⟩
  have := congrArg (List.map SSTableMetadata.m_file_number) hmeta
  rw [List.map_map, List.map_map] at this
  exact this.trans (by decide +kernel)

end LevelManagerImpl

end TinyKv
