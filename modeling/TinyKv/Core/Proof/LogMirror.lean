import TinyKv.Core.Proof.Crash

/-!
# The log mirrors the memtable

Between two calls of any run, the entries that `WAL::getEntries` reads from the log give the skip
list when they are set in order, and they have at most `memtableCapacity` keys. It follows from
`DiskRep`, the invariant of the write path.
-/

namespace TinyKv

open Bytes

variable {config : DbFactoryConfig} {m : MemTableImpl StorageManagerImpl} {fs : FileSystem}
  {tables : List (List Entry)}

theorem sortedEntries_map_persisted {es : List Entry} (h : SortedEntries es) :
    SortedEntries (es.map Entry.persisted) :=
  List.pairwise_map.2 h

theorem find?_insertAll_empty (entries : List Entry) (k : Bytes) :
    (SortedMap.empty.insertAll entries : SkipListImpl).find? k = lookup entries.reverse k := by
  rw [SortedMap.find?_insertAll, SortedMap.find?_empty, Option.or_none]

theorem DiskRep.entries (h : DiskRep config m fs tables) :
    ∃ entries, WAL.getEntries fs = some entries ∧
      (SortedMap.empty.insertAll entries : SkipListImpl).toList =
        m.m_skiplist.toList.map Entry.persisted := by
  obtain ⟨log, hwal, hlog, hmem⟩ := h.logged
  have hread := WAL.readRecords_log hlog (rfl : WAL.readRecord [] = .tail)
  rw [List.append_nil, ← hwal, ← WAL.getEntries_eq] at hread
  refine ⟨log.map Entry.persisted, hread, ?_⟩
  apply Keyed.eq_of_lookup (SortedMap.sorted _) (sortedEntries_map_persisted m.m_skiplist.sorted)
  intro k
  calc (SortedMap.empty.insertAll (log.map Entry.persisted) : SkipListImpl).find? k
      = lookup (log.map Entry.persisted).reverse k := find?_insertAll_empty ..
    _ = (m.m_skiplist.find? k).map Entry.persisted := by
        rw [← List.map_reverse, lookup_map_persisted, hmem]
    _ = lookup (m.m_skiplist.toList.map Entry.persisted) k := (lookup_map_persisted ..).symm

theorem mem_keys_insertAll {entries : List Entry} {k : Bytes} (hk : k ∈ entries.map Entry.key) :
    k ∈ (SortedMap.empty.insertAll entries : SkipListImpl).toList.map Entry.key := by
  obtain ⟨e, he, rfl⟩ := List.mem_map.1 hk
  have hfound : (lookup entries.reverse e.key).isSome :=
    Keyed.lookup_isSome.2 ⟨e, List.mem_reverse.2 he, rfl⟩
  obtain ⟨x, hx⟩ := Option.isSome_iff_exists.1 hfound
  have hfind := (find?_insertAll_empty entries e.key).trans hx
  exact List.mem_map.2 ⟨x, Keyed.mem_of_lookup hfind, Keyed.lookup_key hfind⟩

theorem length_dedup_keys_le (entries : List Entry) :
    (entries.map Entry.key).dedup.length ≤
      (SortedMap.empty.insertAll entries : SkipListImpl).size := by
  have hsub : (entries.map Entry.key).dedup ⊆
      (SortedMap.empty.insertAll entries : SkipListImpl).toList.map Entry.key := fun k hk =>
    mem_keys_insertAll (List.mem_dedup.1 hk)
  have := ((List.nodup_dedup _).subperm hsub).length_le
  rwa [List.length_map] at this

/-- **The log mirrors the memtable**, between any two calls. -/
theorem log_mirrors_memtable {config : DbFactoryConfig} (hcap : 1 ≤ config.memtableCapacity)
    {steps : List (Call × Env)} (hsteps : ∀ c ∈ steps, c.1.Loggable ∧ c.2.NoFault) :
    ∃ entries, WAL.getEntries (runFresh config steps).2.2 = some entries ∧
      (SortedMap.empty.insertAll entries : SkipListImpl).toList =
        (runFresh config steps).2.1.m_memTable.m_skiplist.toList.map Entry.persisted ∧
      (entries.map Entry.key).dedup.length ≤ config.memtableCapacity.toInt := by
  have huntorn : ∀ c ∈ steps, c.1.Loggable ∧ c.2.Untorn := by
    intro c hc
    obtain ⟨hl, henv⟩ := hsteps c hc
    refine ⟨hl, fun f hf => ?_⟩
    rw [henv.append] at hf
    cases hf
  obtain ⟨tables, h, -⟩ := run_disk hcap huntorn
  obtain ⟨entries, hget, hset⟩ := h.entries
  refine ⟨entries, hget, hset, ?_⟩
  have hkeys := length_dedup_keys_le entries
  rw [SortedMap.size, hset, List.length_map] at hkeys
  have hbound := h.bounded
  unfold SortedMap.size capacityOf at hbound
  rw [Int32.le_iff_toInt_le] at hcap
  have h1 : (1 : Int32).toInt = 1 := by decide
  omega

/-- An overwrite that arrives when the memtable is full. -/
theorem log_mirrors_memtable_overwrite :
    ∃ entries, WAL.getEntries (runFresh { memtableCapacity := 1 }
        [(.put "a" "1", {}), (.put "a" "2", {}), (.del "a", { nameCounter := 1 })]).2.2 =
          some entries ∧
      (SortedMap.empty.insertAll entries : SkipListImpl).toList = [⟨"a", "", true⟩] ∧
      (entries.map Entry.key).dedup.length ≤ 1 := by
  obtain ⟨entries, hget, hset, hkeys⟩ := @log_mirrors_memtable { memtableCapacity := 1 } (by decide)
    [(.put "a" "1", {}), (.put "a" "2", {}), (.del "a", { nameCounter := 1 })] (by
      intro c hc
      simp only [List.mem_cons, List.not_mem_nil, or_false] at hc
      rcases hc with rfl | rfl | rfl
      · exact ⟨⟨by decide, by decide⟩, fun _ => rfl, rfl, rfl⟩
      · exact ⟨⟨by decide, by decide⟩, fun _ => rfl, rfl, rfl⟩
      · exact ⟨show (ofString "a").length ≤ 2 ^ 30 by decide, fun _ => rfl, rfl, rfl⟩)
  refine ⟨entries, hget, hset.trans (by decide +kernel), ?_⟩
  have : ((1 : Int32).toInt) = 1 := by decide
  exact_mod_cast this ▸ hkeys

end TinyKv
