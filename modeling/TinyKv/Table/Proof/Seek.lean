import TinyKv.Table.Proof.Reopen

/-!
# Lookups in a table are linear search

`SSTable::get` and `SSTable::Iter::Seek` search a sorted vector by halving, each with a loop of its
own. The loop of `Seek` ends on the first position with the key, or behind the last entry
(`seek_eq`), so both find what a linear search finds (`lookups_eq_linear`).
-/

namespace TinyKv

open Keyed (position)

namespace SSTable

/-- **The loop of `Seek`**: with every key before `l` below `key` and every key behind `r` above it,
the loop ends on the entry with the key, or nowhere when there is none. -/
theorem seekSearch_eq {t : SSTable} (hsort : SortedEntries t.m_entries)
    (hlen : t.m_entries.length < 2 ^ 31) (key : Bytes) {l r : Int} (h0 : 0 ≤ l)
    (hr : r < t.m_entries.length)
    (hlow : ∀ (i : Nat) (hi : i < t.m_entries.length), (i : Int) < l → t.m_entries[i].key < key)
    (hhigh : ∀ (i : Nat) (hi : i < t.m_entries.length), r < (i : Int) → key < t.m_entries[i].key) :
    t.seekSearch key l r = .ok (if position Entry.key t.m_entries key < t.m_entries.length then
      some (position Entry.key t.m_entries key : Int) else none) := by
  fun_induction seekSearch t key l r with
  | case1 l r hle mid ih1 ih2 =>
    have hmid : mid = l + (r - l) / 2 := rfl
    have hm : mid.toNat < t.m_entries.length := by omega
    rw [entryAt_of_lt (by omega) hm]
    simp only [bind, Except.bind]
    split
    · rename_i heq
      rw [← heq, Keyed.position_getElem hsort hm, if_pos hm, Int.toNat_of_nonneg (by omega)]
      rfl
    · rename_i hne
      split
      · rename_i hbelow
        refine ih1 h0 (by omega) hlow fun i hi hgt => ?_
        exact hsort.lt_getElem_of_le hm hi (by omega) hbelow
      · rename_i hnlt
        have habove := lt_of_le_of_ne (not_lt.1 hnlt) hne
        rw [if_neg (by omega)]
        refine ih2 (by omega) hr (fun i hi hlt => ?_) hhigh
        exact hsort.getElem_lt_of_le hi hm (by omega) habove
  | case2 l r hgt =>
    -- the bounds have met, so every key is on one side
    have hnone : position Entry.key t.m_entries key = t.m_entries.length := by
      refine Keyed.position_eq_length.2 fun e he => ?_
      obtain ⟨i, hi, rfl⟩ := List.getElem_of_mem he
      rcases lt_or_ge (i : Int) l with h | h
      · exact (hlow i hi h).ne
      · exact (hhigh i hi (by omega)).ne'
    rw [hnone, if_neg (lt_irrefl _)]
    rfl

/-- **`Seek`** ends on the first position with the key. -/
theorem Iter.seek_eq {it : Iter} (hsort : SortedEntries it.m_ssTable.m_entries)
    (hlen : it.m_ssTable.m_entries.length < 2 ^ 31) (key : Bytes) :
    it.seek key = .ok { it with m_index := position Entry.key it.m_ssTable.m_entries key } := by
  unfold seek
  dsimp only
  split
  · rename_i h
    rw [List.length_eq_zero_iff.1 h]
    rfl
  · rename_i h
    rw [toInt_lastIndex h hlen, seekSearch_eq hsort hlen key (le_refl _) (by omega)
      (fun i _ hi => by omega) fun i hi hgt => by omega]
    by_cases hpos : position Entry.key it.m_ssTable.m_entries key < it.m_ssTable.m_entries.length
    · rw [if_pos hpos]
      rfl
    · have hend : position Entry.key it.m_ssTable.m_entries key = it.m_ssTable.m_entries.length :=
        le_antisymm (Keyed.position_le_length _ _) (not_lt.1 hpos)
      rw [if_neg hpos, hend]

theorem Iter.valid_entry {it : Iter} {found : Option Entry}
    (h : it.m_ssTable.m_entries[it.m_index]? = found) :
    it.valid = found.isSome ∧ ∀ e, found = some e → it.entry = .ok e := by
  refine ⟨?_, fun e he => ?_⟩
  · rw [Bool.eq_iff_iff, ← h, isSome_getElem?]
    exact decide_eq_true_iff
  · rw [entry, entryAt, if_neg (by omega), Int.toNat_natCast, h, he]

/-- **A table finds what a linear search finds**, by `get` and by `Seek`, whatever the order its
entries came in and wherever the iterator stood. -/
theorem lookups_eq_linear {es : List Entry} (hnd : (es.map Entry.key).Nodup)
    (hlen : es.length < 2 ^ 31) (m : SSTableMetadata) (key : Bytes) (i : Nat) :
    (ofEntries m es).get key = .ok (lookup es key) ∧
    ∃ it, Iter.seek ⟨i, ofEntries m es⟩ key = .ok it ∧ it.valid = (lookup es key).isSome ∧
      ∀ e, lookup es key = some e → it.entry = .ok e := by
  have hsort := sortEntries_sorted hnd
  have hlen' : (sortEntries es).length < 2 ^ 31 := (sortEntries_perm es).length_eq ▸ hlen
  have hseek := @Iter.seek_eq ⟨i, ofEntries m es⟩ hsort hlen' key
  have hfound : (sortEntries es)[position Entry.key (sortEntries es) key]? = lookup es key :=
    (Keyed.getElem?_position _ _).trans (Keyed.lookup_perm hnd (sortEntries_perm es) key)
  refine ⟨?_, _, hseek, @Iter.valid_entry ⟨_, ofEntries m es⟩ _ hfound⟩
  rw [get_eq hsort hlen']
  exact congrArg Except.ok (Keyed.lookup_perm hnd (sortEntries_perm es) key)

/-- Three entries out of order, and a key between them. -/
theorem lookups_eq_linear_three :
    let es : List Entry := [⟨"c", "3", false⟩, ⟨"a", "val", true⟩, ⟨"d", "4", false⟩]
    (ofEntries ⟨0, 0, [], []⟩ es).get "a" = .ok (some ⟨"a", "val", true⟩) ∧
      ∃ it, Iter.seek ⟨0, ofEntries ⟨0, 0, [], []⟩ es⟩ "b" = .ok it ∧ it.valid = false := by
  intro es
  refine ⟨(@lookups_eq_linear es (by decide) (by decide) ⟨0, 0, [], []⟩ "a" 0).1, ?_⟩
  obtain ⟨it, hseek, hvalid, -⟩ :=
    (@lookups_eq_linear es (by decide) (by decide) ⟨0, 0, [], []⟩ "b" 0).2
  exact ⟨it, hseek, hvalid⟩

end SSTable

end TinyKv
