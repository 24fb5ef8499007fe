import TinyKv.Core.SkipList
import TinyKv.Table.Proof.Seek

/-!
# The iterators of memtables and tables

The iterator of a table is an index into its sorted entries, that of a skip list is on one of its
entries. Both move like a cursor on the sorted entries (`SSTable.Iter.run_eq`,
`SkipListImpl.Iter.run_eq`), so nobody can tell one from the other by calls that start with a seek
(`iterators_agree`).
-/

namespace TinyKv

open Machine

/-! ## The iterator of a table -/

theorem SSTable.Iter.observe_eq (it : SSTable.Iter) :
    Iterator.observe it = .ok it.m_ssTable.m_entries[it.m_index]? := by
  obtain ⟨hvalid, hentry⟩ := SSTable.Iter.valid_entry (Eq.refl it.m_ssTable.m_entries[it.m_index]?)
  show (if it.valid then it.entry.map some else .ok none) = _
  rw [hvalid]
  cases h : it.m_ssTable.m_entries[it.m_index]? with
  | none => rfl
  | some e =>
    rw [hentry e h]
    rfl

theorem SSTable.Iter.call_eq {t : SSTable} (hsort : SortedEntries t.m_entries)
    (hlen : t.m_entries.length < 2 ^ 31) (i : Nat) (c : Cursor.Call Bytes) :
    Iterator.call (⟨i, t⟩ : SSTable.Iter) c = .ok ⟨Cursor.move Entry.key t.m_entries c i, t⟩ := by
  cases c with
  | seekToFirst => rfl
  | seekToLast =>
    show Except.ok (seekToLast _) = _
    unfold seekToLast
    split
    · rename_i h
      rw [Cursor.move, List.isEmpty_iff.1 h]
      rfl
    · rfl
  | seek key => exact SSTable.Iter.seek_eq hsort hlen key
  | next =>
    show Except.ok (next _) = _
    unfold next valid Cursor.move
    by_cases h : i < t.m_entries.length
    · simp [h]
    · simp [h]

/-- **The iterator of a table is a cursor.** -/
theorem SSTable.Iter.run_eq {t : SSTable} (hsort : SortedEntries t.m_entries)
    (hlen : t.m_entries.length < 2 ^ 31) (i : Nat) {c : Cursor.Call Bytes} (hc : c.IsSeek)
    (cs : List (Cursor.Call Bytes)) :
    (run Iterator.step (.ok (⟨i, t⟩ : SSTable.Iter)) (c :: cs)).1 =
      ((run (Cursor.step Entry.key t.m_entries) 0 (c :: cs)).1).map .ok := by
  have hstep : ∀ j d, Iterator.step (.ok (⟨j, t⟩ : SSTable.Iter)) d =
      (.ok t.m_entries[Cursor.move Entry.key t.m_entries d j]?,
        .ok ⟨Cursor.move Entry.key t.m_entries d j, t⟩) := by
    intro j d
    simp only [Iterator.step, Except.bind, call_eq hsort hlen, observe_eq]
  refine Cursor.run_eq (L := fun s => ∃ j, s = .ok ⟨j, t⟩) (P := fun s j => s = .ok ⟨j, t⟩)
    ?_ ?_ (fun s j h => ⟨j, h⟩) ?_ ⟨i, rfl⟩ hc cs
  · rintro _ d ⟨j, rfl⟩ hd
    rw [hstep, Cursor.move_of_isSeek hd j 0]
  · rintro _ j rfl
    rw [hstep]
  · rintro _ d j ⟨j', rfl⟩ h
    rw [hstep] at h ⊢
    cases h
    rfl

/-! ## The iterator of a skip list -/

theorem SkipListImpl.Iter.observe_eq (it : SkipListImpl.Iter) :
    Iterator.observe it = .ok it.m_it := by
  obtain ⟨l, p⟩ := it
  cases p <;> rfl

theorem SkipListImpl.Iter.call_seek {l : SkipListImpl} (p : Option Entry) {c : Cursor.Call Bytes}
    (hc : c.IsSeek) : Iterator.call (⟨l, p⟩ : SkipListImpl.Iter) c =
      .ok ⟨l, l.toList[Cursor.move Entry.key l.toList c 0]?⟩ := by
  cases c with
  | next => exact hc.elim
  | seekToFirst =>
    show Except.ok (seekToFirst _) = _
    rw [seekToFirst, List.head?_eq_getElem?]
    rfl
  | seekToLast =>
    show Except.ok (seekToLast _) = _
    unfold seekToLast
    split
    · rename_i h
      rw [List.getElem?_eq_none (by rw [List.length_eq_zero_iff.1 h]; exact Nat.zero_le _)]
    · rw [List.getLast?_eq_getElem?]
      rfl
  | seek key =>
    show Except.ok (seek _ _) = _
    rw [seek, Cursor.move, Keyed.getElem?_position]
    rfl

theorem SkipListImpl.Iter.call_next (l : SkipListImpl) (i : Nat) :
    Iterator.call (⟨l, l.toList[i]?⟩ : SkipListImpl.Iter) .next =
      .ok ⟨l, l.toList[Cursor.move Entry.key l.toList .next i]?⟩ := by
  show Except.ok (next _) = _
  unfold next Cursor.move
  by_cases hi : i < l.toList.length
  · simp only [List.getElem?_eq_getElem hi, if_pos hi, ← Keyed.find?_gt l.sorted hi]
    congr!
  · simp only [List.getElem?_eq_none (not_lt.1 hi), if_neg hi]

/-- **The iterator of a skip list is a cursor.** -/
theorem SkipListImpl.Iter.run_eq (l : SkipListImpl) (p : Option Entry) {c : Cursor.Call Bytes}
    (hc : c.IsSeek) (cs : List (Cursor.Call Bytes)) :
    (run Iterator.step (.ok (⟨l, p⟩ : SkipListImpl.Iter)) (c :: cs)).1 =
      ((run (Cursor.step Entry.key l.toList) 0 (c :: cs)).1).map .ok := by
  refine Cursor.run_eq (L := fun s => ∃ q, s = .ok ⟨l, q⟩)
    (P := fun s j => s = .ok ⟨l, l.toList[j]?⟩) ?_ ?_ (fun s j h => ⟨_, h⟩) ?_ ⟨p, rfl⟩ hc cs
  · rintro _ d ⟨q, rfl⟩ hd
    simp only [Iterator.step, Except.bind, call_seek q hd]
  · rintro _ j rfl
    simp only [Iterator.step, Except.bind, call_next]
  · rintro _ d j ⟨q, rfl⟩ h
    unfold Iterator.step at h ⊢
    cases hcall : Iterator.call (⟨l, q⟩ : SkipListImpl.Iter) d with
    | error f =>
      simp only [Except.bind, hcall] at h
      cases h
    | ok it =>
      simp only [Except.bind, hcall] at h ⊢
      cases h
      exact observe_eq _

/-! ## Both -/

/-- **The two iterators are one machine.** Over entries with distinct keys, put into a skip list in
one order and into a table in another, and wherever the iterators stand, any calls that start with
a seek show the same, and none faults. Walking from the first entry shows the entries in the order of
their keys, each once, and then nothing. -/
theorem iterators_agree {es set given : List Entry} (hnd : (es.map Entry.key).Nodup)
    (hlen : es.length < 2 ^ 31) (hset : set.Perm es) (hgiven : given.Perm es) (m : SSTableMetadata)
    (i : Nat) (p : Option Entry) :
    let table : SSTable.Iter := ⟨i, SSTable.ofEntries m given⟩
    let memtable : SkipListImpl.Iter := ⟨SortedMap.empty.insertAll set, p⟩
    (∀ (c : Cursor.Call Bytes) cs, c.IsSeek →
      (run Iterator.step (.ok memtable) (c :: cs)).1 = (run Iterator.step (.ok table) (c :: cs)).1 ∧
      ∀ o ∈ (run Iterator.step (.ok table) (c :: cs)).1, ∃ shown, o = .ok shown) ∧
    ∃ sorted, SortedEntries sorted ∧ sorted.Perm es ∧ ∀ n,
      (run Iterator.step (.ok memtable) (.seekToFirst :: List.replicate n .next)).1 =
        (List.range (n + 1)).map (fun j => .ok sorted[j]?) ∧
      (run Iterator.step (.ok table) (.seekToFirst :: List.replicate n .next)).1 =
        (List.range (n + 1)).map (fun j => .ok sorted[j]?) := by
  intro table memtable
  have hperm : (sortEntries given).Perm es := (sortEntries_perm given).trans hgiven
  have hsort : SortedEntries (sortEntries given) :=
    sortEntries_sorted ((hgiven.map Entry.key).nodup_iff.2 hnd)
  have hlist : ((SortedMap.empty : SkipListImpl).insertAll set).toList = sortEntries given :=
    SortedMap.toList_insertAll ((hset.map Entry.key).nodup_iff.2 hnd) (hperm.trans hset.symm) hsort
  have htable := fun {c} hc cs => @SSTable.Iter.run_eq (SSTable.ofEntries m given) hsort
    (hperm.length_eq ▸ hlen) i c hc cs
  have hmem := fun {c} hc cs => @SkipListImpl.Iter.run_eq (SortedMap.empty.insertAll set) p c hc cs
  rw [hlist] at hmem
  refine ⟨fun c cs hc => ⟨?_, fun o ho => ?_⟩, sortEntries given, hsort, hperm, fun n => ⟨?_, ?_⟩⟩
  · rw [hmem hc cs, htable hc cs]
    rfl
  · rw [htable hc cs] at ho
    obtain ⟨shown, -, rfl⟩ := List.mem_map.1 ho
    exact ⟨shown, rfl⟩
  · rw [@hmem .seekToFirst trivial, Cursor.run_walk, List.map_map]
    rfl
  · rw [@htable .seekToFirst trivial]
    show List.map _ (run (Cursor.step Entry.key (sortEntries given)) 0 _).1 = _
    rw [Cursor.run_walk, List.map_map]
    rfl

/-- Two new iterators, a key that is there, steps beyond the end and a key that is not. -/
theorem iterators_agree_two :
    let es : List Entry := [⟨"b", "2", false⟩, ⟨"a", "val", true⟩]
    let calls : List (Cursor.Call Bytes) := [.seek "a", .next, .next, .next, .seek "c", .seekToLast]
    (run Iterator.step (.ok (SkipListImpl.newIterator (SortedMap.empty.insertAll es))) calls).1 =
      (run Iterator.step (.ok (SSTable.ofEntries ⟨0, 0, [], []⟩ es.reverse).newIterator) calls).1 := by
  intro es calls
  have h := @iterators_agree es es es.reverse (by decide) (by decide) (.refl es) es.reverse_perm
    ⟨0, 0, [], []⟩ 0 none
  exact (h.1 (.seek "a") [.next, .next, .next, .seek "c", .seekToLast] trivial).1

end TinyKv
