import TinyKv.Wal.Proof.TornTail

/-!
# What can be read back from a log

`getEntries` gives up on a log where behind whole records there is a header with a length above
`2 ^ 30` (`readRecords_eq_none_iff`). `append` has no such limit: it takes a string of any length and
writes such a header for it. So a log can be read back iff no string in it is too long
(`getEntries_appendAll_iff`), and one string that is too long loses all the others
(`getEntries_longKey`).
-/

namespace TinyKv.WAL

open Bytes

/-! ## Any bytes -/

/-- A record that `getEntries` takes: lengths within the limit, and as many bytes. Behind the key of a
tombstone there is no value, whatever its length says. -/
def WholeRecord (bs : Bytes) : Prop :=
  ∃ t k v body, k ≤ 2 ^ 30 ∧ v ≤ 2 ^ 30 ∧ body.length = k + (if t = 1 then 0 else v) ∧
    bs = t :: (leBytes 4 k ++ (leBytes 4 v ++ body))

/-- A header with a length that is too large. -/
def CorruptHeader (bs : Bytes) : Prop :=
  ∃ t k v rest, k < 2 ^ 32 ∧ v < 2 ^ 32 ∧ (2 ^ 30 < k ∨ 2 ^ 30 < v) ∧
    bs = t :: (leBytes 4 k ++ (leBytes 4 v ++ rest))

/-- Whole records, and then a header with a length that is too large. -/
def Corrupt (log : Bytes) : Prop :=
  ∃ (records : List Bytes) (rest : Bytes), (∀ r ∈ records, WholeRecord r) ∧ CorruptHeader rest ∧
    log = records.flatten ++ rest

theorem readRecord_corrupt {bs : Bytes} (h : CorruptHeader bs) : readRecord bs = .corrupt := by
  obtain ⟨t, k, v, rest, hk, hv, hlong, rfl⟩ := h
  rw [readRecord_words hk hv, if_pos hlong]

theorem readRecord_whole {r : Bytes} (h : WholeRecord r) (rest : Bytes) :
    ∃ e, readRecord (r ++ rest) = .entry e rest := by
  obtain ⟨t, k, v, body, hk, hv, hlen, rfl⟩ := h
  simp only [List.cons_append, List.append_assoc]
  rw [readRecord_header hk hv, if_neg (by rw [List.length_append]; omega)]
  by_cases ht : t = 1
  · rw [if_pos ht] at hlen ⊢
    exact ⟨_, by rw [List.drop_left' (by omega)]⟩
  · rw [if_neg ht] at hlen ⊢
    have hdrop : ((body ++ rest).drop k).drop v = rest := by
      rw [List.drop_drop]
      exact List.drop_left' hlen
    rw [if_neg (by rw [List.length_drop, List.length_append]; omega), hdrop]
    exact ⟨_, rfl⟩

/-- **What one round sees**: a short rest, a header with a length that is too large, or an entry, and
then a whole record. -/
theorem readRecord_cases (bs : Bytes) :
    readRecord bs = .tail ∨ (readRecord bs = .corrupt ∧ CorruptHeader bs) ∨
      ∃ r e rest, readRecord bs = .entry e rest ∧ e.Loggable ∧ WholeRecord r ∧ bs = r ++ rest := by
  by_cases hlen : bs.length < 9
  · exact .inl (readRecord_short hlen)
  obtain ⟨t, k, v, body, hk, hv, rfl⟩ := exists_header (not_lt.1 hlen)
  rw [readRecord_words hk hv]
  by_cases hlong : k > 2 ^ 30 ∨ v > 2 ^ 30
  · rw [if_pos hlong]
    exact .inr (.inl ⟨rfl, t, k, v, body, hk, hv, hlong, rfl⟩)
  rw [if_neg hlong]
  obtain ⟨hk, hv⟩ : k ≤ 2 ^ 30 ∧ v ≤ 2 ^ 30 := by omega
  by_cases hkey : body.length < k
  · rw [if_pos hkey]
    exact .inl rfl
  rw [if_neg hkey]
  have htake : (body.take k).length = k := by
    rw [List.length_take]
    omega
  by_cases ht : t = 1
  · rw [if_pos ht]
    refine .inr (.inr ⟨t :: (leBytes 4 k ++ (leBytes 4 v ++ body.take k)), _, _, rfl,
      ⟨htake.trans_le hk, Nat.zero_le _⟩, ⟨t, k, v, _, hk, hv, ?_, rfl⟩, ?_⟩)
    · rw [if_pos ht, htake, Nat.add_zero]
    · simp only [List.cons_append, List.append_assoc, List.take_append_drop]
  rw [if_neg ht]
  by_cases hval : (body.drop k).length < v
  · rw [if_pos hval]
    exact .inl rfl
  rw [if_neg hval]
  have htake' : ((body.drop k).take v).length = v := by
    rw [List.length_take]
    omega
  refine .inr (.inr ⟨t :: (leBytes 4 k ++ (leBytes 4 v ++ (body.take k ++ (body.drop k).take v))),
    _, _, rfl, ⟨htake.trans_le hk, htake'.trans_le hv⟩, ⟨t, k, v, _, hk, hv, ?_, rfl⟩, ?_⟩)
  · rw [if_neg ht, List.length_append, htake, htake']
  · simp only [List.cons_append, List.append_assoc, List.take_append_drop]

theorem loggable_of_readRecords (bs : Bytes) {entries : List Entry}
    (h : readRecords bs = some entries) : ∀ e ∈ entries, e.Loggable := by
  fun_induction readRecords bs generalizing entries with
  | case1 bs _ =>
    cases h
    exact List.forall_mem_nil _
  | case2 bs _ => cases h
  | case3 bs e rest hround ih =>
    obtain ⟨entries, hrest, rfl⟩ := Option.map_eq_some_iff.1 h
    obtain hr | ⟨hr, -⟩ | ⟨-, e', rest', hr, he, -⟩ := readRecord_cases bs
    · rw [hr] at hround
      cases hround
    · rw [hr] at hround
      cases hround
    · rw [hr] at hround
      obtain ⟨rfl, rfl⟩ := Round.entry.inj hround
      intro x hx
      rcases List.mem_cons.1 hx with rfl | hx
      · exact he
      · exact ih hrest x hx

/-- **Which logs cannot be decoded.** -/
theorem readRecords_eq_none_iff (log : Bytes) : readRecords log = none ↔ Corrupt log := by
  refine ⟨fun h => ?_, ?_⟩
  · fun_induction readRecords log with
    | case1 bs _ => cases h
    | case2 bs hround =>
      obtain hr | ⟨-, hc⟩ | ⟨r, e, rest, hr, -⟩ := readRecord_cases bs
      · rw [hr] at hround
        cases hround
      · exact ⟨[], bs, List.forall_mem_nil _, hc, rfl⟩
      · rw [hr] at hround
        cases hround
    | case3 bs e rest hround ih =>
      obtain ⟨records, tail, hwhole, hc, rfl⟩ := ih (Option.map_eq_none_iff.1 h)
      obtain hr | ⟨hr, -⟩ | ⟨r, e', rest', hr, -, hw, rfl⟩ := readRecord_cases bs
      · rw [hr] at hround
        cases hround
      · rw [hr] at hround
        cases hround
      · rw [hr] at hround
        obtain ⟨rfl, rfl⟩ := Round.entry.inj hround
        refine ⟨r :: records, tail, List.forall_mem_cons.2 ⟨hw, hwhole⟩, hc, ?_⟩
        rw [List.flatten_cons, List.append_assoc]
  · rintro ⟨records, rest, hwhole, hc, rfl⟩
    induction records with
    | nil =>
      rw [List.flatten_nil, List.nil_append, readRecords]
      have hr := readRecord_corrupt hc
      split <;> simp_all
    | cons r records ih =>
      obtain ⟨hw, hwhole⟩ := List.forall_mem_cons.1 hwhole
      obtain ⟨e, he⟩ := readRecord_whole hw (records.flatten ++ rest)
      rw [List.flatten_cons, List.append_assoc, readRecords_entry he, ih hwhole]
      rfl

/-! ## What was appended -/

/-- The key, and the value of a put, are short enough for `getEntries`. -/
def Readable (e : Entry) : Prop :=
  e.key.length ≤ 2 ^ 30 ∧ (e.tombstone = false → e.val.length ≤ 2 ^ 30)

theorem loggable_persisted_iff (e : Entry) : e.persisted.Loggable ↔ Readable e := by
  unfold Entry.Loggable Readable Entry.persisted
  dsimp only
  cases e.tombstone with
  | true => simp
  | false => simp

theorem record_persisted (e : Entry) : record e.persisted = record e := by
  unfold record Entry.persisted
  dsimp only
  cases e.tombstone with
  | true => simp
  | false => simp

/-- **What is appended can be read back iff no string in it is too long.** -/
theorem getEntries_appendAll_iff (w : WAL) (es : List Entry) :
    getEntries (w.appendAll es) = some (es.map Entry.persisted) ↔
      ∀ e ∈ es, e.key.length ≤ 2 ^ 30 ∧ (e.tombstone = false → e.val.length ≤ 2 ^ 30) := by
  rw [getEntries_eq, appendAll_wal]
  refine ⟨fun h e he => ?_, fun h => ?_⟩
  · have hlog := loggable_of_readRecords _ h e.persisted (List.mem_map_of_mem he)
    exact (loggable_persisted_iff e).1 hlog
  · have hlog : ∀ e ∈ es.map Entry.persisted, e.Loggable := by
      intro e he
      obtain ⟨e', he', rfl⟩ := List.mem_map.1 he
      exact (loggable_persisted_iff e').2 (h e' he')
    have hread := readRecords_log hlog (show readRecord [] = .tail from rfl)
    have hsame : (es.map Entry.persisted).flatMap record = es.flatMap record := by
      rw [List.flatMap_map]
      exact List.flatMap_congr fun e _ => record_persisted e
    have hidem : (es.map Entry.persisted).map Entry.persisted = es.map Entry.persisted := by
      rw [List.map_map]
      exact List.map_congr_left fun e _ => e.persisted_persisted
    rw [hsame, hidem, List.append_nil] at hread
    exact hread

/-- A key that is too long makes the log unreadable, the entries before it and behind it included. -/
theorem getEntries_of_longKey (w : WAL) {e : Entry} (hlong : 2 ^ 30 < e.key.length)
    (hlt : e.key.length < 2 ^ 32) {es : List Entry} (hes : ∀ e ∈ es, e.Loggable) (es' : List Entry) :
    getEntries (w.appendAll (es ++ e :: es')) = none := by
  rw [getEntries_eq, appendAll_wal, readRecords_eq_none_iff]
  refine ⟨es.map record, (e :: es').flatMap record, fun r hr => ?_, ?_, ?_⟩
  · obtain ⟨x, hx, rfl⟩ := List.mem_map.1 hr
    have hlog := hes x hx
    refine ⟨_, _, _, _, hlog.1, hlog.persisted, ?_, record_eq hlog⟩
    rw [List.length_append]
    cases ht : x.tombstone with
    | true => simp [typeByte, Entry.persisted, ht]
    | false => simp [typeByte, ht]
  · set vlen := if e.tombstone then 0 else e.val.length % 2 ^ 32 with hvlen
    refine ⟨if e.tombstone then 1 else 0, e.key.length, vlen,
      e.key.take e.key.length ++ (e.val.take vlen ++ es'.flatMap record), hlt, ?_, .inl hlong, ?_⟩
    · rw [hvlen]
      split
      · decide
      · exact Nat.mod_lt _ (by decide)
    · rw [List.flatMap_cons, record, Nat.mod_eq_of_lt hlt]
      simp only [← hvlen, List.append_assoc, List.cons_append, List.nil_append]
  · rw [List.flatMap_append, List.flatMap_def]

/-- Every call for a short entry and one with a key of `2 ^ 30 + 1` bytes succeeds, and the log cannot
be read. -/
theorem getEntries_longKey :
    let es : List Entry := [⟨"a", "1", false⟩, ⟨List.replicate (2 ^ 30 + 1) 97, "1", false⟩]
    (∀ o ∈ (Machine.run (appendOne ⟨"./wal", 0⟩) .empty es).1, o = none) ∧
      getEntries (appendAll ⟨"./wal", 0⟩ es) = none ∧
      getEntries (appendAll ⟨"./wal", 0⟩ es) ≠ some (es.map Entry.persisted) := by
  intro es
  have hnone : getEntries (appendAll ⟨"./wal", 0⟩ es) = none := by
    refine @getEntries_of_longKey ⟨"./wal", 0⟩ ⟨List.replicate (2 ^ 30 + 1) 97, "1", false⟩ ?_ ?_
      [⟨"a", "1", false⟩] (by decide) []
    · rw [List.length_replicate]
      decide
    · rw [List.length_replicate]
      decide
  refine ⟨fun o ho => ?_, hnone, ?_⟩
  · rcases List.mem_cons.1 ho with rfl | ho
    · rfl
    · exact List.mem_singleton.1 ho
  · rw [hnone]
    exact fun h => by cases h

end TinyKv.WAL
