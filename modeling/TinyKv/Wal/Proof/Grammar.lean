import TinyKv.Wal.Proof.ReadBack

/-!
# The grammar of a log

What `getEntries` makes of any bytes at all. A log that is read is the encodings of its entries one
after the other (`RecordOf`), and behind them a record that was cut short, or nothing (`CutShort`):
`getEntries_grammar`. The encodings are those of `append` but for two fields that the reader does not
check: a type byte other than 1 is that of a put, and the length of the value of a tombstone is read
but not used.
-/

namespace TinyKv.WAL

open Bytes

/-- An encoding of the entry. -/
def RecordOf (e : Entry) (r : Bytes) : Prop :=
  ∃ (t : UInt8) (v : Nat), r = t :: (leBytes 4 e.key.length ++ (leBytes 4 v ++ (e.key ++ e.val))) ∧
    e.key.length ≤ 2 ^ 30 ∧ v ≤ 2 ^ 30 ∧ (t = 1 ↔ e.tombstone = true) ∧
    if e.tombstone then e.val = [] else v = e.val.length

/-- The first bytes of a record, less than all of them. -/
def CutShort (bs : Bytes) : Prop :=
  bs.length < 9 ∨ ∃ t k v body, bs = t :: (leBytes 4 k ++ (leBytes 4 v ++ body)) ∧ k ≤ 2 ^ 30 ∧
    v ≤ 2 ^ 30 ∧ body.length < k + if t = 1 then 0 else v

/-! ## One record -/

theorem recordOf_record {e : Entry} (h : e.Loggable) : RecordOf e.persisted (record e) := by
  refine ⟨typeByte e, e.persisted.val.length, record_eq h, h.1, h.persisted, ?_, ?_⟩
  · cases ht : e.tombstone <;> simp [typeByte, Entry.persisted, ht]
  · cases ht : e.tombstone <;> simp [Entry.persisted, ht]

theorem readRecord_recordOf {e : Entry} {r : Bytes} (h : RecordOf e r) (rest : Bytes) :
    readRecord (r ++ rest) = .entry e rest := by
  obtain ⟨t, v, rfl, hk, hv, ht, hval⟩ := h
  obtain ⟨key, val, tombstone⟩ := e
  simp only [List.cons_append, List.append_assoc]
  rw [readRecord_header hk hv]
  cases tombstone with
  | true =>
    obtain rfl : val = [] := hval
    have ht : t = 1 := ht.2 rfl
    simp [ht]
  | false =>
    obtain rfl : v = val.length := hval
    have ht : ¬ t = 1 := fun h => absurd (ht.1 h) (by simp)
    simp only [List.length_append, List.take_left, List.drop_left, ht, ↓reduceIte]
    rw [if_neg (by omega), if_neg (by omega)]

theorem recordOf_of_readRecord {bs rest : Bytes} {e : Entry} (h : readRecord bs = .entry e rest) :
    ∃ r, RecordOf e r ∧ bs = r ++ rest := by
  by_cases hlen : bs.length < 9
  · rw [readRecord_short hlen] at h
    cases h
  obtain ⟨t, k, v, body, hk, hv, rfl⟩ := exists_header (not_lt.1 hlen)
  rw [readRecord_words hk hv] at h
  split at h
  · cases h
  rename_i hshort
  split at h
  · cases h
  rename_i hkey
  have htake : (body.take k).length = k := by
    rw [List.length_take]
    omega
  split at h
  · rename_i ht
    obtain ⟨rfl, rfl⟩ := Round.entry.inj h
    refine ⟨_, ⟨t, v, rfl, by dsimp only; omega, by omega, by simp [ht], by simp⟩, ?_⟩
    simp [htake]
  · rename_i ht
    split at h
    · cases h
    · rename_i hval
      obtain ⟨rfl, rfl⟩ := Round.entry.inj h
      have htake' : ((body.drop k).take v).length = v := by
        rw [List.length_take]
        omega
      refine ⟨_, ⟨t, v, rfl, by dsimp only; omega, by omega, by simp [ht], by simp [htake']⟩, ?_⟩
      simp [htake]

/-- **A round ends the log** exactly at a record that was cut short. -/
theorem readRecord_eq_tail_iff {bs : Bytes} : readRecord bs = .tail ↔ CutShort bs := by
  refine ⟨fun h => ?_, ?_⟩
  · by_cases hlen : bs.length < 9
    · exact .inl hlen
    obtain ⟨t, k, v, body, hk, hv, rfl⟩ := exists_header (not_lt.1 hlen)
    rw [readRecord_words hk hv] at h
    split at h
    · cases h
    rename_i hshort
    refine .inr ⟨t, k, v, body, rfl, by omega, by omega, ?_⟩
    split at h
    · omega
    · split at h
      · cases h
      · rename_i ht
        rw [if_neg ht]
        split at h
        · rename_i hval
          rw [List.length_drop] at hval
          omega
        · cases h
  · rintro (hlen | ⟨t, k, v, body, rfl, hk, hv, hlt⟩)
    · exact readRecord_short hlen
    · rw [readRecord_header hk hv]
      by_cases hkey : body.length < k
      · rw [if_pos hkey]
      · by_cases ht : t = 1
        · rw [if_pos ht] at hlt
          omega
        · rw [if_neg ht] at hlt
          rw [if_neg hkey, if_neg ht, if_pos (by rw [List.length_drop]; omega)]

/-! ## Logs -/

theorem readRecords_eq_some_iff {log : Bytes} {es : List Entry} :
    readRecords log = some es ↔ ∃ records tail, log = List.flatten records ++ tail ∧
      List.Forall₂ RecordOf es records ∧ CutShort tail := by
  refine ⟨fun h => ?_, ?_⟩
  · fun_induction readRecords log generalizing es with
    | case1 bs hround =>
      cases h
      exact ⟨[], bs, rfl, .nil, readRecord_eq_tail_iff.1 hround⟩
    | case2 bs hround => cases h
    | case3 bs e rest hround ih =>
      obtain ⟨es, hes, rfl⟩ := Option.map_eq_some_iff.1 h
      obtain ⟨records, tail, rfl, hall, htail⟩ := ih hes
      obtain ⟨r, hr, rfl⟩ := recordOf_of_readRecord hround
      exact ⟨r :: records, tail, by simp, .cons hr hall, htail⟩
  · rintro ⟨records, tail, rfl, hall, htail⟩
    induction hall with
    | nil => exact readRecords_tail (readRecord_eq_tail_iff.2 htail)
    | @cons e r es records hr _ ih =>
      rw [List.flatten_cons, List.append_assoc, readRecords_entry (readRecord_recordOf hr _), ih]
      rfl

/-- **The log is read exactly by its grammar.** Whatever its bytes are, `getEntries` gives these
entries iff the log is an encoding of each of them, one after the other, and a record cut short; and
then rewriting the log entry by entry with `append` changes nothing of what is read. -/
theorem getEntries_grammar (fs : FileSystem) (es : List Entry) :
    (getEntries fs = some es ↔ ∃ records tail, fs.wal.getD [] = List.flatten records ++ tail ∧
      List.Forall₂ RecordOf es records ∧ CutShort tail) ∧
    (getEntries fs = some es → getEntries { fs with wal := some (es.flatMap record) } = some es) := by
  rw [getEntries_eq]
  refine ⟨readRecords_eq_some_iff, fun h => ?_⟩
  rw [getEntries_eq, Option.getD_some]
  obtain ⟨records, tail, -, hall, -⟩ := readRecords_eq_some_iff.1 h
  -- an entry that was read is the one that `append` persists
  have hsame : ∀ e ∈ es, e.persisted = e := by
    intro e he
    obtain ⟨i, hi, rfl⟩ := List.getElem_of_mem he
    obtain ⟨t, v, -, -, -, -, hval⟩ := hall.get hi (hall.length_eq ▸ hi)
    rw [List.get_eq_getElem] at hval
    generalize es[i] = e at hval
    obtain ⟨key, val, tombstone⟩ := e
    cases tombstone with
    | true =>
      obtain rfl : val = [] := hval
      rfl
    | false => rfl
  refine readRecords_eq_some_iff.2 ⟨es.map record, [], ?_, ?_, .inl (by decide)⟩
  · rw [List.append_nil, List.flatMap_def]
  · rw [List.forall₂_map_right_iff, List.forall₂_same]
    intro e he
    have hrecord := recordOf_record (loggable_of_readRecords _ h e he)
    rwa [hsame e he] at hrecord

end TinyKv.WAL
