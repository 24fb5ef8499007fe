import TinyKv.Wal.Wal

/-!
# Reading a log back

What `WAL::getEntries` makes of a log: a whole record is read as its entry (`readRecord_record`, a
tombstone with an empty value), a proper prefix of a record is a torn tail (`readRecord_torn`), so
a log of whole records with at most a torn one at its end is read as its entries
(`readRecords_log`). Strings of at most `2 ^ 30` bytes: the reader takes longer ones for corrupt.
-/

namespace TinyKv

open Bytes

/-- Key and value are short enough for `getEntries`. -/
def Entry.Loggable (e : Entry) : Prop := e.key.length ≤ 2 ^ 30 ∧ e.val.length ≤ 2 ^ 30

instance (e : Entry) : Decidable e.Loggable := inferInstanceAs (Decidable (_ ∧ _))

theorem Entry.Loggable.persisted {e : Entry} (h : e.Loggable) : e.persisted.val.length ≤ 2 ^ 30 :=
  e.length_persisted_val_le.trans h.2

namespace WAL

/-- The type byte of a record. -/
def typeByte (e : Entry) : UInt8 := if e.tombstone then 1 else 0

theorem record_eq {e : Entry} (h : e.Loggable) :
    record e = typeByte e :: (leBytes 4 e.key.length ++ (leBytes 4 e.persisted.val.length ++
      (e.key ++ e.persisted.val))) := by
  have hk : e.key.length % 2 ^ 32 = e.key.length := Nat.mod_eq_of_lt (by have := h.1; omega)
  have hv : e.val.length % 2 ^ 32 = e.val.length := Nat.mod_eq_of_lt (by have := h.2; omega)
  simp only [record, hk, hv]
  cases ht : e.tombstone <;> simp [typeByte, Entry.persisted, ht]

theorem record_length {e : Entry} (h : e.Loggable) :
    (record e).length = 9 + e.key.length + e.persisted.val.length := by
  rw [record_eq h]
  simp only [List.length_cons, List.length_append, length_leBytes]
  omega

/-! ## Headers -/

theorem readRecord_short {bs : Bytes} (h : bs.length < 9) : readRecord bs = .tail := by
  cases bs with
  | nil => rfl
  | cons t bs =>
    rw [List.length_cons] at h
    simp only [readRecord]
    split
    · rfl
    · rw [if_pos (by rw [List.length_drop]; omega)]

theorem exists_word {bs : Bytes} (h : 4 ≤ bs.length) :
    ∃ k rest, k < 2 ^ 32 ∧ bs = leBytes 4 k ++ rest := by
  have hlen : (bs.take 4).length = 4 := by
    rw [List.length_take]
    omega
  have hback := leBytes_leNat (bs.take 4)
  have hlt := leNat_lt (bs.take 4)
  rw [hlen] at hback hlt
  exact ⟨leNat (bs.take 4), bs.drop 4, by omega, by rw [hback, List.take_append_drop]⟩

theorem exists_header {bs : Bytes} (h : 9 ≤ bs.length) :
    ∃ t k v body, k < 2 ^ 32 ∧ v < 2 ^ 32 ∧ bs = t :: (leBytes 4 k ++ (leBytes 4 v ++ body)) := by
  obtain ⟨t, bs, rfl⟩ := List.exists_cons_of_length_pos (show 0 < bs.length by omega)
  rw [List.length_cons] at h
  obtain ⟨k, rest, hk, rfl⟩ := exists_word (show 4 ≤ bs.length by omega)
  rw [List.length_append, length_leBytes] at h
  obtain ⟨v, body, hv, rfl⟩ := exists_word (show 4 ≤ rest.length by omega)
  exact ⟨t, k, v, body, hk, hv, rfl⟩

theorem readRecord_words {k v : Nat} (hk : k < 2 ^ 32) (hv : v < 2 ^ 32) (t : UInt8)
    (body : Bytes) :
    readRecord (t :: (leBytes 4 k ++ (leBytes 4 v ++ body))) =
      if k > 2 ^ 30 ∨ v > 2 ^ 30 then .corrupt
      else if body.length < k then .tail
      else if t = 1 then .entry ⟨body.take k, [], true⟩ (body.drop k)
      else if (body.drop k).length < v then .tail
      else .entry ⟨body.take k, (body.drop k).take v, false⟩ ((body.drop k).drop v) := by
  have e1 : ∀ (n : Nat) (l : Bytes), (leBytes 4 n ++ l).take 4 = leBytes 4 n :=
    fun n l => List.take_left' (length_leBytes 4 n)
  have e2 : ∀ (n : Nat) (l : Bytes), (leBytes 4 n ++ l).drop 4 = l :=
    fun n l => List.drop_left' (length_leBytes 4 n)
  have e3 : ∀ n : Nat, n < 2 ^ 32 → leNat (leBytes 4 n) = n := fun n hn => by
    rw [leNat_leBytes, Nat.mod_eq_of_lt (by omega)]
  have e4 : ∀ (n : Nat) (l : Bytes), ¬ (leBytes 4 n ++ l).length < 4 := fun n l => by
    simp only [List.length_append, length_leBytes]
    omega
  simp only [readRecord, e1, e2, e3 k hk, e3 v hv, e4, ↓reduceIte]

theorem readRecord_header {k v : Nat} (hk : k ≤ 2 ^ 30) (hv : v ≤ 2 ^ 30) (t : UInt8)
    (body : Bytes) :
    readRecord (t :: (leBytes 4 k ++ (leBytes 4 v ++ body))) =
      if body.length < k then .tail
      else if t = 1 then .entry ⟨body.take k, [], true⟩ (body.drop k)
      else if (body.drop k).length < v then .tail
      else .entry ⟨body.take k, (body.drop k).take v, false⟩ ((body.drop k).drop v) := by
  rw [readRecord_words (by omega) (by omega), if_neg (by omega)]

/-! ## Records -/

/-- **A whole record** is read as its entry. -/
theorem readRecord_record {e : Entry} (h : e.Loggable) (rest : Bytes) :
    readRecord (record e ++ rest) = .entry e.persisted rest := by
  rw [record_eq h]
  simp only [List.cons_append, List.append_assoc]
  rw [readRecord_header h.1 h.persisted]
  simp only [List.length_append, List.take_left, List.drop_left]
  rw [if_neg (by omega)]
  cases ht : e.tombstone with
  | true => simp [typeByte, Entry.persisted, ht]
  | false =>
    have hp := Entry.persisted_of_live ht
    rw [if_neg (by simp [typeByte, ht]), if_neg (by omega), hp, ← ht]

/-- **A proper prefix of a record** ends the log. -/
theorem readRecord_torn {e : Entry} (h : e.Loggable) {n : Nat} (hn : n < (record e).length) :
    readRecord ((record e).take n) = .tail := by
  rw [record_length h] at hn
  rw [record_eq h]
  -- the cut is in the type byte, in one of the lengths, or behind the header
  rcases n with _ | n
  · rfl
  rw [List.take_succ_cons]
  by_cases h4 : n < 4
  · simp only [readRecord]
    rw [if_pos (by simp only [List.length_take]; omega)]
  by_cases h8 : n < 8
  · rw [List.take_append, List.take_of_length_le (by simp; omega)]
    simp only [readRecord, length_leBytes, List.length_append]
    rw [if_neg (by omega), List.drop_left' (length_leBytes _ _),
      if_pos (by simp only [List.length_take]; omega)]
  rw [List.take_append, List.take_of_length_le (by simp; omega), length_leBytes, List.take_append,
    List.take_of_length_le (by simp; omega), length_leBytes, readRecord_header h.1 h.persisted]
  have hl : ((e.key ++ e.persisted.val).take (n - 4 - 4)).length = n - 8 := by
    simp only [List.length_take, List.length_append]
    omega
  by_cases hk : n - 8 < e.key.length
  · rw [if_pos (by omega)]
  · -- the key is whole, so the value is cut: the record is no tombstone's
    have ht : e.tombstone = false := by
      cases ht : e.tombstone
      · rfl
      · have : e.persisted.val.length = 0 := by simp [Entry.persisted, ht]
        omega
    rw [if_neg (by omega), if_neg (by simp [typeByte, ht]),
      if_pos (by rw [List.length_drop]; omega)]

/-! ## Logs -/

theorem readRecords_tail {bs : Bytes} (h : readRecord bs = .tail) : readRecords bs = some [] := by
  rw [readRecords]
  split <;> simp_all

theorem readRecords_entry {bs rest : Bytes} {e : Entry} (h : readRecord bs = .entry e rest) :
    readRecords bs = (readRecords rest).map (e :: ·) := by
  rw [readRecords]
  split
  · simp_all
  · simp_all
  · rename_i e' rest' he
    rw [h] at he
    obtain ⟨rfl, rfl⟩ := Round.entry.inj he
    rfl

/-- **A log of whole records**, perhaps with a torn one behind them, is read as their entries. -/
theorem readRecords_log {es : List Entry} (h : ∀ e ∈ es, e.Loggable) {torn : Bytes}
    (ht : readRecord torn = .tail) :
    readRecords (es.flatMap record ++ torn) = some (es.map Entry.persisted) := by
  induction es with
  | nil => simpa using readRecords_tail ht
  | cons e es ih =>
    rw [List.flatMap_cons, List.append_assoc,
      readRecords_entry (readRecord_record (h e List.mem_cons_self) _),
      ih fun x hx => h x (List.mem_cons_of_mem _ hx)]
    rfl

/-- A missing log file is an empty log. -/
theorem getEntries_eq (fs : FileSystem) : getEntries fs = readRecords (fs.wal.getD []) := by
  unfold getEntries
  cases fs.wal with
  | none => exact (readRecords_tail rfl).symm
  | some bs => rfl

end WAL

end TinyKv
