import TinyKv.Lib.Run
import TinyKv.Wal.Proof.Decode

/-!
# A log that is cut off anywhere

A sequence of successful `WAL::append` calls on an empty log leaves the records of its entries
(`appendAll_wal`). Whatever prefix of these bytes is left, `getEntries` returns the entries whose
records are whole (`getEntries_cut`): it neither fails nor makes an entry of a torn record.
-/

namespace TinyKv.WAL

open Bytes

/-- One successful call. -/
def appendOne (w : WAL) (fs : FileSystem) (e : Entry) : Option Error × FileSystem :=
  w.append none e fs

/-- The disk after the entries have been appended to an empty log. -/
def appendAll (w : WAL) (es : List Entry) : FileSystem :=
  (Machine.run w.appendOne .empty es).2

/-- The number of records of `es` that lie wholly inside the first `n` bytes of their log. -/
def recordsInside (es : List Entry) (n : Nat) : Nat :=
  (List.range es.length).countP fun i => decide (((es.take (i + 1)).flatMap record).length ≤ n)

theorem appendAll_wal (w : WAL) (es : List Entry) :
    (w.appendAll es).wal.getD [] = es.flatMap record := by
  refine Machine.run_induction (P := fun es (fs : FileSystem) => fs.wal.getD [] = es.flatMap record) rfl ?_ es
  intro es e ih
  show ((Machine.run w.appendOne .empty es).2.wal.getD [] ++ record e) = (es ++ [e]).flatMap record
  rw [ih, List.flatMap_append, List.flatMap_singleton]

theorem recordsInside_cons (e : Entry) (es : List Entry) (n : Nat) :
    recordsInside (e :: es) n =
      if (record e).length ≤ n then recordsInside es (n - (record e).length) + 1 else 0 := by
  unfold recordsInside
  rw [List.length_cons, List.range_succ_eq_map, List.countP_cons, List.countP_map]
  simp only [Function.comp_def, Nat.succ_eq_add_one, List.take_succ_cons, List.take_zero,
    List.flatMap_cons, List.flatMap_nil, List.append_nil, List.length_append, decide_eq_true_eq]
  split
  · congr 1
    apply List.countP_congr
    intro i _
    simp only [decide_eq_true_eq]
    omega
  · apply List.countP_eq_zero.2
    intro i _
    simp only [decide_eq_true_eq]
    omega

/-- **A prefix of a log**: the entries whose records are whole. -/
theorem readRecords_take {es : List Entry} (h : ∀ e ∈ es, e.Loggable) (n : Nat) :
    readRecords ((es.flatMap record).take n) =
      some ((es.take (recordsInside es n)).map Entry.persisted) := by
  induction es generalizing n with
  | nil =>
    rw [List.flatMap_nil, List.take_nil, List.take_nil]
    exact readRecords_tail rfl
  | cons e es ih =>
    have he := h e List.mem_cons_self
    rw [List.flatMap_cons, recordsInside_cons, List.take_append]
    by_cases hn : (record e).length ≤ n
    · rw [if_pos hn, List.take_of_length_le hn, readRecords_entry (readRecord_record he _),
        ih fun x hx => h x (List.mem_cons_of_mem _ hx)]
      rfl
    · -- the cut is in the first record, so nothing stands behind it
      rw [if_neg hn, show n - (record e).length = 0 by omega, List.take_zero, List.append_nil,
        readRecords_tail (readRecord_torn he (by omega))]
      rfl

/-- **A log that is cut off** at any byte is read as the entries whose records it still has whole,
and the whole log as all of them. -/
theorem getEntries_cut (w : WAL) {es : List Entry} (h : ∀ e ∈ es, e.Loggable) :
    getEntries (w.appendAll es) = some (es.map Entry.persisted) ∧
      ∀ p, p <+: (w.appendAll es).wal.getD [] →
        getEntries { w.appendAll es with wal := some p } =
          some ((es.take (recordsInside es p.length)).map Entry.persisted) := by
  have hlog := appendAll_wal w es
  constructor
  · have hall := readRecords_log h (show readRecord [] = .tail from rfl)
    rw [List.append_nil, ← hlog] at hall
    rw [getEntries_eq, hall]
  · intro p hp
    rw [hlog] at hp
    show readRecords p = _
    have hcut := readRecords_take h p.length
    rwa [← List.prefix_iff_eq_take.1 hp] at hcut

/-- The log of a put and a delete, cut in the second record. -/
theorem getEntries_cut_twelve :
    getEntries { appendAll ⟨"./wal", 0⟩ [⟨"a", "1", false⟩, ⟨"b", "val", true⟩] with
        wal := some (((appendAll ⟨"./wal", 0⟩ [⟨"a", "1", false⟩, ⟨"b", "val", true⟩]).wal.getD
          []).take 12) } = some [⟨"a", "1", false⟩] := by
  have h := (getEntries_cut ⟨"./wal", 0⟩
    (show ∀ e ∈ [(⟨"a", "1", false⟩ : Entry), ⟨"b", "val", true⟩], e.Loggable by decide)).2
    _ (List.take_prefix 12 _)
  rw [h]
  decide +kernel

end TinyKv.WAL
