import TinyKv.Core.DbImpl

/-!
# The store without its disk

What the database is behind its files: a map of the latest writes over a list of frozen tables,
newest first. `find` reads the first layer that has the key; `flush` freezes the map, or fails and
leaves the store read-only. The answers are those of the code, `none` for an exception.

* `Lsm.find_flush`: a flush changes no read, whether it fails or not.
* `Lsm.read_run`: in every run the reads follow the acknowledged writes.
* `Lsm.size_write_le`: the map stays within the capacity.
-/

namespace TinyKv

open Bytes

/-- What a call and its answer (`none` for an exception) acknowledge about `k`: `some (some v)` for
a put of `v`, `some none` for a delete. -/
def acked (k : Bytes) : Call × Option Response → Option (Option Bytes)
  | (.put key val, some r) => if key = k ∧ r.ok = true then some (some val) else none
  | (.del key, some r) => if key = k ∧ r.ok = true then some none else none
  | _ => none

/-- The last put or delete of `k` that a history acknowledges. -/
def lastAcked (history : List (Call × Option Response)) (k : Bytes) : Option (Option Bytes) :=
  history.reverse.findSome? (acked k)

theorem lastAcked_snoc (history : List (Call × Option Response)) (x : Call × Option Response)
    (k : Bytes) : lastAcked (history ++ [x]) k = (acked k x).or (lastAcked history k) := by
  simp only [lastAcked, List.reverse_append, List.reverse_singleton, List.singleton_append,
    List.findSome?_cons]
  cases acked k x <;> rfl

/-- The answer to a read of a key with this value. -/
def readResponse : Option Bytes → Response
  | some v => ⟨true, "OK", some v⟩
  | none => ⟨false, "Key does not exist", none⟩

/-- The entry that a call writes, if it writes one. -/
def Call.entry? : Call → Option Entry
  | .put key val => some ⟨key, val, false⟩
  | .del key => some ⟨key, "val", true⟩
  | _ => none

theorem acked_some (c : Call) (r : Response) (k : Bytes) :
    acked k (c, some r) = c.entry?.bind fun e =>
      if e.key = k ∧ r.ok = true then some ((live (some e)).map Entry.val) else none := by
  cases c with
  | put key val => simp [acked, Call.entry?, live_some]
  | del key => simp [acked, Call.entry?, live_some]
  | get key | forceFlushForTests | forceCompactForTests => rfl

structure Lsm where
  readOnly : Bool := false
  mem : SortedMap Entry.key := SortedMap.empty
  tables : List (List Entry) := []

namespace Lsm

/-- The entry for `k` in the first layer that has one. -/
def find (s : Lsm) (k : Bytes) : Option Entry :=
  (s.mem.find? k).or (firstEntry s.tables k)

/-- The value of `k`. -/
def read (s : Lsm) (k : Bytes) : Option Bytes := (live (s.find k)).map Entry.val

section Machine

variable (capacity : Nat) (writable : List Entry → Bool)

/-- Freeze the map, or fail. -/
def flush (s : Lsm) : Bool × Lsm :=
  if writable s.mem.toList then
    (true, { readOnly := false, mem := SortedMap.empty, tables := s.mem.toList :: s.tables })
  else (false, { s with readOnly := true })

/-- A write of `e`, behind a flush when the map is full. -/
def write (s : Lsm) (e : Entry) : Option Response × Lsm :=
  if s.mem.size = capacity then
    match s.flush writable with
    | (false, s) => (none, s)
    | (true, s) => (some ⟨true, "OK", none⟩, { s with mem := s.mem.insert e })
  else (some ⟨true, "OK", none⟩, { s with mem := s.mem.insert e })

/-- `del` takes a deleted key that is still in the map for an existing one. -/
def present (s : Lsm) (k : Bytes) : Bool :=
  (s.mem.find? k).isSome || (live (firstEntry s.tables k)).isSome

def step (s : Lsm) : Call → Option Response × Lsm
  | .put key val =>
    if s.readOnly then
      (some ⟨false, "[MemTableImpl.put()] Cannot PUT: memtable in read-only mode", none⟩, s)
    else s.write capacity writable ⟨key, val, false⟩
  | .get key => (some (readResponse (s.read key)), s)
  | .del key =>
    if !s.present key then
      (some ⟨false, ("Failed to DELETE key: " : Bytes) ++ ("Cannot DELETE: key does not exist" : Bytes),
        none⟩, s)
    else if s.readOnly then
      (some ⟨false, ("Failed to DELETE key: " : Bytes) ++
        ("Cannot DELETE: memtable in read-only mode" : Bytes), none⟩, s)
    else s.write capacity writable ⟨key, "val", true⟩
  | .forceFlushForTests =>
    let (flushed, s) := s.flush writable
    (if flushed then some ⟨true, "OK", none⟩ else none, s)
  | .forceCompactForTests => (some ⟨true, "OK", none⟩, s)

/-! ## One step -/

theorem find_flush (s : Lsm) (k : Bytes) : (s.flush writable).2.find k = s.find k := by
  unfold flush
  split
  · simp only [find, SortedMap.find?_empty, Option.none_or, firstEntry_cons]
    rfl
  · rfl

theorem find_insert (s : Lsm) (e : Entry) (k : Bytes) :
    { s with mem := s.mem.insert e }.find k = if e.key = k then some e else s.find k := by
  simp only [find, SortedMap.find?_insert]
  split <;> rfl

/-- A write is acknowledged and read from then on, or the flush before it failed and no read
changes. -/
theorem write_cases (s : Lsm) (e : Entry) :
    ((s.write capacity writable e).1 = some ⟨true, "OK", none⟩ ∧
      ∀ k, (s.write capacity writable e).2.find k = if e.key = k then some e else s.find k) ∨
    ((s.write capacity writable e).1 = none ∧ ∀ k, (s.write capacity writable e).2.find k = s.find k) := by
  unfold write
  split
  · split
    · rename_i s' h
      refine .inr ⟨rfl, fun k => ?_⟩
      rw [← find_flush writable s k, h]
    · rename_i s' h
      refine .inl ⟨rfl, fun k => ?_⟩
      rw [find_insert, ← find_flush writable s k, h]
  · exact .inl ⟨rfl, fun k => find_insert s e k⟩

/-- One call moves the reads exactly as its answer acknowledges. -/
theorem read_step (s : Lsm) (c : Call) (k : Bytes) :
    (s.step capacity writable c).2.read k =
      (acked k (c, (s.step capacity writable c).1)).getD (s.read k) := by
  have hwrite : ∀ e : Entry, (s.write capacity writable e).2.read k =
      if (s.write capacity writable e).1.isSome ∧ e.key = k then (live (some e)).map Entry.val
      else s.read k := by
    intro e
    rcases write_cases capacity writable s e with ⟨h1, h2⟩ | ⟨h1, h2⟩
    · rw [read, h2, h1]
      by_cases hk : e.key = k <;> simp [hk, read]
    · rw [read, h2, h1]
      simp [read]
  have hresp : ∀ e : Entry, (s.write capacity writable e).1 = none ∨
      (s.write capacity writable e).1 = some ⟨true, "OK", none⟩ := fun e =>
    (write_cases capacity writable s e).symm.imp And.left And.left
  cases c with
  | put key val =>
    simp only [step]
    split
    · rw [acked, if_neg (by simp)]
      rfl
    · rw [hwrite]
      rcases hresp ⟨key, val, false⟩ with h | h
      · simp [h, acked]
      · simp only [h, acked]
        by_cases hk : key = k <;> simp [hk, live_some]
  | get key => rfl
  | del key =>
    simp only [step]
    split
    · rw [acked, if_neg (by simp)]
      rfl
    · split
      · rw [acked, if_neg (by simp)]
        rfl
      · rw [hwrite]
        rcases hresp ⟨key, "val", true⟩ with h | h
        · simp [h, acked]
        · simp only [h, acked]
          by_cases hk : key = k <;> simp [hk, live_some]
  | forceFlushForTests =>
    show (s.flush writable).2.read k = _
    rw [read, find_flush]
    rfl
  | forceCompactForTests => rfl

/-- **Reads follow the acknowledged writes** in every run. -/
theorem read_run (s : Lsm) (cs : List Call) (k : Bytes) :
    (Machine.run (step capacity writable) s cs).2.read k =
      (lastAcked (cs.zip (Machine.run (step capacity writable) s cs).1) k).getD (s.read k) := by
  induction cs using List.reverseRecOn with
  | nil => rfl
  | append_singleton cs c ih =>
    rw [Machine.run_snoc, read_step, ih]
    dsimp only
    rw [List.zip_append (Machine.length_run _ _ _).symm, List.zip_cons_cons, List.zip_nil_right,
      lastAcked_snoc]
    cases acked k (c, _) <;> rfl

/-! ## The capacity -/

variable {capacity writable}

theorem size_write_le {s : Lsm} (hne : writable s.mem.toList = true → s.mem.toList ≠ [])
    (h : s.mem.size ≤ capacity) (e : Entry) :
    (s.write capacity writable e).2.mem.size ≤ capacity := by
  have hinsert := SortedMap.size_insert_le s.mem e
  unfold write flush
  split
  · rename_i hfull
    by_cases hw : writable s.mem.toList = true
    · -- what was frozen was not empty, so the capacity is positive
      have hpos : 0 < s.mem.size := List.length_pos_iff.2 (hne hw)
      rw [if_pos hw]
      have := SortedMap.size_insert_le (SortedMap.empty : SortedMap Entry.key) e
      simp only [SortedMap.size_empty] at this
      dsimp only
      omega
    · rw [if_neg hw]
      exact h
  · dsimp only
    omega

/-! ## Exceptions -/

/-- The call starts a flush: the explicit one, or a write that finds the map full. -/
def StartsFlush (capacity : Nat) (s : Lsm) : Call → Prop
  | .put _ _ => s.readOnly = false ∧ s.mem.size = capacity
  | .del key => s.present key = true ∧ s.readOnly = false ∧ s.mem.size = capacity
  | .forceFlushForTests => True
  | .get _ | .forceCompactForTests => False

theorem write_eq_none_iff {s : Lsm} {e : Entry} : (s.write capacity writable e).1 = none ↔
    s.mem.size = capacity ∧ writable s.mem.toList = false := by
  unfold write flush
  by_cases hfull : s.mem.size = capacity
  · by_cases hw : writable s.mem.toList = true <;> simp [hfull, hw]
  · simp [hfull]

/-- **A call throws exactly when it starts a flush of a map that cannot be written.** -/
theorem step_eq_none_iff {s : Lsm} {c : Call} : (s.step capacity writable c).1 = none ↔
    s.StartsFlush capacity c ∧ writable s.mem.toList = false := by
  cases c with
  | put key val =>
    simp only [step, StartsFlush]
    cases hro : s.readOnly with
    | true => simp
    | false =>
      simp only [Bool.false_eq_true, ↓reduceIte, true_and]
      exact write_eq_none_iff
  | get key => simp [step, StartsFlush]
  | del key =>
    simp only [step, StartsFlush]
    cases hp : s.present key with
    | false => simp
    | true =>
      cases hro : s.readOnly with
      | true => simp
      | false =>
        simp only [Bool.not_true, Bool.false_eq_true, ↓reduceIte, true_and]
        exact write_eq_none_iff
  | forceFlushForTests =>
    simp only [step, StartsFlush, flush, true_and]
    by_cases hw : writable s.mem.toList = true <;> simp [hw]
  | forceCompactForTests => simp [step, StartsFlush]

/-! ## What is in the map -/

theorem mem_write {s : Lsm} {e x : Entry} (h : x ∈ (s.write capacity writable e).2.mem.toList) :
    x = e ∨ x ∈ s.mem.toList := by
  unfold write flush at h
  split at h
  · by_cases hw : writable s.mem.toList = true
    · rw [if_pos hw] at h
      rcases SortedMap.mem_insert h with h | h
      · exact .inl h
      · cases h
    · rw [if_neg hw] at h
      exact .inr h
  · exact SortedMap.mem_insert h

theorem mem_step {s : Lsm} {c : Call} {x : Entry}
    (h : x ∈ (s.step capacity writable c).2.mem.toList) : c.entry? = some x ∨ x ∈ s.mem.toList := by
  cases c with
  | put key val =>
    simp only [step] at h
    split at h
    · exact .inr h
    · exact (mem_write h).imp (fun h => by rw [h]; rfl) id
  | get key => exact .inr h
  | del key =>
    simp only [step] at h
    split at h
    · exact .inr h
    · split at h
      · exact .inr h
      · exact (mem_write h).imp (fun h => by rw [h]; rfl) id
  | forceFlushForTests =>
    simp only [step, flush] at h
    split at h
    · cases h
    · exact .inr h
  | forceCompactForTests => exact .inr h

/-- What can be written matters only for the map, and only when it is flushed. -/
theorem step_congr {writable' : List Entry → Bool} {s : Lsm} {c : Call}
    (h : s.StartsFlush capacity c → writable s.mem.toList = writable' s.mem.toList) :
    s.step capacity writable c = s.step capacity writable' c := by
  have hwrite : ∀ e, (s.mem.size = capacity → writable s.mem.toList = writable' s.mem.toList) →
      s.write capacity writable e = s.write capacity writable' e := by
    intro e h
    unfold write flush
    split
    · rename_i hfull
      rw [h hfull]
    · rfl
  cases c with
  | put key val =>
    simp only [step]
    split
    · rfl
    · rename_i hro
      exact hwrite _ fun hfull => h ⟨by simpa using hro, hfull⟩
  | get key => rfl
  | del key =>
    simp only [step]
    split
    · rfl
    · rename_i hp
      split
      · rfl
      · rename_i hro
        exact hwrite _ fun hfull => h ⟨by simpa using hp, by simpa using hro, hfull⟩
  | forceFlushForTests =>
    have hflush : s.flush writable = s.flush writable' := by rw [flush, flush, h trivial]
    simp only [step, hflush]
  | forceCompactForTests => rfl

/-- Two machines that can write the same of the tables they come to write answer alike. -/
theorem run_congr {writable' : List Entry → Bool} {P : Entry → Prop}
    (hw : ∀ es, (∀ e ∈ es, P e) → writable es = writable' es) {s : Lsm}
    (hmem : ∀ e ∈ s.mem.toList, P e) {cs : List Call} (hcs : ∀ c ∈ cs, ∀ e, c.entry? = some e → P e) :
    Machine.run (step capacity writable) s cs = Machine.run (step capacity writable') s cs := by
  induction cs generalizing s with
  | nil => rfl
  | cons c cs ih =>
    have hstep : s.step capacity writable c = s.step capacity writable' c :=
      step_congr fun _ => hw _ hmem
    have hmem' : ∀ e ∈ (s.step capacity writable c).2.mem.toList, P e := fun e he =>
      (mem_step he).elim (hcs c List.mem_cons_self e) (hmem e)
    rw [Machine.run_cons, Machine.run_cons, ← hstep,
      ih hmem' fun x hx => hcs x (List.mem_cons_of_mem _ hx)]

end Machine

end Lsm

end TinyKv
