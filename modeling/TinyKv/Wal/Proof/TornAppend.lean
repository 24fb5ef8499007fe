import TinyKv.Lib.Run
import TinyKv.Wal.Proof.Decode

/-!
# Failed appends and the records behind them

A sequence of `WAL::append` calls on one log, each of which may fail after the first bytes of its
record have reached the file (`Attempt`). `append` neither truncates the file nor marks where a
record starts, so bytes left by a failed append stand in front of every later record: one byte is
enough to make an acknowledged record unreadable (`torn_byte_hides_acked`).

As long as nothing is written behind such bytes the log is read as exactly the acknowledged
entries (`append_keeps_acked`): the invariant `LogShape` is that the file is the acknowledged
records and at most one torn one.
-/

namespace TinyKv.WAL

/-- A call of `append` and how it fares. -/
structure Attempt where
  entry : Entry
  fault : Option AppendFault := none
  deriving DecidableEq

/-- The bytes of its record that a call leaves in the file. -/
def Attempt.leaves (a : Attempt) : Bytes :=
  match a.fault with
  | none => record a.entry
  | some .openFailed => []
  | some (.headerFailed n) => (record a.entry).take n
  | some (.payloadFailed n) => (record a.entry).take n
  | some (.flushFailed n) => (record a.entry).take n

/-- A failed call has not written its whole record. -/
def Attempt.Proper (a : Attempt) : Prop :=
  a.fault ≠ none → a.leaves.length < (record a.entry).length

/-- A failed call that left some bytes. -/
def Attempt.Torn (a : Attempt) : Prop := a.fault ≠ none ∧ a.leaves ≠ []

instance (a : Attempt) : Decidable a.Proper := inferInstanceAs (Decidable (_ → _))

instance (a : Attempt) : Decidable a.Torn := inferInstanceAs (Decidable (_ ∧ _))

/-- One call on the log. -/
def attempt (w : WAL) (fs : FileSystem) (a : Attempt) : Option Error × FileSystem :=
  w.append a.fault a.entry fs

/-- The entries whose `append` returned success. -/
def acked (w : WAL) (fs : FileSystem) (as : List Attempt) : List Entry :=
  (as.zip (Machine.run w.attempt fs as).1).filterMap fun p =>
    if p.2 = none then some p.1.entry else none

/-- `getEntries` returns a list that has every acknowledged entry, in order, and no entry that was
never passed to `append` (a tombstone comes back with an empty value). -/
def KeepsAcked (w : WAL) (as : List Attempt) : Prop :=
  ∃ l, getEntries (Machine.run w.attempt .empty as).2 = some l ∧
    ((acked w .empty as).map Entry.persisted).Sublist l ∧
    ∀ e ∈ l, ∃ a ∈ as, e = a.entry.persisted

/-! ## One call -/

theorem attempt_ok_iff {w : WAL} {fs : FileSystem} {a : Attempt} :
    (w.attempt fs a).1 = none ↔ a.fault = none := by
  unfold attempt append
  split <;> simp_all

theorem attempt_wal (w : WAL) (fs : FileSystem) (a : Attempt) :
    (w.attempt fs a).2.wal.getD [] = fs.wal.getD [] ++ a.leaves := by
  unfold attempt append
  split <;> rename_i hf <;> simp [appendBytes, Attempt.leaves, hf]

theorem readRecord_leaves {a : Attempt} (hl : a.entry.Loggable) (hp : a.Proper)
    (hf : a.fault ≠ none) : readRecord a.leaves = .tail := by
  have key : ∀ n, a.leaves = (record a.entry).take n → readRecord a.leaves = .tail := by
    intro n hn
    have hlt := hp hf
    rw [hn, List.length_take] at hlt
    rw [hn]
    exact readRecord_torn hl (by omega)
  cases hfa : a.fault with
  | none => exact absurd hfa hf
  | some f =>
    cases f with
    | openFailed => simp [Attempt.leaves, hfa, readRecord]
    | headerFailed n => exact key n (by simp [Attempt.leaves, hfa])
    | payloadFailed n => exact key n (by simp [Attempt.leaves, hfa])
    | flushFailed n => exact key n (by simp [Attempt.leaves, hfa])

/-! ## A run of calls -/

theorem acked_snoc (w : WAL) (fs : FileSystem) (as : List Attempt) (a : Attempt) :
    acked w fs (as ++ [a]) = acked w fs as ++ if a.fault = none then [a.entry] else [] := by
  unfold acked
  rw [Machine.run_snoc, List.zip_append (by rw [Machine.length_run]), List.filterMap_append]
  congr 1
  by_cases hf : a.fault = none
  · simp [attempt_ok_iff.2 hf, hf]
  · have : (w.attempt (Machine.run w.attempt fs as).2 a).1 ≠ none := fun h => hf (attempt_ok_iff.1 h)
    simp [this, hf]

theorem mem_acked {w : WAL} {fs : FileSystem} {as : List Attempt} {e : Entry}
    (h : e ∈ acked w fs as) : ∃ a ∈ as, a.entry = e := by
  simp only [acked, List.mem_filterMap] at h
  obtain ⟨p, hp, he⟩ := h
  split at he
  · exact ⟨p.1, (List.of_mem_zip hp).1, by simpa using he⟩
  · cases he

/-- The file is the acknowledged records, and at most a torn one that some call left. -/
def LogShape (w : WAL) (as : List Attempt) (fs : FileSystem) : Prop :=
  ∃ torn, fs.wal.getD [] = (acked w .empty as).flatMap record ++ torn ∧
    readRecord torn = .tail ∧ (torn ≠ [] → ∃ a ∈ as, a.Torn)

theorem logShape_run (w : WAL) (as : List Attempt) (hl : ∀ a ∈ as, a.entry.Loggable)
    (hp : ∀ a ∈ as, a.Proper)
    (hc : as.Pairwise fun a b => a.Torn → b.leaves = []) :
    LogShape w as (Machine.run w.attempt .empty as).2 := by
  refine Machine.run_induction (P := fun as fs => (∀ a ∈ as, a.entry.Loggable) →
    (∀ a ∈ as, a.Proper) → as.Pairwise (fun a b => a.Torn → b.leaves = []) → LogShape w as fs)
    ?_ ?_ as hl hp hc
  · exact fun _ _ _ => ⟨[], by simp [FileSystem.empty, acked], rfl, fun h => absurd rfl h⟩
  · intro as a ih hl hp hc
    obtain ⟨torn, hw, ht, hsome⟩ := ih (fun b hb => hl b (List.mem_append_left _ hb))
      (fun b hb => hp b (List.mem_append_left _ hb)) (List.pairwise_append.1 hc).1
    have ha : a ∈ as ++ [a] := by simp
    have hwal := attempt_wal w (Machine.run w.attempt .empty as).2 a
    rw [hw] at hwal
    by_cases htorn : torn = []
    · subst htorn
      rw [List.append_nil] at hwal
      by_cases hf : a.fault = none
      · refine ⟨[], ?_, rfl, fun h => absurd rfl h⟩
        rw [hwal, acked_snoc, if_pos hf]
        simp [Attempt.leaves, hf]
      · refine ⟨a.leaves, ?_, readRecord_leaves (hl a ha) (hp a ha) hf, fun h => ⟨a, ha, hf, h⟩⟩
        rw [hwal, acked_snoc, if_neg hf, List.append_nil]
    · -- something torn is in the file already: this call leaves nothing, so it failed
      obtain ⟨b, hb, hbt⟩ := hsome htorn
      have hnil : a.leaves = [] := (List.pairwise_append.1 hc).2.2 b hb a (by simp) hbt
      have hf : a.fault ≠ none := by
        intro hf
        simp only [Attempt.leaves, hf] at hnil
        have := record_length (hl a ha)
        rw [hnil] at this
        simp only [List.length_nil] at this
        omega
      refine ⟨torn, ?_, ht, fun _ => ⟨b, List.mem_append_left _ hb, hbt⟩⟩
      rw [hwal, hnil, acked_snoc, if_neg hf]
      simp

/-- **Acknowledged appends are kept** in every state of a run in which nothing is written behind
the bytes of a failed append. -/
theorem append_keeps_acked (w : WAL) (as : List Attempt) (hl : ∀ a ∈ as, a.entry.Loggable)
    (hp : ∀ a ∈ as, a.Proper) (hc : as.Pairwise fun a b => a.Torn → b.leaves = []) (n : Nat) :
    KeepsAcked w (as.take n) := by
  obtain ⟨torn, hw, ht, -⟩ := logShape_run w (as.take n)
    (fun a ha => hl a (List.mem_of_mem_take ha)) (fun a ha => hp a (List.mem_of_mem_take ha))
    (hc.sublist (List.take_sublist n as))
  have hack : ∀ e ∈ acked w .empty (as.take n), e.Loggable := fun e he => by
    obtain ⟨a, ha, rfl⟩ := mem_acked he
    exact hl a (List.mem_of_mem_take ha)
  refine ⟨(acked w .empty (as.take n)).map Entry.persisted, ?_, List.Sublist.refl _, fun e he => ?_⟩
  · have hread := readRecords_log hack ht
    rw [getEntries_eq, hw, hread]
  · obtain ⟨e', he', rfl⟩ := List.mem_map.1 he
    obtain ⟨a, ha, rfl⟩ := mem_acked he'
    exact ⟨a, ha, rfl⟩

/-- A put that failed in its header after one byte, behind an acknowledged one. -/
def tornLast : List Attempt :=
  [⟨⟨"a", "1", false⟩, none⟩, ⟨⟨"b", "2", false⟩, some (.headerFailed 1)⟩]

theorem append_keeps_acked_tornLast :
    (∀ a ∈ tornLast, a.entry.Loggable) ∧ (∀ a ∈ tornLast, a.Proper) ∧
      tornLast.Pairwise (fun a b => a.Torn → b.leaves = []) ∧
      KeepsAcked ⟨"./wal", 0⟩ (tornLast.take 2) := by
  have hl : ∀ a ∈ tornLast, a.entry.Loggable := by decide +kernel
  have hp : ∀ a ∈ tornLast, a.Proper := by decide +kernel
  have hc : tornLast.Pairwise fun a b => a.Torn → b.leaves = [] := by decide +kernel
  exact ⟨hl, hp, hc, append_keeps_acked _ _ hl hp hc 2⟩

/-- The same failed put, now in front of an acknowledged one. -/
def tornFirst : List Attempt :=
  [⟨⟨"a", "1", false⟩, some (.headerFailed 1)⟩, ⟨⟨"b", "2", false⟩, none⟩]

/-- **One torn byte hides an acknowledged record**: it shifts the length fields, so `getEntries`
takes what follows for a torn tail and returns no entry. -/
theorem torn_byte_hides_acked :
    (∀ a ∈ tornFirst, a.entry.Loggable ∧ a.Proper) ∧
      acked ⟨"./wal", 0⟩ .empty tornFirst = [⟨"b", "2", false⟩] ∧
      ¬ KeepsAcked ⟨"./wal", 0⟩ tornFirst := by
  have hread : getEntries (Machine.run (attempt ⟨"./wal", 0⟩) .empty tornFirst).2 = some [] := by
    decide +kernel
  have hack : acked ⟨"./wal", 0⟩ .empty tornFirst = [⟨"b", "2", false⟩] := by decide +kernel
  refine ⟨by decide +kernel, hack, ?_⟩
  rintro ⟨l, hl, hsub, -⟩
  rw [hread] at hl
  obtain rfl := Option.some.inj hl
  rw [hack] at hsub
  simp at hsub

end TinyKv.WAL
