import TinyKv.Core.Proof.Levels

/-!
# Tombstones and the levels behind them

`getKey` answers `nullopt` for a tombstone as for a key it does not have, so `get` never sees one
and goes on to the next level: the test for a tombstone in its loop is never met (`getFrom_eq`).
What a key reads as is therefore not decided by its first entry when that is a tombstone and a
deeper level has the key live (`get_first_iff`).
-/

namespace TinyKv

open Bytes

/-- The tables of the levels, level by level and newest first. -/
abbrev ServesLevels (fs : FileSystem) (lms : List LevelManagerImpl)
    (levels : List (List (List Entry))) : Prop :=
  List.Forall₂ (fun lm tables => ServesAll fs lm.m_tableReaders tables) lms levels

theorem firstEntry_append (tables tables' : List (List Entry)) (k : Bytes) :
    firstEntry (tables ++ tables') k = (firstEntry tables k).or (firstEntry tables' k) := by
  simp only [firstEntry, List.findSome?_append]

/-- No level has `k` live behind the first one that has an entry for it, if that is a tombstone. -/
def NoLiveBehindTombstone (levels : List (List (List Entry))) (k : Bytes) : Prop :=
  ∀ above tables below, levels = above ++ tables :: below →
    (∀ tables' ∈ above, firstEntry tables' k = none) →
    (∃ e, firstEntry tables k = some e ∧ e.tombstone = true) →
    ∀ tables' ∈ below, live (firstEntry tables' k) = none

section

variable {tables : List (List Entry)} {levels : List (List (List Entry))} {k : Bytes}

theorem noLiveBehindTombstone_cons_none (hf : firstEntry tables k = none) :
    NoLiveBehindTombstone (tables :: levels) k ↔ NoLiveBehindTombstone levels k := by
  refine ⟨fun h above tables' below hsplit habove => ?_, fun h above tables' below hsplit habove => ?_⟩
  · refine h (tables :: above) tables' below (by rw [hsplit]; rfl) fun t ht => ?_
    rcases List.mem_cons.1 ht with rfl | ht
    · exact hf
    · exact habove t ht
  · cases above with
    | nil =>
      obtain ⟨rfl, rfl⟩ := List.cons.inj hsplit
      rintro ⟨e, he, -⟩
      rw [hf] at he
      cases he
    | cons a above =>
      obtain ⟨-, hsplit⟩ := List.cons.inj hsplit
      exact h above tables' below hsplit fun t ht => habove t (List.mem_cons_of_mem _ ht)

theorem noLiveBehindTombstone_cons_some {e : Entry} (hf : firstEntry tables k = some e) :
    NoLiveBehindTombstone (tables :: levels) k ↔
      (e.tombstone = true → ∀ tables' ∈ levels, live (firstEntry tables' k) = none) := by
  refine ⟨fun h ht => ?_, fun h above tables' below hsplit habove => ?_⟩
  · exact h [] tables levels rfl nofun ⟨e, hf, ht⟩
  · cases above with
    | nil =>
      obtain ⟨rfl, rfl⟩ := List.cons.inj hsplit
      rintro ⟨e', he', ht⟩
      rw [hf, Option.some_inj] at he'
      subst he'
      exact h ht
    | cons a above =>
      obtain ⟨rfl, -⟩ := List.cons.inj hsplit
      have := habove tables List.mem_cons_self
      rw [hf] at this
      cases this

end

namespace StorageManagerImpl

/-- **The loop of `get`**: the first level in which the key is live. -/
theorem getFrom_eq {fs : FileSystem} {lms : List LevelManagerImpl}
    {levels : List (List (List Entry))} (h : ServesLevels fs lms levels) (k : Bytes) :
    getFrom fs k lms = .ok (levels.findSome? fun tables => live (firstEntry tables k)) := by
  induction h with
  | nil => rfl
  | @cons lm tables lms levels hlm _ ih =>
    have hkey : lm.getKey fs k = .ok (live (firstEntry tables k)) :=
      LevelManagerImpl.getKeyFrom_eq hlm k
    rw [getFrom, hkey, List.findSome?_cons]
    cases he : live (firstEntry tables k) with
    | none => exact ih
    | some e =>
      have ht : e.tombstone = false := by
        simpa using (Option.filter_eq_some_iff.1 he).2
      simp [ht]

theorem findSome?_live_iff (levels : List (List (List Entry))) (k : Bytes) :
    (levels.findSome? fun tables => live (firstEntry tables k)) =
        live (firstEntry levels.flatten k) ↔ NoLiveBehindTombstone levels k := by
  induction levels with
  | nil =>
    refine iff_of_true rfl fun above tables below h => ?_
    cases above <;> cases h
  | cons tables levels ih =>
    rw [List.findSome?_cons, List.flatten_cons, firstEntry_append]
    cases hf : firstEntry tables k with
    | none =>
      rw [live_none, Option.none_or, noLiveBehindTombstone_cons_none hf]
      exact ih
    | some e =>
      rw [Option.some_or, live_some, noLiveBehindTombstone_cons_some hf]
      cases e.tombstone with
      | false => exact iff_of_true rfl nofun
      | true => simp only [↓reduceIte, List.findSome?_eq_none_iff, forall_const]

/-- **The first entry decides** exactly when no level behind a tombstone has the key live. -/
theorem get_first_iff {sm : StorageManagerImpl} {fs : FileSystem}
    {levels : List (List (List Entry))} (h : ServesLevels fs sm.m_levelManagers levels) (k : Bytes) :
    sm.get fs k = .ok (live (firstEntry levels.flatten k)) ↔ NoLiveBehindTombstone levels k := by
  rw [get, getFrom_eq h, Except.ok.injEq]
  exact findSome?_live_iff levels k

/-- A level directory with one table. -/
def oneTable (es : List Entry) : Dir :=
  SortedMap.empty.insert ("table-0", .regular (SSTableWriter.encode es 0 0))

/-- A disk with these tables in levels 0 and 1. -/
def twoLevels (es es' : List Entry) : FileSystem :=
  (FileSystem.empty.setDir (levelName 0) (oneTable es)).setDir (levelName 1) (oneTable es')

/-- The storage manager that such a disk is loaded into. -/
def loadTwoLevels (es es' : List Entry) : StorageManagerImpl :=
  (initLevels { m_maxLevel := 1, m_basePath := "", m_tableFormat := .InMemory } {}
    (twoLevels es es')).2.1

/-- A deleted key stays deleted when the level below does not have it. -/
theorem get_first_iff_deleted :
    (loadTwoLevels [⟨"a", "val", true⟩] [⟨"b", "1", false⟩]).get
      (twoLevels [⟨"a", "val", true⟩] [⟨"b", "1", false⟩]) "a" = .ok none := by
  have hload : (loadTwoLevels [⟨"a", "val", true⟩] [⟨"b", "1", false⟩]).m_levelManagers =
      [⟨0, "", [.inMemory ⟨⟨0, 0, "a", "a"⟩, [⟨"a", "val", true⟩]⟩]⟩,
        ⟨1, "", [.inMemory ⟨⟨0, 0, "b", "b"⟩, [⟨"b", "1", false⟩]⟩]⟩] := by decide +kernel
  have hserves : ServesLevels (twoLevels [⟨"a", "val", true⟩] [⟨"b", "1", false⟩])
      (loadTwoLevels [⟨"a", "val", true⟩] [⟨"b", "1", false⟩]).m_levelManagers
      [[[⟨"a", "val", true⟩]], [[⟨"b", "1", false⟩]]] := by
    rw [hload]
    exact .cons (.cons (.inMemory (by decide) (by decide) (by decide)) .nil)
      (.cons (.cons (.inMemory (by decide) (by decide) (by decide)) .nil) .nil)
  refine (get_first_iff hserves "a").2 ((noLiveBehindTombstone_cons_some rfl).2 fun _ tables ht => ?_)
  rw [List.mem_singleton.1 ht]
  decide

/-- **A deleted key comes back**: its first entry is a tombstone, in level 0, and its old value is in
level 1. -/
theorem deleted_key_read_from_below :
    live (firstEntry [[⟨"a", "val", true⟩], [⟨"a", "1", false⟩]] "a") = none ∧
      (loadTwoLevels [⟨"a", "val", true⟩] [⟨"a", "1", false⟩]).get
        (twoLevels [⟨"a", "val", true⟩] [⟨"a", "1", false⟩]) "a" = .ok (some ⟨"a", "1", false⟩) := by
  decide +kernel

end StorageManagerImpl

end TinyKv
