import Mathlib.Data.List.Sort
import Mathlib.Order.Basic

/-!
# Ordered maps as sorted lists

A map from keys to values that carry their key, kept as the list of its values in increasing key
order: what an ordered map with in-order iteration is for its callers. `SortedMap key` carries the
order as a field, so every map that can be built iterates in order.

* `lookup` on any list (first value with the key), `SortedMap.insert` (insert or replace).
* `lookup_insertKeyed`, `insertKeyed_sorted`, `length_insertKeyed`: one insertion.
* `lookup_eq_some`, `lookup_append`, `mem_unique`: reading a sorted list.
-/

namespace Keyed

variable {α κ : Type} [LinearOrder κ] (key : α → κ)

/-- Strictly increasing keys. -/
def Sorted (l : List α) : Prop := l.Pairwise fun a b => key a < key b

instance (l : List α) : Decidable (Sorted key l) := inferInstanceAs (Decidable (List.Pairwise _ _))

/-- The first value with key `k`. -/
def lookup (l : List α) (k : κ) : Option α := l.find? fun a => decide (key a = k)

/-- The first position with key `k`, or the length. -/
def position (l : List α) (k : κ) : Nat := l.findIdx fun a => decide (key a = k)

/-- Insert `a` at its place, or put it where its key is. -/
def insertKeyed (a : α) : List α → List α
  | [] => [a]
  | b :: l =>
    if key a < key b then a :: b :: l
    else if key a = key b then a :: l
    else b :: insertKeyed a l

variable {key}

theorem lookup_nil (k : κ) : lookup key [] k = none := rfl

theorem lookup_cons (a : α) (l : List α) (k : κ) :
    lookup key (a :: l) k = if key a = k then some a else lookup key l k := by
  simp only [lookup, List.find?_cons]
  by_cases h : key a = k <;> simp [h]

theorem lookup_append (l l' : List α) (k : κ) :
    lookup key (l ++ l') k = (lookup key l k).or (lookup key l' k) := by
  simp only [lookup, List.find?_append]

theorem lookup_key {l : List α} {k : κ} {a : α} (h : lookup key l k = some a) : key a = k := by
  simpa using List.find?_some h

theorem mem_of_lookup {l : List α} {k : κ} {a : α} (h : lookup key l k = some a) : a ∈ l :=
  List.mem_of_find?_eq_some h

theorem lookup_eq_none {l : List α} {k : κ} : lookup key l k = none ↔ ∀ a ∈ l, key a ≠ k := by
  simp [lookup, List.find?_eq_none]

theorem lookup_isSome {l : List α} {k : κ} : (lookup key l k).isSome ↔ ∃ a ∈ l, key a = k := by
  simp [lookup, List.find?_isSome]

theorem lookup_of_mem {l : List α} (h : (l.map key).Nodup) {a : α} (ha : a ∈ l) :
    lookup key l (key a) = some a := by
  have hsome : (lookup key l (key a)).isSome := lookup_isSome.2 ⟨a, ha, rfl⟩
  obtain ⟨b, hb⟩ := Option.isSome_iff_exists.1 hsome
  rw [hb, List.inj_on_of_nodup_map h (mem_of_lookup hb) ha (lookup_key hb)]

theorem getElem?_position (l : List α) (k : κ) : l[position key l k]? = lookup key l k :=
  List.find?_eq_getElem?_findIdx.symm

theorem position_le_length (l : List α) (k : κ) : position key l k ≤ l.length :=
  List.findIdx_le_length

theorem position_eq_length {l : List α} {k : κ} :
    position key l k = l.length ↔ ∀ a ∈ l, key a ≠ k := by
  simp [position, List.findIdx_eq_length]

omit [LinearOrder κ] in
/-- Lists over values that the key tells apart are told apart by their keys. -/
theorem eq_of_map_eq {l l' : List α} (h : ∀ a ∈ l, ∀ b ∈ l', key a = key b → a = b)
    (hkeys : l.map key = l'.map key) : l = l' := by
  induction l generalizing l' with
  | nil =>
    cases l' with
    | nil => rfl
    | cons b l' => cases hkeys
  | cons a l ih =>
    cases l' with
    | nil => cases hkeys
    | cons b l' =>
      obtain ⟨hk, hkeys⟩ := List.cons.inj hkeys
      rw [h a List.mem_cons_self b List.mem_cons_self hk,
        ih (fun x hx y hy => h x (List.mem_cons_of_mem _ hx) y (List.mem_cons_of_mem _ hy)) hkeys]

/-! ## Sorted lists -/

theorem Sorted.tail {a : α} {l : List α} (h : Sorted key (a :: l)) : Sorted key l :=
  (List.pairwise_cons.1 h).2

theorem Sorted.nodup_map {l : List α} (h : Sorted key l) : (l.map key).Nodup :=
  List.pairwise_map.2 (h.imp fun hab => hab.ne)

theorem Sorted.head_lt {a : α} {l : List α} (h : Sorted key (a :: l)) {b : α} (hb : b ∈ l) :
    key a < key b := (List.pairwise_cons.1 h).1 b hb

theorem mem_unique {l : List α} (h : Sorted key l) {a b : α} (ha : a ∈ l) (hb : b ∈ l)
    (he : key a = key b) : a = b := by
  induction l with
  | nil => cases ha
  | cons c l ih =>
    rcases List.mem_cons.1 ha with rfl | ha' <;> rcases List.mem_cons.1 hb with rfl | hb'
    · rfl
    · exact absurd he (h.head_lt hb').ne
    · exact absurd he.symm (h.head_lt ha').ne
    · exact ih h.tail ha' hb'

theorem Sorted.getElem_lt {l : List α} (h : Sorted key l) {i j : Nat} (hi : i < l.length)
    (hj : j < l.length) (hij : i < j) : key l[i] < key l[j] :=
  List.pairwise_iff_getElem.1 h i j hi hj hij

theorem Sorted.lt_getElem_of_le {l : List α} (h : Sorted key l) {k : κ} {i j : Nat}
    (hi : i < l.length) (hj : j < l.length) (hij : i ≤ j) (hk : k < key l[i]) : k < key l[j] := by
  rcases Nat.lt_or_eq_of_le hij with hlt | rfl
  · exact hk.trans (h.getElem_lt hi hj hlt)
  · exact hk

theorem Sorted.getElem_lt_of_le {l : List α} (h : Sorted key l) {k : κ} {i j : Nat}
    (hi : i < l.length) (hj : j < l.length) (hij : i ≤ j) (hk : key l[j] < k) : key l[i] < k := by
  rcases Nat.lt_or_eq_of_le hij with hlt | rfl
  · exact (h.getElem_lt hi hj hlt).trans hk
  · exact hk

theorem position_getElem {l : List α} (h : Sorted key l) {i : Nat} (hi : i < l.length) :
    position key l (key l[i]) = i := by
  refine (List.findIdx_eq hi).2 ⟨by simp, fun j hj => ?_⟩
  simpa using (h.getElem_lt (hj.trans hi) hi hj).ne

/-- On a sorted list, the value found is the only one with its key. -/
theorem lookup_eq_some {l : List α} (h : Sorted key l) {k : κ} {a : α} :
    lookup key l k = some a ↔ a ∈ l ∧ key a = k := by
  refine ⟨fun hl => ⟨mem_of_lookup hl, lookup_key hl⟩, fun ⟨ha, hk⟩ => ?_⟩
  obtain ⟨b, hb⟩ := Option.isSome_iff_exists.1 (lookup_isSome.2 ⟨a, ha, hk⟩)
  rw [hb, mem_unique h (mem_of_lookup hb) ha ((lookup_key hb).trans hk.symm)]

/-- The value behind the one at a position is the first one with a larger key. -/
theorem find?_gt {l : List α} (h : Sorted key l) {i : Nat} (hi : i < l.length) :
    (l.find? fun a => decide (key l[i] < key a)) = l[i + 1]? := by
  by_cases hnext : i + 1 < l.length
  · rw [List.getElem?_eq_getElem hnext, List.find?_eq_some_iff_getElem]
    refine ⟨by simpa using h.getElem_lt hi hnext (Nat.lt_succ_self i), i + 1, hnext, rfl, fun j hj => ?_⟩
    rcases Nat.lt_succ_iff_lt_or_eq.1 hj with hlt | rfl
    · simpa using (h.getElem_lt (hlt.trans hi) hi hlt).le
    · simp
  · rw [List.getElem?_eq_none (by omega), List.find?_eq_none]
    intro a ha
    obtain ⟨j, hj, rfl⟩ := List.getElem_of_mem ha
    rcases Nat.lt_or_eq_of_le (show j ≤ i by omega) with hlt | rfl
    · simpa using (h.getElem_lt hj hi hlt).le
    · simp

theorem lookup_perm {l l' : List α} (h : (l.map key).Nodup) (hp : l'.Perm l) (k : κ) :
    lookup key l' k = lookup key l k := by
  cases hl : lookup key l k with
  | none => exact lookup_eq_none.2 fun a ha => lookup_eq_none.1 hl a (hp.subset ha)
  | some a =>
    have ha := hp.symm.subset (mem_of_lookup hl)
    rw [← lookup_key hl]
    exact lookup_of_mem ((hp.map key).nodup_iff.2 h) ha

theorem eq_of_lookup {l l' : List α} (h : Sorted key l) (h' : Sorted key l')
    (he : ∀ k, lookup key l k = lookup key l' k) : l = l' := by
  have hmem : ∀ a, a ∈ l ↔ a ∈ l' := by
    intro a
    have := lookup_eq_some h (k := key a) (a := a)
    rw [he, lookup_eq_some h'] at this
    simpa using this.symm
  have hperm : l.Perm l' :=
    (List.perm_ext_iff_of_nodup h.nodup_map.of_map h'.nodup_map.of_map).2 hmem
  exact hperm.eq_of_pairwise (fun a b _ _ hab hba => absurd hab hba.not_gt) h h'

/-! ## Insertion -/

theorem lookup_insertKeyed (a : α) (l : List α) (k : κ) :
    lookup key (insertKeyed key a l) k = if key a = k then some a else lookup key l k := by
  induction l with
  | nil => rw [insertKeyed, lookup_cons, lookup_nil]
  | cons b l ih =>
    unfold insertKeyed
    split
    · rw [lookup_cons]
    · split
      · rename_i hab
        rw [lookup_cons, lookup_cons, hab]
        split <;> rfl
      · rename_i hab
        rw [lookup_cons, lookup_cons, ih]
        by_cases hb : key b = k
        · rw [if_pos hb, if_pos hb, if_neg (by rw [← hb]; exact hab)]
        · rw [if_neg hb, if_neg hb]

theorem mem_insertKeyed {a b : α} {l : List α} (h : b ∈ insertKeyed key a l) : b = a ∨ b ∈ l := by
  induction l with
  | nil => exact .inl (by simpa [insertKeyed] using h)
  | cons c l ih =>
    unfold insertKeyed at h
    split at h
    · exact List.mem_cons.1 h
    · split at h
      · rcases List.mem_cons.1 h with h | h
        · exact .inl h
        · exact .inr (List.mem_cons_of_mem _ h)
      · rcases List.mem_cons.1 h with rfl | h
        · exact .inr List.mem_cons_self
        · exact (ih h).imp_right (List.mem_cons_of_mem _)

theorem insertKeyed_sorted (a : α) {l : List α} (h : Sorted key l) :
    Sorted key (insertKeyed key a l) := by
  induction l with
  | nil => simp [insertKeyed, Sorted]
  | cons b l ih =>
    unfold insertKeyed
    split
    · rename_i hab
      refine List.pairwise_cons.2 ⟨fun c hc => ?_, h⟩
      rcases List.mem_cons.1 hc with rfl | hc
      · exact hab
      · exact hab.trans (h.head_lt hc)
    · split
      · rename_i hab
        exact List.pairwise_cons.2 ⟨fun c hc => hab ▸ h.head_lt hc, h.tail⟩
      · rename_i hlt hne
        refine List.pairwise_cons.2 ⟨fun c hc => ?_, ih h.tail⟩
        rcases mem_insertKeyed hc with rfl | hc
        · exact lt_of_le_of_ne (not_lt.1 hlt) (Ne.symm hne)
        · exact h.head_lt hc

/-- An insertion adds one value unless it replaces one. -/
theorem length_insertKeyed (a : α) {l : List α} (h : Sorted key l) :
    (insertKeyed key a l).length =
      if (lookup key l (key a)).isSome then l.length else l.length + 1 := by
  induction l with
  | nil => simp [insertKeyed, lookup_nil]
  | cons b l ih =>
    unfold insertKeyed
    rw [lookup_cons]
    split
    · rename_i hab
      have hl : lookup key l (key a) = none :=
        lookup_eq_none.2 fun c hc => (hab.trans (h.head_lt hc)).ne'
      simp [hab.ne', hl]
    · split
      · rename_i hab
        simp [hab]
      · rename_i hab
        rw [if_neg (Ne.symm hab), List.length_cons, ih h.tail]
        split <;> simp

end Keyed

/-- An ordered map from `κ` to values that carry their key. -/
@[ext]
structure SortedMap {α κ : Type} [LinearOrder κ] (key : α → κ) where
  toList : List α
  sorted : Keyed.Sorted key toList

namespace SortedMap

open Keyed

variable {α κ : Type} [LinearOrder κ] {key : α → κ}

def empty : SortedMap key := ⟨[], List.Pairwise.nil⟩

def find? (m : SortedMap key) (k : κ) : Option α := lookup key m.toList k

def insert (m : SortedMap key) (a : α) : SortedMap key :=
  ⟨insertKeyed key a m.toList, insertKeyed_sorted a m.sorted⟩

def size (m : SortedMap key) : Nat := m.toList.length

instance [DecidableEq α] : DecidableEq (SortedMap key) := fun m m' =>
  decidable_of_iff (m.toList = m'.toList) SortedMap.ext_iff.symm

@[simp] theorem find?_empty (k : κ) : (empty : SortedMap key).find? k = none := rfl

@[simp] theorem size_empty : (empty : SortedMap key).size = 0 := rfl

theorem find?_insert (m : SortedMap key) (a : α) (k : κ) :
    (m.insert a).find? k = if key a = k then some a else m.find? k :=
  lookup_insertKeyed a m.toList k

theorem size_insert (m : SortedMap key) (a : α) :
    (m.insert a).size = if (m.find? (key a)).isSome then m.size else m.size + 1 :=
  length_insertKeyed a m.sorted

theorem size_insert_le (m : SortedMap key) (a : α) : (m.insert a).size ≤ m.size + 1 := by
  rw [size_insert]
  split <;> omega

theorem size_le_insert (m : SortedMap key) (a : α) : m.size ≤ (m.insert a).size := by
  rw [size_insert]
  split <;> omega

theorem mem_insert {m : SortedMap key} {a b : α} (h : b ∈ (m.insert a).toList) :
    b = a ∨ b ∈ m.toList := mem_insertKeyed h

/-- The values of a list, inserted in order. -/
def insertAll (m : SortedMap key) (l : List α) : SortedMap key := l.foldl insert m

theorem size_le_insertAll (m : SortedMap key) (l : List α) : m.size ≤ (m.insertAll l).size := by
  induction l generalizing m with
  | nil => exact Nat.le_refl _
  | cons a l ih => exact (m.size_le_insert a).trans (ih _)

/-- The last value with a key stays. -/
theorem find?_insertAll (m : SortedMap key) (l : List α) (k : κ) :
    (m.insertAll l).find? k = (lookup key l.reverse k).or (m.find? k) := by
  induction l generalizing m with
  | nil => rfl
  | cons a l ih =>
    rw [insertAll, List.foldl_cons, ← insertAll, ih, find?_insert, List.reverse_cons, lookup_append,
      Option.or_assoc, lookup_cons, lookup_nil]
    split <;> rfl

/-- The order of insertion does not matter where the keys are distinct. -/
theorem toList_insertAll {l l' : List α} (h : (l.map key).Nodup) (hp : l'.Perm l)
    (hs : Sorted key l') : ((empty : SortedMap key).insertAll l).toList = l' := by
  refine eq_of_lookup (insertAll empty l).sorted hs fun k => ?_
  have hfind := find?_insertAll (empty : SortedMap key) l k
  rw [find?_empty, Option.or_none, lookup_perm h l.reverse_perm, ← lookup_perm h hp] at hfind
  exact hfind

end SortedMap
