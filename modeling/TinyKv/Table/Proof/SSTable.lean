import TinyKv.Table.SSTable

/-!
# The in-memory table answers what it holds

* `SSTable.get_eq`: the binary search over sorted entries is the lookup, with every access in
  bounds, as long as the last index fits an `int`.
* `SSTable.withinRange_eq`: the range test of a table that is not empty.
* `SSTableReader.read_ok_iff`: the reader accepts the files that are entries and sixteen bytes more,
  so it gives back the table whose file it reads (`SSTableReader.read_encode`).
-/

namespace TinyKv

open Bytes

namespace SSTable

/-! ## Lookup -/

theorem entryAt_of_lt {t : SSTable} {i : Int} (h0 : 0 ≤ i) (hi : i.toNat < t.m_entries.length) :
    t.entryAt i = .ok t.m_entries[i.toNat] := by
  rw [entryAt, if_neg (by omega), List.getElem?_eq_getElem hi]

theorem lookup_getElem {es : List Entry} (hsort : SortedEntries es) {i : Nat} (hi : i < es.length) :
    lookup es es[i].key = some es[i] :=
  (Keyed.lookup_eq_some hsort).2 ⟨List.getElem_mem hi, rfl⟩

/-- **The search loop**: with every key before `l` below `key` and every key behind `r` above it,
the loop ends on the lookup. The upper bound may come to lie one below the lower one. -/
theorem search_eq {t : SSTable} (hsort : SortedEntries t.m_entries) (key : Bytes) {l r : Int}
    (h0 : 0 ≤ l) (hlr : l ≤ r + 1) (hl : l < t.m_entries.length) (hr : r < t.m_entries.length)
    (hlow : ∀ (i : Nat) (hi : i < t.m_entries.length), (i : Int) < l → t.m_entries[i].key < key)
    (hhigh : ∀ (i : Nat) (hi : i < t.m_entries.length), r < (i : Int) → key < t.m_entries[i].key) :
    t.search key l r = .ok (lookup t.m_entries key) := by
  fun_induction search t key l r with
  | case1 l r hlt mid ih1 ih2 =>
    have hmid : mid = l + (r - l) / 2 := rfl
    have hm : mid.toNat < t.m_entries.length := by omega
    rw [entryAt_of_lt (by omega) hm]
    simp only [bind, Except.bind]
    split
    · rename_i heq
      rw [← heq, lookup_getElem hsort hm]
      rfl
    · rename_i hne
      split
      · rename_i hbelow
        refine ih1 h0 (by omega) hl (by omega) hlow fun i hi hgt => ?_
        exact hsort.lt_getElem_of_le hm hi (by omega) hbelow
      · rename_i hnlt
        have habove := lt_of_le_of_ne (not_lt.1 hnlt) hne
        refine ih2 (by omega) (by omega) (by omega) hr (fun i hi hlt => ?_) hhigh
        exact hsort.getElem_lt_of_le hi hm (by omega) habove
  | case2 l r hge =>
    have hl' : l.toNat < t.m_entries.length := by omega
    rw [entryAt_of_lt h0 hl']
    simp only [bind, Except.bind, pure, Except.pure]
    split
    · rename_i heq
      rw [← heq, lookup_getElem hsort hl']
    · rename_i hne
      have hnone : lookup t.m_entries key = none := by
        apply Keyed.lookup_eq_none.2
        intro e he
        obtain ⟨i, hi, rfl⟩ := List.getElem_of_mem he
        rcases Int.lt_trichotomy (i : Int) l with h | h | h
        · exact (hlow i hi h).ne
        · have : i = l.toNat := by omega
          subst this
          exact hne
        · exact (hhigh i hi (by omega)).ne'
      rw [hnone]

theorem toInt_lastIndex {n : Nat} (hpos : n ≠ 0) (hlen : n < 2 ^ 31) :
    (Int32.ofNat (n - 1)).toInt = n - 1 := by
  rw [Int32.toInt_ofNat_of_lt (by omega)]
  omega

theorem get_eq {t : SSTable} (hsort : SortedEntries t.m_entries)
    (hlen : t.m_entries.length < 2 ^ 31) (key : Bytes) :
    t.get key = .ok (lookup t.m_entries key) := by
  unfold get
  split
  · rename_i h
    rw [List.length_eq_zero_iff.1 h]
    rfl
  · rename_i h
    rw [toInt_lastIndex h hlen]
    refine search_eq hsort key (by omega) (by omega) (by omega) (by omega) (fun i _ hi => ?_)
      fun i hi hgt => ?_
    · omega
    · omega

theorem withinRange_eq {t : SSTable} (hne : t.m_entries ≠ []) (key : Bytes) :
    t.withinRange key =
      .ok (decide (firstKey t.m_entries ≤ key ∧ key ≤ lastKey t.m_entries)) := by
  obtain ⟨m, es⟩ := t
  obtain ⟨e, es, rfl⟩ := List.exists_cons_of_ne_nil hne
  have hfirst : entryAt ⟨m, e :: es⟩ 0 = .ok e := rfl
  have hlast : entryAt ⟨m, e :: es⟩ (((e :: es).length : Int) - 1) =
      .ok ((e :: es).getLast (by simp)) := by
    rw [entryAt_of_lt (by simp) (by simp), List.getLast_eq_getElem]
    simp
  have hkey : lastKey (e :: es) = ((e :: es).getLast (by simp)).key := by
    simp [lastKey, List.getLast?_eq_getLast_of_ne_nil]
  simp only [withinRange, hfirst, hlast, hkey, bind, Except.bind, pure, Except.pure, firstKey,
    List.head?_cons, Option.map_some, Option.getD_some]
  split
  · rename_i h
    simp [h]
  · rename_i h
    simp [h]

end SSTable

/-! ## The file -/

namespace SSTableReader

/-- The bytes of one entry; any byte but zero marks a tombstone. -/
def EncodesEntry (e : Entry) (bs : Bytes) : Prop :=
  e.Small ∧ ∃ t : UInt8, e.tombstone = (t != 0) ∧
    bs = beBytes 4 e.key.length ++ e.key ++ beBytes 4 e.val.length ++ e.val ++ [t]

theorem encodesEntry_serializeEntry {e : Entry} (he : e.Small) :
    EncodesEntry e (SSTableWriter.serializeEntry e) := by
  refine ⟨he, if e.tombstone then 1 else 0, ?_, ?_⟩
  · cases e.tombstone <;> rfl
  · simp only [SSTableWriter.serializeEntry, Nat.mod_eq_of_lt he.1, Nat.mod_eq_of_lt he.2]

theorem deserializeEntry_of_encodes {e : Entry} {bs data : Bytes} (h : EncodesEntry e bs)
    (hp : bs <+: data) : deserializeEntry data = .ok (e, bs.length) := by
  obtain ⟨k, v, tomb⟩ := e
  obtain ⟨⟨hk, hv⟩, t, ht, hbs⟩ := h
  dsimp only at hk hv ht hbs
  -- the buffer is followed part by part
  have hat : At data 0 bs := ⟨Nat.zero_le _, hp⟩
  rw [hbs] at hat
  obtain ⟨hat, h5⟩ := at_append.1 hat
  obtain ⟨hat, h4⟩ := at_append.1 hat
  obtain ⟨hat, h3⟩ := at_append.1 hat
  obtain ⟨h1, h2⟩ := at_append.1 hat
  simp only [List.length_append, length_beBytes, Nat.zero_add] at h2 h3 h4 h5
  have hle := h5.le
  rw [List.length_singleton] at hle
  have t1 := h1.take
  have t2 := h2.take
  have t3 := h3.take
  have t4 := h4.take
  rw [length_beBytes, List.drop_zero] at t1
  rw [length_beBytes] at t3
  have e1 : ∀ n, n < 2 ^ 32 → beNat (beBytes 4 n) = n := fun n hn => by
    rw [beNat_beBytes, Nat.mod_eq_of_lt (by omega)]
  have hbyte : data[4 + k.length + 4 + v.length]? = some t := by
    obtain ⟨-, post, hpost⟩ := h5
    rw [← List.head?_drop, ← hpost]
    rfl
  have hlen : bs.length = 4 + k.length + 4 + v.length + 1 := by
    simp only [hbs, List.length_append, length_beBytes, List.length_singleton]
  rw [deserializeEntry, if_neg (by omega)]
  simp only [t1, e1 _ hk]
  rw [if_neg (by omega), if_neg (by omega)]
  simp only [t2, t3, e1 _ hv]
  rw [if_neg (by omega)]
  simp only [t4, hbyte, hlen, ht]

/-- **What `_deserializeEntry` accepts**: the buffers that start with an entry. -/
theorem deserializeEntry_ok_iff {data : Bytes} {e : Entry} {n : Nat} :
    deserializeEntry data = .ok (e, n) ↔
      ∃ bs, EncodesEntry e bs ∧ bs <+: data ∧ n = bs.length := by
  refine ⟨fun h => ?_, ?_⟩
  · unfold deserializeEntry at h
    split at h
    · cases h
    · dsimp only at h
      split at h
      · cases h
      · split at h
        · cases h
        · split at h
          · cases h
          · split at h
            · cases h
            · rename_i h1 h2 h3 h4 b hb
              cases h
              set kl := beNat (data.take 4) with hkl
              set vl := beNat ((data.drop (4 + kl)).take 4) with hvl
              -- a length field is the encoding of the length it stands for
              have hword : ∀ pos, pos + 4 ≤ data.length →
                  ((data.drop pos).take 4).length = 4 := fun pos hpos => by
                rw [List.length_take, List.length_drop]
                omega
              have hw1 := hword 0 (by omega)
              have hw2 := hword (4 + kl) (by omega)
              rw [List.drop_zero] at hw1
              have hb1 := beBytes_beNat (data.take 4)
              have hb2 := beBytes_beNat ((data.drop (4 + kl)).take 4)
              have hl1 := beNat_lt (data.take 4)
              have hl2 := beNat_lt ((data.drop (4 + kl)).take 4)
              rw [hw1, ← hkl] at hb1 hl1
              rw [hw2, ← hvl] at hb2 hl2
              have hk : ((data.drop 4).take kl).length = kl := by
                rw [List.length_take, List.length_drop]
                omega
              have hv : ((data.drop (4 + kl + 4)).take vl).length = vl := by
                rw [List.length_take, List.length_drop]
                omega
              have hlast : (data.drop (4 + kl + 4 + vl)).take 1 = [b] := by
                rw [List.take_one, List.head?_drop, hb]
                rfl
              refine ⟨data.take (4 + kl + 4 + vl + 1), ⟨⟨?_, ?_⟩, b, rfl, ?_⟩,
                List.take_prefix _ _, ?_⟩
              · dsimp only
                omega
              · dsimp only
                omega
              · simp only [List.take_add, hlast, hk, hv, hb1, hb2]
              · have := (List.getElem?_eq_some_iff.1 hb).1
                rw [List.length_take]
                omega
  · rintro ⟨bs, he, hp, rfl⟩
    exact deserializeEntry_of_encodes he hp

theorem deserializeEntry_thrown {data : Bytes} {f : Fault} (h : deserializeEntry data = .error f) :
    f.IsThrown := by
  unfold deserializeEntry at h
  split at h
  · cases h
    exact ⟨_, rfl⟩
  · dsimp only at h
    split at h
    · cases h
      exact ⟨_, rfl⟩
    · split at h
      · cases h
        exact ⟨_, rfl⟩
      · split at h
        · cases h
          exact ⟨_, rfl⟩
        · split at h
          · cases h
            exact ⟨_, rfl⟩
          · cases h

/-- The entry area: one entry after the other. -/
inductive EncodesEntries : List Entry → Bytes → Prop
  | nil : EncodesEntries [] []
  | cons {e : Entry} {es : List Entry} {bs area : Bytes} (head : EncodesEntry e bs)
      (tail : EncodesEntries es area) : EncodesEntries (e :: es) (bs ++ area)

theorem encodesEntries_flatMap {es : List Entry} (hes : ∀ e ∈ es, e.Small) :
    EncodesEntries es (es.flatMap SSTableWriter.serializeEntry) := by
  induction es with
  | nil => exact .nil
  | cons e es ih =>
    exact .cons (encodesEntry_serializeEntry (hes e List.mem_cons_self))
      (ih fun x hx => hes x (List.mem_cons_of_mem _ hx))

theorem readEntries_of_error {area : Bytes} {f : Fault} (hne : area.length ≠ 0)
    (h : deserializeEntry area = .error f) : readEntries area = .error f := by
  rw [readEntries, if_neg hne]
  split
  · rename_i hf
    rw [h] at hf
    cases hf
    rfl
  · rename_i hok
    rw [h] at hok
    cases hok

theorem readEntries_of_ok {area : Bytes} {e : Entry} {n : Nat}
    (h : deserializeEntry area = .ok (e, n)) :
    readEntries area = (readEntries (area.drop n)).map (e :: ·) := by
  have hlen := deserializeEntry_length h
  rw [readEntries, if_neg (by omega)]
  split
  · rename_i hf
    rw [h] at hf
    cases hf
  · rename_i hok
    rw [h] at hok
    cases hok
    cases readEntries (area.drop n) <;> rfl

/-- **What the entry loop accepts.** -/
theorem readEntries_ok_iff {area : Bytes} {es : List Entry} :
    readEntries area = .ok es ↔ EncodesEntries es area := by
  refine ⟨fun h => ?_, fun h => ?_⟩
  · fun_induction readEntries area generalizing es with
    | case1 area hz =>
      cases h
      rw [List.length_eq_zero_iff.1 hz]
      exact .nil
    | case2 => cases h
    | case3 => cases h
    | case4 area hz e n hdes es' hrest ih =>
      cases h
      obtain ⟨bs, he, ⟨rest, rfl⟩, rfl⟩ := deserializeEntry_ok_iff.1 hdes
      have htail := ih hrest
      rw [List.drop_left] at htail
      exact .cons he htail
  · induction h with
    | nil =>
      rw [readEntries]
      rfl
    | @cons e es bs area he _ ih =>
      have hdes := deserializeEntry_of_encodes he (List.prefix_append bs area)
      rw [readEntries_of_ok hdes, List.drop_left, ih]
      rfl

theorem readEntries_thrown {area : Bytes} {f : Fault} (h : readEntries area = .error f) :
    f.IsThrown := by
  fun_induction readEntries area generalizing f with
  | case1 => cases h
  | case2 area hz f' hdes =>
    cases h
    exact deserializeEntry_thrown hdes
  | case3 area hz e n hdes f' hrest ih =>
    cases h
    exact ih hrest
  | case4 => cases h

/-- The file is entries without a gap and sixteen bytes more. -/
def LooksWhole (file : Bytes) (t : SSTable) : Prop :=
  ∃ es area timestamp file_num, es ≠ [] ∧ EncodesEntries es area ∧
    file = area ++ leBytes 8 (UInt64.toNat timestamp) ++ leBytes 8 (UInt64.toNat file_num) ∧
    t = SSTable.ofEntries ⟨file_num, timestamp, firstKey es, lastKey es⟩ es

theorem leBytes_toNat_ofNat {bs : Bytes} (h : bs.length = 8) :
    leBytes 8 (UInt64.ofNat (leNat bs)).toNat = bs := by
  have hlt := leNat_lt bs
  have hback := leBytes_leNat bs
  rw [h] at hlt hback
  rw [toNat_ofNat_uint64 hlt, hback]

theorem read_ok_iff (file : Bytes) (t : SSTable) : read file = .ok t ↔ LooksWhole file t := by
  refine ⟨fun h => ?_, ?_⟩
  · unfold read at h
    split at h
    · cases h
    · split at h
      · cases h
      · rename_i hlen
        dsimp only at h
        split at h
        · cases h
        · cases h
        · rename_i e es hread
          cases h
          refine ⟨e :: es, _, _, _, List.cons_ne_nil e es, readEntries_ok_iff.1 hread, ?_, rfl⟩
          have h8 : ((file.drop (file.length - 16)).take 8).length = 8 := by
            rw [List.length_take, List.length_drop]
            omega
          have h8' : (file.drop (file.length - 8)).length = 8 := by
            rw [List.length_drop]
            omega
          have hmid : (file.drop (file.length - 16)).drop 8 = file.drop (file.length - 8) := by
            rw [List.drop_drop]
            congr 1
            omega
          rw [leBytes_toNat_ofNat h8, leBytes_toNat_ofNat h8', ← hmid, List.append_assoc,
            List.take_append_drop, List.take_append_drop]
  · rintro ⟨es, area, timestamp, file_num, hne, henc, hfile, rfl⟩
    have hlen : file.length = area.length + 16 := by simp [hfile]
    have htake : file.take (file.length - 16) = area := by
      rw [hlen, Nat.add_sub_cancel, hfile, List.append_assoc, List.take_left]
    have hts : (file.drop (file.length - 16)).take 8 = leBytes 8 timestamp.toNat := by
      rw [hlen, Nat.add_sub_cancel, hfile, List.append_assoc, List.drop_left,
        List.take_left' (length_leBytes 8 _)]
    have hnum : file.drop (file.length - 8) = leBytes 8 file_num.toNat := by
      rw [hfile]
      exact List.drop_left' (by simp)
    rw [read, if_neg (by omega), if_neg (by omega)]
    simp only [htake, hts, hnum, ofNat_leNat_leBytes_uint64, readEntries_ok_iff.2 henc]
    obtain ⟨e, es, rfl⟩ := List.exists_cons_of_ne_nil hne
    rfl

theorem read_thrown {file : Bytes} {f : Fault} (h : read file = .error f)
    (hlen : file = [] ∨ 16 < file.length) : f.IsThrown := by
  unfold read at h
  split at h
  · cases h
    exact ⟨_, rfl⟩
  · rename_i hpos
    have hlen : 16 < file.length := hlen.resolve_left fun hnil => hpos (by rw [hnil]; rfl)
    rw [if_neg (by omega)] at h
    dsimp only at h
    split at h
    · rename_i hread
      cases h
      exact readEntries_thrown hread
    · rename_i hread
      generalize harea : file.take (file.length - 16) = area at hread
      cases readEntries_ok_iff.1 hread
      have := congrArg List.length harea
      rw [List.length_take, List.length_nil] at this
      omega
    · cases h

/-- **The reader gives back the table** whose sorted entries were encoded. -/
theorem read_encode {es : List Entry} (hne : es ≠ []) (hsort : SortedEntries es)
    (hes : ∀ e ∈ es, e.Small) (timestamp : TimestampType) (file_num : FileNumber) :
    read (SSTableWriter.encode es timestamp file_num) =
      .ok ⟨⟨file_num, timestamp, firstKey es, lastKey es⟩, es⟩ := by
  apply (read_ok_iff _ _).2
  refine ⟨es, _, timestamp, file_num, hne, encodesEntries_flatMap hes, rfl, ?_⟩
  rw [SSTable.ofEntries, sortEntries_eq hsort]

end SSTableReader

end TinyKv
