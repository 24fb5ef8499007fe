import TinyKv.Table.SSTableBuffer
import TinyKv.Table.Proof.SSTable

/-!
# Where the reader of a table file stays in bounds

Every length that `_deserializeEntry` finds is tested against the rest of the entry area before it
is used, so the entry loop reads inside the buffer and ends, whatever the file holds
(`readEntriesAt_eq`). What is not tested is that there is room for the trailer and for one entry, and
that the counter of the loop does not overflow: the reader keeps to its bounds iff the file has more
than sixteen bytes and its entry area does not start with `2 ^ 31` entries (`readBuffer_safe_iff`).
So it accepts the files that look whole and have fewer entries (`readBuffer_ok_iff`).
-/

namespace TinyKv.SSTableReader

open Bytes

/-! ## Reading from the buffer -/

theorem byteAt_of_lt {buffer : Bytes} {i : Nat} (h : i < buffer.length) :
    byteAt buffer i = .ok buffer[i] := by
  rw [byteAt, List.getElem?_eq_getElem h]

theorem copyBytes_ok {buffer : Bytes} {pos n : Nat} (h : pos + n ≤ buffer.length) :
    copyBytes buffer pos n = .ok ((buffer.drop pos).take n) := by
  induction n generalizing pos with
  | zero => rfl
  | succ n ih =>
    have hlt : pos < buffer.length := by omega
    rw [copyBytes, byteAt_of_lt hlt, ih (by omega), List.drop_eq_getElem_cons hlt,
      List.take_succ_cons]
    rfl

theorem copyBytes_outside {buffer : Bytes} {pos : Nat} (h : buffer.length ≤ pos) (n : Nat) :
    copyBytes buffer pos (n + 1) = .error .outOfBounds := by
  rw [copyBytes, byteAt, List.getElem?_eq_none h]
  rfl

theorem take_drop_window {l : Bytes} {offset size p n : Nat} (h : p + n ≤ size) :
    (((l.drop offset).take size).drop p).take n = (l.drop (offset + p)).take n := by
  rw [List.drop_take, List.take_take, List.drop_drop, Nat.min_eq_left (by omega)]

section

variable {buffer : Bytes} {offset size : Nat}

/-- **`_deserializeEntry` reads inside its window.** -/
theorem deserializeEntryAt_eq (h : offset + size ≤ buffer.length) :
    deserializeEntryAt buffer offset size = deserializeEntry ((buffer.drop offset).take size) := by
  set data := (buffer.drop offset).take size with hdata
  have hlen : data.length = size := by
    rw [hdata, List.length_take, List.length_drop]
    omega
  have hcopy : ∀ p n, p + n ≤ size → copyBytes buffer (offset + p) n = .ok ((data.drop p).take n) := by
    intro p n hp
    rw [copyBytes_ok (by omega), hdata, take_drop_window hp]
  have hbyte : ∀ p, p < size → byteAt buffer (offset + p) = .ok (data.getD p 0) ∧
      data[p]? = some (data.getD p 0) := by
    intro p hp
    have hget : data[p]? = some buffer[offset + p] := by
      rw [hdata, List.getElem?_take_of_lt hp, List.getElem?_drop, List.getElem?_eq_getElem]
    rw [byteAt_of_lt (by omega), List.getD_eq_getElem?_getD, hget]
    exact ⟨rfl, rfl⟩
  unfold deserializeEntryAt deserializeEntry
  rw [hlen]
  by_cases h1 : 4 > size
  · rw [if_pos h1, if_pos h1]
  rw [if_neg h1, if_neg h1]
  have hkey := hcopy 0 4 (by omega)
  rw [Nat.add_zero, List.drop_zero] at hkey
  simp only [hkey, bind, Except.bind]
  by_cases h2 : 4 + beNat (data.take 4) > size
  · rw [if_pos h2, if_pos h2]
  rw [if_neg h2, if_neg h2, hcopy 4 _ (by omega)]
  dsimp only
  by_cases h3 : 4 + beNat (data.take 4) + 4 > size
  · rw [if_pos h3, if_pos h3]
  rw [if_neg h3, if_neg h3, hcopy _ 4 (by omega)]
  dsimp only
  set valLen := beNat ((data.drop (4 + beNat (data.take 4))).take 4)
  by_cases h4 : 4 + beNat (data.take 4) + 4 + valLen > size
  · rw [if_pos h4, if_pos h4]
  rw [if_neg h4, if_neg h4, hcopy _ _ (by omega)]
  dsimp only
  by_cases h5 : 4 + beNat (data.take 4) + 4 + valLen + 1 > size
  · rw [if_pos h5, List.getElem?_eq_none (by omega)]
  · obtain ⟨hb, hget⟩ := hbyte (4 + beNat (data.take 4) + 4 + valLen) (by omega)
    rw [if_neg h5, hb, hget]
    rfl

end

/-! ## The entry loop -/

/-- The bytes start with `n` entries. -/
def StartsWithEntries (n : Nat) (area : Bytes) : Prop :=
  ∃ es bs, es.length = n ∧ EncodesEntries es bs ∧ bs <+: area

theorem not_startsWithEntries {n : Nat} (hn : 0 < n) {area : Bytes} {f : Fault}
    (h : deserializeEntry area = .error f) : ¬ StartsWithEntries n area := by
  intro hstarts
  obtain ⟨es, bs, hlen, henc, hprefix⟩ := hstarts
  cases henc with
  | nil => exact absurd hn (by simp [← hlen])
  | cons head tail =>
    rw [deserializeEntry_of_encodes head ((List.prefix_append _ _).trans hprefix)] at h
    cases h

theorem startsWithEntries_succ {n k : Nat} {area : Bytes} {e : Entry}
    (h : deserializeEntry area = .ok (e, k)) :
    StartsWithEntries (n + 1) area ↔ StartsWithEntries n (area.drop k) := by
  obtain ⟨bs, he, ⟨rest, rfl⟩, rfl⟩ := deserializeEntry_ok_iff.1 h
  rw [List.drop_left]
  refine ⟨fun hstarts => ?_, fun hstarts => ?_⟩
  · obtain ⟨es, cs, hlen, henc, hprefix⟩ := hstarts
    cases henc with
    | nil => cases hlen
    | @cons e' es bs' area' head tail =>
      have hfirst := deserializeEntry_of_encodes head ((List.prefix_append _ _).trans hprefix)
      rw [h] at hfirst
      obtain ⟨-, hk⟩ := Prod.mk.inj (Except.ok.inj hfirst)
      -- both first entries have the same bytes
      have hbs : bs' = bs := by
        have hp := (List.prefix_append bs' area').trans hprefix
        rw [List.prefix_iff_eq_take] at hp
        rw [hp, ← hk, List.take_left]
      subst hbs
      rw [List.prefix_append_right_inj] at hprefix
      exact ⟨es, area', Nat.succ.inj hlen, tail, hprefix⟩
  · obtain ⟨es, cs, hlen, henc, hprefix⟩ := hstarts
    exact ⟨e :: es, bs ++ cs, by rw [List.length_cons, hlen], .cons he henc,
      (List.prefix_append_right_inj bs).2 hprefix⟩

theorem room_of_startsWithEntries {n : Nat} (hn : 0 < n) {file : Bytes}
    (h : StartsWithEntries n (file.take (file.length - 16))) : 16 < file.length := by
  by_contra hshort
  rw [(by omega : file.length - 16 = 0), List.take_zero] at h
  obtain ⟨f, hdes⟩ : ∃ f, deserializeEntry [] = .error f := ⟨_, rfl⟩
  exact not_startsWithEntries hn hdes h

theorem startsWithEntries_iff {n : Nat} {es : List Entry} {area : Bytes}
    (h : EncodesEntries es area) : StartsWithEntries n area ↔ n ≤ es.length := by
  induction h generalizing n with
  | nil =>
    cases n with
    | zero => exact ⟨fun _ => le_rfl, fun _ => ⟨[], [], rfl, .nil, List.nil_prefix⟩⟩
    | succ n =>
      have hdes : ∃ f, deserializeEntry [] = .error f := ⟨_, rfl⟩
      obtain ⟨f, hdes⟩ := hdes
      exact ⟨fun hstarts => absurd hstarts (not_startsWithEntries (Nat.succ_pos n) hdes),
        fun hle => absurd hle (Nat.not_succ_le_zero n)⟩
  | @cons e es bs area head tail ih =>
    cases n with
    | zero => exact ⟨fun _ => Nat.zero_le _, fun _ => ⟨[], [], rfl, .nil, List.nil_prefix⟩⟩
    | succ n =>
      have hdes := deserializeEntry_of_encodes head (List.prefix_append bs area)
      rw [startsWithEntries_succ hdes, List.drop_left, ih, List.length_cons, Nat.succ_le_succ_iff]

/-- **The entry loop** reads inside the buffer and ends; only its counter can overflow. -/
theorem readEntriesAt_eq {buffer : Bytes} {n offset i : Nat} {entries : List Entry}
    (hn : n ≤ buffer.length) (hoffset : offset ≤ n) (hi : i = entries.length) (hlt : i < 2 ^ 31) :
    (StartsWithEntries (2 ^ 31 - i) ((buffer.take n).drop offset) →
      readEntriesAt buffer n offset i entries = .error .signedOverflow) ∧
    (¬ StartsWithEntries (2 ^ 31 - i) ((buffer.take n).drop offset) →
      readEntriesAt buffer n offset i entries =
        (readEntries ((buffer.take n).drop offset)).map (entries ++ ·)) := by
  have hwindow : ∀ offset, offset < n → deserializeEntryAt buffer offset (n - offset) =
      deserializeEntry ((buffer.take n).drop offset) := by
    intro offset h
    rw [deserializeEntryAt_eq (by omega), List.drop_take]
  have hlen : ∀ offset, ((buffer.take n).drop offset).length = n - offset := by
    intro offset
    rw [List.length_drop, List.length_take]
    omega
  fun_induction readEntriesAt buffer n offset i entries with
  | case1 offset i entries hmore f hdes =>
    rw [hwindow offset hmore] at hdes
    have hnot := not_startsWithEntries (show 0 < 2 ^ 31 - i by omega) hdes
    refine ⟨fun h => absurd h hnot, fun _ => ?_⟩
    rw [readEntries_of_error (by rw [hlen]; omega) hdes]
    rfl
  | case2 offset i entries hmore e k hdes es hnone =>
    -- the entry just read is `entries[i]`
    rw [hi, List.getElem?_append_right le_rfl, Nat.sub_self] at hnone
    cases hnone
  | case3 offset i entries hmore e k hdes es x hx hover =>
    rw [hwindow offset hmore] at hdes
    have hone : 2 ^ 31 - i = 0 + 1 := by omega
    have hstarts : StartsWithEntries (2 ^ 31 - i) ((buffer.take n).drop offset) := by
      rw [hone, startsWithEntries_succ hdes]
      exact ⟨[], [], rfl, .nil, List.nil_prefix⟩
    exact ⟨fun _ => rfl, fun h => absurd hstarts h⟩
  | case4 offset i entries hmore e k hdes es x hx hover ih =>
    rw [hwindow offset hmore] at hdes
    have hk := deserializeEntry_length hdes
    rw [hlen] at hk
    have hdrop : ((buffer.take n).drop offset).drop k = (buffer.take n).drop (offset + k) := by
      rw [List.drop_drop]
    have hsucc : 2 ^ 31 - i = 2 ^ 31 - (i + 1) + 1 := by omega
    obtain ⟨ihover, ihread⟩ := ih (by omega) (by rw [List.length_append, hi]; rfl) (by omega)
    rw [hsucc, startsWithEntries_succ hdes, hdrop]
    refine ⟨ihover, fun h => ?_⟩
    rw [ihread h, readEntries_of_ok hdes, hdrop]
    cases readEntries ((buffer.take n).drop (offset + k)) with
    | error f => rfl
    | ok rest => simp [es, Except.map]
  | case5 offset i entries hmore =>
    have hnil : (buffer.take n).drop offset = [] := by
      apply List.eq_nil_of_length_eq_zero
      rw [hlen]
      omega
    have hdes : ∃ f, deserializeEntry [] = .error f := ⟨_, rfl⟩
    obtain ⟨f, hdes⟩ := hdes
    have hnot := not_startsWithEntries (show 0 < 2 ^ 31 - i by omega) hdes
    rw [hnil]
    refine ⟨fun h => absurd h hnot, fun _ => ?_⟩
    have hread : readEntries [] = .ok [] := readEntries_ok_iff.2 .nil
    rw [hread]
    exact congrArg Except.ok (List.append_nil entries).symm

/-! ## The reader -/

/-- **A file without room for the trailer and an entry** is read outside the buffer, or its first
entry is read where there is none. -/
theorem readBuffer_short {file : Bytes} (hne : file ≠ []) (hlen : file.length ≤ 16) :
    readBuffer file = .error .outOfBounds := by
  have hpos := List.length_pos_iff.2 hne
  rw [readBuffer, if_neg (by omega)]
  by_cases hshort : file.length < 16
  · -- the position of the timestamp has wrapped around
    have hwrap : file.length ≤ sizeSub (sizeSub file.length 8) 8 := by
      unfold sizeSub
      split
      · split <;> omega
      · split <;> omega
    rw [copyBytes_outside hwrap 7]
    rfl
  · have h16 : file.length = 16 := by omega
    have hloop : readEntriesAt file 0 0 0 [] = .ok [] := by
      rw [readEntriesAt, if_neg (by omega)]
    have htrailer : sizeSub (sizeSub file.length 8) 8 = 0 ∧ sizeSub file.length 8 = 8 := by
      rw [h16]
      exact ⟨rfl, rfl⟩
    rw [htrailer.1, htrailer.2, copyBytes_ok (by omega), copyBytes_ok (by omega)]
    simp only [bind, Except.bind, hloop]
    rfl

theorem readBuffer_long {file : Bytes} (hlen : 16 < file.length) :
    (StartsWithEntries (2 ^ 31) (file.take (file.length - 16)) →
      readBuffer file = .error .signedOverflow) ∧
    (¬ StartsWithEntries (2 ^ 31) (file.take (file.length - 16)) → readBuffer file = read file) := by
  have hsub : sizeSub (sizeSub file.length 8) 8 = file.length - 16 ∧
      sizeSub file.length 8 = file.length - 8 := by
    unfold sizeSub
    rw [if_pos (by omega : 8 ≤ file.length), if_pos (by omega : 8 ≤ file.length - 8)]
    omega
  have hloop := @readEntriesAt_eq file (file.length - 16) 0 0 [] (by omega) (by omega) rfl
    (by decide)
  rw [List.drop_zero, Nat.sub_zero] at hloop
  have hnum : (file.drop (file.length - 8)).take 8 = file.drop (file.length - 8) :=
    List.take_of_length_le (by rw [List.length_drop]; omega)
  rw [readBuffer, if_neg (by omega), hsub.1, hsub.2, copyBytes_ok (by omega), copyBytes_ok (by omega),
    hnum]
  refine ⟨fun h => ?_, fun h => ?_⟩
  · simp only [bind, Except.bind, hloop.1 h]
  · rw [read, if_neg (by omega), if_neg (by omega)]
    simp only [bind, Except.bind, hloop.2 h]
    cases readEntries (file.take (file.length - 16)) with
    | error f => rfl
    | ok es =>
      cases es with
      | nil => rfl
      | cons e es =>
        -- the last entry is the one in front of the end
        have hlast : (e :: es)[sizeSub (e :: es).length 1]? = some ((e :: es).getLast (by simp)) := by
          rw [sizeSub, if_pos (by simp), ← List.getLast?_eq_getElem?, List.getLast?_eq_getLast_of_ne_nil]
        have hkey : lastKey (e :: es) = ((e :: es).getLast (by simp)).key := by
          simp [lastKey, List.getLast?_eq_getLast_of_ne_nil]
        simp only [Except.map, List.nil_append, hlast, hkey]
        rfl

/-- As long as the counter does not overflow the reader gives the table that the file holds. -/
theorem readBuffer_eq_read {file : Bytes}
    (h : ¬ StartsWithEntries (2 ^ 31) (file.take (file.length - 16))) :
    readBuffer file = read file := by
  by_cases hlen : 16 < file.length
  · exact (readBuffer_long hlen).2 h
  · by_cases hnil : file = []
    · subst hnil
      rfl
    · have hpos := List.length_pos_iff.2 hnil
      rw [readBuffer_short hnil (by omega), read, if_neg (by omega)]
      by_cases hshort : file.length < 16
      · rw [if_pos hshort]
      · have hread : readEntries [] = .ok [] := readEntries_ok_iff.2 .nil
        rw [if_neg hshort]
        simp only [(by omega : file.length - 16 = 0), List.take_zero, hread]

/-- **What the reader accepts**: the files that look whole and whose entries can be counted. -/
theorem readBuffer_ok_iff {file : Bytes} {t : SSTable} :
    readBuffer file = .ok t ↔ LooksWhole file t ∧ t.m_entries.length < 2 ^ 31 := by
  have hcount : LooksWhole file t →
      (StartsWithEntries (2 ^ 31) (file.take (file.length - 16)) ↔ 2 ^ 31 ≤ t.m_entries.length) := by
    rintro ⟨es, area, timestamp, file_num, -, henc, rfl, rfl⟩
    have htake : (area ++ leBytes 8 timestamp.toNat ++ leBytes 8 file_num.toNat).take
        ((area ++ leBytes 8 timestamp.toNat ++ leBytes 8 file_num.toNat).length - 16) = area := by
      simp [List.append_assoc]
    rw [htake, startsWithEntries_iff henc, SSTable.ofEntries, (sortEntries_perm es).length_eq]
  by_cases hmany : StartsWithEntries (2 ^ 31) (file.take (file.length - 16))
  · refine ⟨fun h => ?_, fun h => absurd ((hcount h.1).1 hmany) (not_le.2 h.2)⟩
    rw [(readBuffer_long (room_of_startsWithEntries (by decide) hmany)).1 hmany] at h
    cases h
  · rw [readBuffer_eq_read hmany, read_ok_iff]
    exact ⟨fun h => ⟨h, not_le.1 fun hle => hmany ((hcount h).2 hle)⟩, And.left⟩

theorem readBuffer_thrown {file : Bytes} {f : Fault} (h : readBuffer file = .error f)
    (hroom : file = [] ∨ (16 < file.length ∧
      ¬ StartsWithEntries (2 ^ 31) (file.take (file.length - 16)))) : f.IsThrown := by
  obtain rfl | ⟨hlen, hfew⟩ := hroom
  · cases h
    exact ⟨_, rfl⟩
  · rw [(readBuffer_long hlen).2 hfew] at h
    exact read_thrown h (.inr hlen)

/-- **The reader gives back the table** whose sorted entries were encoded. -/
theorem readBuffer_encode {es : List Entry} (hne : es ≠ []) (hsort : SortedEntries es)
    (hes : ∀ e ∈ es, e.Small) (hlen : es.length < 2 ^ 31) (timestamp : TimestampType)
    (file_num : FileNumber) : readBuffer (SSTableWriter.encode es timestamp file_num) =
      .ok ⟨⟨file_num, timestamp, firstKey es, lastKey es⟩, es⟩ :=
  readBuffer_ok_iff.2
    ⟨(read_ok_iff _ _).1 (read_encode hne hsort hes timestamp file_num), hlen⟩

/-- Where there are too many entries to count, the counter overflows on them. -/
theorem readBuffer_encode_many {es : List Entry} (hes : ∀ e ∈ es, e.Small)
    (hlen : 2 ^ 31 ≤ es.length) (timestamp : TimestampType) (file_num : FileNumber) :
    readBuffer (SSTableWriter.encode es timestamp file_num) = .error .signedOverflow := by
  have henc := encodesEntries_flatMap hes
  have harea : (SSTableWriter.encode es timestamp file_num).take
      ((SSTableWriter.encode es timestamp file_num).length - 16) =
      es.flatMap SSTableWriter.serializeEntry := by
    simp [SSTableWriter.encode, List.append_assoc]
  have hstarts := (startsWithEntries_iff henc).2 hlen
  rw [← harea] at hstarts
  exact (readBuffer_long (room_of_startsWithEntries (by decide) hstarts)).1 hstarts

/-- **The reader keeps to its bounds**, and returns a table that is not empty or throws, iff the file
has room for more than the trailer and fewer than `2 ^ 31` entries at its front. -/
theorem readBuffer_safe_iff {file : Bytes} (hne : file ≠ []) :
    ((∃ t, readBuffer file = .ok t ∧ t.m_entries ≠ []) ∨
      ∃ f, readBuffer file = .error f ∧ f.IsThrown) ↔
    16 < file.length ∧ ¬ StartsWithEntries (2 ^ 31) (file.take (file.length - 16)) := by
  refine ⟨fun h => ?_, fun hroom => ?_⟩
  · have hfault : ∀ f, readBuffer file = .error f → f.IsThrown := by
      intro f hf
      obtain ⟨t, ht, -⟩ | ⟨f', hf', hthrown⟩ := h
      · rw [hf] at ht
        cases ht
      · rw [hf] at hf'
        cases hf'
        exact hthrown
    have hlen : 16 < file.length := by
      by_contra hshort
      obtain ⟨what, hwhat⟩ := hfault _ (readBuffer_short hne (not_lt.1 hshort))
      cases hwhat
    refine ⟨hlen, fun hmany => ?_⟩
    obtain ⟨what, hwhat⟩ := hfault _ ((readBuffer_long hlen).1 hmany)
    cases hwhat
  · obtain ⟨hlen, hfew⟩ := hroom
    rw [(readBuffer_long hlen).2 hfew]
    cases hread : read file with
    | error f => exact .inr ⟨f, rfl, read_thrown hread (.inr hlen)⟩
    | ok t =>
      obtain ⟨es, area, timestamp, file_num, hne', -, -, rfl⟩ := (read_ok_iff file t).1 hread
      refine .inl ⟨_, rfl, fun hnil => hne' ?_⟩
      exact ((List.perm_insertionSort _ es).symm.trans (.of_eq hnil)).eq_nil

/-- A table of one entry. -/
theorem readBuffer_safe_iff_one :
    let file := SSTableWriter.encode [⟨"a", "1", false⟩] 7 1
    (∃ t, readBuffer file = .ok t ∧ t.m_entries ≠ []) ∨
      ∃ f, readBuffer file = .error f ∧ f.IsThrown := by
  intro file
  have hfirst : deserializeEntry (file.take (file.length - 16)) = .ok (⟨"a", "1", false⟩, 11) := by rfl
  have hrest : ∃ f, deserializeEntry ((file.take (file.length - 16)).drop 11) = .error f := ⟨_, rfl⟩
  obtain ⟨f, hrest⟩ := hrest
  refine (readBuffer_safe_iff (by decide)).2 ⟨by decide, ?_⟩
  have hsucc : 2 ^ 31 = 2 ^ 31 - 1 + 1 := by decide
  rw [hsucc, startsWithEntries_succ hfirst]
  exact not_startsWithEntries (by decide) hrest

/-- One byte is no exception and no table. -/
theorem readBuffer_one_byte :
    readBuffer [0] = .error .outOfBounds ∧
      ¬ ((∃ t, readBuffer [0] = .ok t ∧ t.m_entries ≠ []) ∨
        ∃ f, readBuffer [0] = .error f ∧ f.IsThrown) := by
  have hrun := @readBuffer_short [0] (by decide) (by decide)
  refine ⟨hrun, ?_⟩
  rintro (⟨t, ht, -⟩ | ⟨f, hf, what, rfl⟩)
  · rw [hrun] at ht
    cases ht
  · rw [hrun] at hf
    cases hf

end TinyKv.SSTableReader
