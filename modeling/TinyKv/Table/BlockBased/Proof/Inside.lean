import TinyKv.Table.BlockBased.Proof.Accept

/-!
# Where a block lookup reads

`readEntryFromDataBlock` compares the bytes it has read with the size of the block only where it has
found nothing: a hit is returned from wherever the counts and lengths of the file have led to. So the
entry that `get` returns lies inside its block iff the records up to it do (`get_inside_iff`).

* `scanEntries_some_iff`: which bytes the loop takes for a hit.
-/

namespace TinyKv

open Bytes BlockBasedTableFormat FileReader

namespace BlockBasedTableReader

/-! ## Records -/

/-- The bytes of a record; any byte but zero marks a tombstone. -/
def EncodesRecord (e : Entry) (bs : Bytes) : Prop :=
  ∃ b : UInt8, bs = encString e.key ++ (encString e.val ++ [b]) ∧ e.key.length < 2 ^ 32 ∧
    e.val.length < 2 ^ 32 ∧ e.tombstone = decide (b ≠ 0)

/-- The bytes of consecutive records. -/
inductive EncodesRecords : List Entry → Bytes → Prop
  | nil : EncodesRecords [] []
  | cons {e : Entry} {es : List Entry} {bs rest : Bytes} (head : EncodesRecord e bs)
      (tail : EncodesRecords es rest) : EncodesRecords (e :: es) (bs ++ rest)

/-- The reads that the loop of `readEntryFromDataBlock` makes in one round. -/
def readRecord (fullPath : TablePath) : IStream Entry := do
  let entryKey ← readString
  let entryVal ← readString
  let tombstoneByte ← read 1 (about "failed to read tombstone byte" fullPath)
  return ⟨entryKey, entryVal, tombstoneByte ≠ [0]⟩

theorem parses_readRecord (path : TablePath) :
    Parses Fault.IsThrown (readRecord path) EncodesRecord := by
  refine (parses_readString.bind fun key => parses_readString.bind fun val =>
    (parses_read 1 _).bind_pure).congr fun e bs => ?_
  refine ⟨fun henc => ?_, fun henc => ?_⟩
  · obtain ⟨key, _, _, ⟨rfl, hkey⟩, ⟨val, _, _, ⟨rfl, hval⟩, ⟨tb, ⟨rfl, hone⟩, rfl⟩, rfl⟩, rfl⟩ :=
      henc
    obtain ⟨b, rfl⟩ := List.length_eq_one_iff.1 hone
    exact ⟨b, rfl, hkey, hval, by simp⟩
  · obtain ⟨b, rfl, hkey, hval, htomb⟩ := henc
    obtain ⟨key, val, tombstone⟩ := e
    refine ⟨key, _, _, ⟨rfl, hkey⟩, ⟨val, _, _, ⟨rfl, hval⟩, ⟨[b], ⟨rfl, rfl⟩, ?_⟩, rfl⟩, rfl⟩
    dsimp only at htomb
    rw [htomb]
    simp

theorem scanEntries_succ (key : Bytes) (path : TablePath) (n : Nat) (file : Bytes) (pos : Nat) :
    scanEntries key path (n + 1) file pos = match readRecord path file pos with
      | .error f => .error f
      | .ok (e, pos) =>
        if e.key = key then .ok (some e, pos)
        else if key < e.key then .ok (none, pos)
        else scanEntries key path n file pos := by
  simp only [scanEntries, readRecord, run_bind]
  cases readString .all file pos with
  | error f => rfl
  | ok x =>
    obtain ⟨entryKey, pos⟩ := x
    dsimp only
    cases readString .all file pos with
    | error f => rfl
    | ok x =>
      obtain ⟨entryVal, pos⟩ := x
      dsimp only
      cases read 1 (about "failed to read tombstone byte" path) file pos with
      | error f => rfl
      | ok x =>
        obtain ⟨tombstoneByte, pos⟩ := x
        dsimp only
        by_cases heq : entryKey = key
        · rw [if_pos heq]
          exact (if_pos heq).symm
        · by_cases hlt : key < entryKey
          · rw [if_neg heq, if_pos hlt]
            exact ((if_neg heq).trans (if_pos hlt)).symm
          · rw [if_neg heq, if_neg hlt]
            exact ((if_neg heq).trans (if_neg hlt)).symm

/-! ## The scan -/

/-- The bytes of records that lead a scan of `n` records to the entry `e` for its key: fewer than `n`
with smaller keys, and then `e`. -/
def LeadsTo (n : Nat) (e : Entry) (bs : Bytes) : Prop :=
  ∃ pre skipped record, pre.length < n ∧ (∀ x ∈ pre, x.key < e.key) ∧
    EncodesRecords pre skipped ∧ EncodesRecord e record ∧ bs = skipped ++ record

theorem leadsTo_zero {e : Entry} {bs : Bytes} : ¬ LeadsTo 0 e bs := by
  intro h
  obtain ⟨pre, -, -, hlen, -⟩ := h
  exact Nat.not_lt_zero _ hlen

theorem leadsTo_succ {n : Nat} {e : Entry} {bs : Bytes} :
    LeadsTo (n + 1) e bs ↔ EncodesRecord e bs ∨
      ∃ x first rest, EncodesRecord x first ∧ x.key < e.key ∧ LeadsTo n e rest ∧
        bs = first ++ rest := by
  refine ⟨fun h => ?_, fun h => ?_⟩
  · obtain ⟨pre, skipped, record, hlen, hsmall, hskip, hrec, rfl⟩ := h
    cases hskip with
    | nil => exact .inl hrec
    | @cons x pre first rest hfirst hrest =>
      refine .inr ⟨x, first, rest ++ record, hfirst, hsmall x List.mem_cons_self, ?_,
        List.append_assoc ..⟩
      exact ⟨pre, rest, record, Nat.lt_of_succ_lt_succ hlen,
        fun y hy => hsmall y (List.mem_cons_of_mem _ hy), hrest, hrec, rfl⟩
  · rcases h with hrec | ⟨x, first, rest, hfirst, hlt, hleads, rfl⟩
    · exact ⟨[], [], bs, Nat.succ_pos n, List.forall_mem_nil _, .nil, hrec, rfl⟩
    · obtain ⟨pre, skipped, record, hlen, hsmall, hskip, hrec, rfl⟩ := hleads
      exact ⟨x :: pre, first ++ skipped, record, Nat.succ_lt_succ hlen,
        List.forall_mem_cons.2 ⟨hlt, hsmall⟩, .cons hfirst hskip, hrec,
        (List.append_assoc ..).symm⟩

/-- **A hit of the loop**: the records from the position on lead to the entry. -/
theorem scanEntries_some_iff {key : Bytes} {path : TablePath} {n : Nat} {file : Bytes} {pos : Nat}
    {e : Entry} {stop : Nat} :
    scanEntries key path n file pos = .ok (some e, stop) ↔
      e.key = key ∧ ∃ bs, LeadsTo n e bs ∧ bs <+: file.drop pos ∧ stop = pos + bs.length := by
  induction n generalizing pos with
  | zero =>
    refine ⟨fun h => ?_, fun h => ?_⟩
    · cases h
    · obtain ⟨-, bs, hleads, -⟩ := h
      exact absurd hleads leadsTo_zero
  | succ n ih =>
    rw [scanEntries_succ]
    refine ⟨fun h => ?_, fun h => ?_⟩
    · split at h
      · cases h
      · rename_i x mid hread
        obtain ⟨first, hfirst, hp, rfl⟩ := ((parses_readRecord path).ok_iff ..).1 hread
        split at h
        · rename_i hkey
          cases h
          exact ⟨hkey, first, leadsTo_succ.2 (.inl hfirst), hp, rfl⟩
        · rename_i hkey
          split at h
          · cases h
          · rename_i hlt
            obtain ⟨rfl, bs, hleads, hp', rfl⟩ := ih.1 h
            have hsmall : x.key < e.key := lt_of_le_of_ne (not_lt.1 hlt) hkey
            exact ⟨rfl, first ++ bs, leadsTo_succ.2 (.inr ⟨x, first, bs, hfirst, hsmall, hleads, rfl⟩),
              append_prefix_drop.2 ⟨hp, hp'⟩, by rw [List.length_append, Nat.add_assoc]⟩
    · obtain ⟨rfl, bs, hleads, hp, rfl⟩ := h
      rcases leadsTo_succ.1 hleads with hrec | ⟨x, first, rest, hfirst, hlt, htail, rfl⟩
      · rw [((parses_readRecord path).ok_iff ..).2 ⟨bs, hrec, hp, rfl⟩]
        exact if_pos rfl
      · obtain ⟨hp, hp'⟩ := append_prefix_drop.1 hp
        rw [((parses_readRecord path).ok_iff ..).2 ⟨first, hfirst, hp, rfl⟩]
        dsimp only
        have hnot : ¬ e.key < x.key := hlt.not_gt
        rw [if_neg hlt.ne, if_neg hnot]
        exact ih.2 ⟨rfl, rest, htail, hp', by rw [List.length_append, Nat.add_assoc]⟩

theorem scanEntries_thrown {key : Bytes} {path : TablePath} {n : Nat} {file : Bytes} {pos : Nat}
    {f : Fault} (h : scanEntries key path n file pos = .error f) : f.IsThrown := by
  induction n generalizing pos with
  | zero => cases h
  | succ n ih =>
    rw [scanEntries_succ] at h
    split at h
    · rename_i f' hread
      cases h
      exact (parses_readRecord path).bad _ _ _ hread
    · split at h
      · cases h
      · split at h
        · cases h
        · exact ih h

/-! ## The block -/

/-- The bytes of a block up to the entry `e`: the count, and records that lead to it. -/
def BlockLeadsTo (e : Entry) (bs : Bytes) : Prop :=
  ∃ (numEntries : UInt32) (records : Bytes), LeadsTo numEntries.toNat e records ∧
    bs = beBytes 4 numEntries.toNat ++ records

section

variable {handle : BlockHandle} {key : Bytes} {path : TablePath} {file : Bytes} {pos : Nat}

theorem readEntryFromDataBlock_run (handle : BlockHandle) (key : Bytes) (path : TablePath)
    (file : Bytes) (pos : Nat) : readEntryFromDataBlock handle key path file pos =
      if handle.offset.toNat < 2 ^ 63 then
        match readUint32BigEndian file handle.offset.toNat with
        | .error f => .error f
        | .ok (numEntries, pos) =>
          match scanEntries key path numEntries.toNat file pos with
          | .error f => .error f
          | .ok (some e, stop) => .ok (some e, stop)
          | .ok (none, stop) =>
            if UInt64.ofNat (stop - handle.offset.toNat) > handle.size then
              .error (.runtimeError (about "read past data block" path))
            else .ok (none, stop)
      else .error (.runtimeError (about "failed to seek data block" path)) := by
  simp only [readEntryFromDataBlock, run_bind, seekg, tellg]
  by_cases hs : handle.offset.toNat < 2 ^ 63
  · simp only [if_pos hs]
    cases readUint32BigEndian file handle.offset.toNat with
    | error f => rfl
    | ok x =>
      obtain ⟨numEntries, pos⟩ := x
      dsimp only
      cases scanEntries key path numEntries.toNat file pos with
      | error f => rfl
      | ok x =>
        obtain ⟨found, stop⟩ := x
        cases found with
        | some e => rfl
        | none =>
          by_cases hpast : UInt64.ofNat (stop - handle.offset.toNat) > handle.size
          · simp only [run_bind, tellg, if_pos hpast, fail]
          · simp only [run_bind, tellg, if_neg hpast]
            rfl
  · simp only [if_neg hs]

/-- **A hit in a block**, with the position behind its last byte. -/
theorem readEntryFromDataBlock_some_iff {e : Entry} {stop : Nat} :
    readEntryFromDataBlock handle key path file pos = .ok (some e, stop) ↔
      e.key = key ∧ handle.offset.toNat < 2 ^ 63 ∧ ∃ bs, BlockLeadsTo e bs ∧
        bs <+: file.drop handle.offset.toNat ∧ stop = handle.offset.toNat + bs.length := by
  rw [readEntryFromDataBlock_run]
  refine ⟨fun h => ?_, fun h => ?_⟩
  · split at h
    · rename_i hs
      split at h
      · cases h
      · rename_i numEntries start hcount
        obtain ⟨_, rfl, hp, rfl⟩ := (parses_readUint32.ok_iff ..).1 hcount
        split at h
        · cases h
        · rename_i e' stop' hscan
          cases h
          obtain ⟨hkey, records, hleads, hp', rfl⟩ := scanEntries_some_iff.1 hscan
          exact ⟨hkey, hs, _, ⟨numEntries, records, hleads, rfl⟩, append_prefix_drop.2 ⟨hp, hp'⟩,
            by rw [List.length_append, Nat.add_assoc]⟩
        · split at h <;> cases h
    · cases h
  · obtain ⟨hkey, hs, _, ⟨numEntries, records, hleads, rfl⟩, hp, rfl⟩ := h
    obtain ⟨hp, hp'⟩ := append_prefix_drop.1 hp
    rw [if_pos hs, (parses_readUint32.ok_iff ..).2 ⟨_, rfl, hp, rfl⟩]
    dsimp only
    rw [scanEntries_some_iff.2 ⟨hkey, records, hleads, hp', rfl⟩, List.length_append, Nat.add_assoc]

theorem readEntryFromDataBlock_thrown {f : Fault}
    (h : readEntryFromDataBlock handle key path file pos = .error f) : f.IsThrown := by
  rw [readEntryFromDataBlock_run] at h
  split at h
  · split at h
    · rename_i f' hcount
      cases h
      exact parses_readUint32.bad _ _ _ hcount
    · split at h
      · rename_i f' hscan
        cases h
        exact scanEntries_thrown hscan
      · cases h
      · split at h
        · cases h
          exact ⟨_, rfl⟩
        · cases h
  · cases h
    exact ⟨_, rfl⟩

end

/-! ## The reader -/

/-- What a lookup should do: an entry that it returns has all of its bytes in the block that the index
has chosen, and it fails in no other way than by an exception. -/
structure StaysInside (r : BlockBasedTableReader) (file : Bytes) (path : TablePath) (key : Bytes) :
    Prop where
  inside : ∀ e, r.get (some file) key = .ok (some e) → ∃ ie record stop,
    r.m_index[r.lowerBound key]? = some ie ∧
    readEntryFromDataBlock ie.block key path file 0 = .ok (some e, stop) ∧
    EncodesRecord e record ∧ record <+: file.drop (stop - record.length) ∧
    ie.block.offset.toNat + record.length ≤ stop ∧
    stop ≤ ie.block.offset.toNat + ie.block.size.toNat
  thrown : ∀ f, r.get (some file) key = .error f → f.IsThrown

/-- In the block that the index chooses for the key, the count and the records up to the first one
with the key are no longer than the block. -/
def HitFits (r : BlockBasedTableReader) (file key : Bytes) : Prop :=
  r.withinRange key = true → ∀ ie, r.m_index[r.lowerBound key]? = some ie →
    ie.block.offset.toNat < 2 ^ 63 → ∀ e bs, e.key = key → BlockLeadsTo e bs →
      bs <+: file.drop ie.block.offset.toNat → bs.length ≤ ie.block.size.toNat

/-- A lookup that finds something, in the block it looks into. -/
theorem get_some_iff {r : BlockBasedTableReader} {file key : Bytes} {e : Entry} :
    r.get (some file) key = .ok (some e) ↔
      r.withinRange key = true ∧ ∃ ie stop, r.m_index[r.lowerBound key]? = some ie ∧
        readEntryFromDataBlock ie.block key r.m_fullPath file 0 = .ok (some e, stop) := by
  unfold get
  by_cases hrange : r.withinRange key = true
  · rw [hrange, Bool.not_true, if_neg Bool.false_ne_true]
    cases r.m_index[r.lowerBound key]? with
    | none => simp
    | some ie =>
      dsimp only
      cases hread : readEntryFromDataBlock ie.block key r.m_fullPath file 0 with
      | error f => simp [Except.map, hread]
      | ok x =>
        obtain ⟨found, stop⟩ := x
        simp [Except.map, hread]
  · rw [Bool.not_eq_true] at hrange
    simp [hrange]

theorem get_thrown {r : BlockBasedTableReader} {file key : Bytes} {f : Fault}
    (h : r.get (some file) key = .error f) : f.IsThrown := by
  unfold get at h
  split at h
  · cases h
  · split at h
    · cases h
    · rename_i ie _
      dsimp only at h
      cases hread : readEntryFromDataBlock ie.block key r.m_fullPath file 0 with
      | error f' =>
        rw [hread] at h
        cases h
        exact readEntryFromDataBlock_thrown hread
      | ok x =>
        rw [hread] at h
        cases h

theorem BlockLeadsTo.record {e : Entry} {bs : Bytes} (h : BlockLeadsTo e bs) :
    ∃ front record, EncodesRecord e record ∧ bs = front ++ record := by
  obtain ⟨n, _, ⟨pre, skipped, record, -, -, -, hrec, rfl⟩, rfl⟩ := h
  exact ⟨_, record, hrec, (List.append_assoc ..).symm⟩

/-- **A block lookup stays inside its block** iff the records that lead to its hit do. -/
theorem get_inside_iff {file : Bytes} {path : TablePath} {r : BlockBasedTableReader}
    (h : construct file path = .ok r) (key : Bytes) :
    StaysInside r file path key ↔ HitFits r file key := by
  obtain ⟨rfl, -⟩ := (construct_iff ..).1 h
  refine ⟨fun hinside hrange ie hie hs e bs hkey hleads hp => ?_, fun hfits => ?_⟩
  · have hread : readEntryFromDataBlock ie.block key r.m_fullPath file 0 =
        .ok (some e, ie.block.offset.toNat + bs.length) :=
      readEntryFromDataBlock_some_iff.2 ⟨hkey, hs, bs, hleads, hp, rfl⟩
    obtain ⟨ie', record, stop, hie', hread', -, -, -, hstop⟩ :=
      hinside.inside e (get_some_iff.2 ⟨hrange, ie, _, hie, hread⟩)
    obtain rfl : ie = ie' := Option.some_inj.1 (hie.symm.trans hie')
    obtain ⟨-, rfl⟩ := Prod.mk.inj (Except.ok.inj (hread.symm.trans hread'))
    exact Nat.le_of_add_le_add_left hstop
  · refine ⟨fun e hget => ?_, fun f hf => get_thrown hf⟩
    obtain ⟨hrange, ie, stop, hie, hread⟩ := get_some_iff.1 hget
    obtain ⟨hkey, hs, bs, hleads, hp, rfl⟩ := readEntryFromDataBlock_some_iff.1 hread
    have hle := hfits hrange ie hie hs e bs hkey hleads hp
    obtain ⟨front, record, hrec, rfl⟩ := hleads.record
    refine ⟨ie, record, _, hie, hread, hrec, ?_, ?_, Nat.add_le_add_left hle _⟩
    · have hback : ie.block.offset.toNat + (front ++ record).length - record.length =
          ie.block.offset.toNat + front.length := by
        rw [List.length_append]
        omega
      rw [hback]
      exact (append_prefix_drop.1 hp).2
    · rw [List.length_append]
      omega

/-- The file of a table with the entry `a = 1`, an index that gives its block this size, and a filter
without bits. -/
def oneEntryFile (size : UInt64) : Bytes :=
  encBlock [⟨"a", "1", false⟩] ++ encMetadata ⟨0, 0, "a", "a"⟩ ++ encIndex [⟨"a", ⟨0, size⟩⟩] ++
    (beBytes 4 0 ++ beBytes 4 0 ++ beBytes 4 0) ++ encFooter ⟨⟨15, 26⟩, ⟨41, 25⟩, ⟨66, 12⟩⟩

/-- The reader of that file. -/
def oneEntryReader (size : UInt64) : BlockBasedTableReader where
  m_fullPath := ⟨"d", "level-0", "t"⟩
  m_footer := ⟨⟨15, 26⟩, ⟨41, 25⟩, ⟨66, 12⟩⟩
  m_meta := ⟨0, 0, "a", "a"⟩
  m_index := [⟨"a", ⟨0, size⟩⟩]
  m_filter := ⟨0, 0, []⟩

/-- A block of its fifteen bytes. -/
theorem get_inside_iff_one :
    construct (oneEntryFile 15) ⟨"d", "level-0", "t"⟩ = .ok (oneEntryReader 15) ∧
      HitFits (oneEntryReader 15) (oneEntryFile 15) "a" := by
  have hopen : construct (oneEntryFile 15) ⟨"d", "level-0", "t"⟩ = .ok (oneEntryReader 15) := by
    decide +kernel
  have hget : (oneEntryReader 15).get (some (oneEntryFile 15)) "a" = .ok (some ⟨"a", "1", false⟩) := by
    decide +kernel
  refine ⟨hopen, (get_inside_iff hopen "a").1 ⟨fun e he => ?_, fun f hf => ?_⟩⟩
  · rw [hget] at he
    cases he
    exact ⟨⟨"a", ⟨0, 15⟩⟩, encEntry ⟨"a", "1", false⟩, 15, by decide +kernel, by decide +kernel,
      ⟨0, by decide +kernel, by decide, by decide, by decide⟩, by decide +kernel, by decide +kernel,
      by decide +kernel⟩
  · rw [hget] at hf
    cases hf

/-- **A lookup that leaves its block**: the index says four bytes, and the entry behind them is
returned. -/
theorem get_leaves_block :
    construct (oneEntryFile 4) ⟨"d", "level-0", "t"⟩ = .ok (oneEntryReader 4) ∧
      (oneEntryReader 4).get (some (oneEntryFile 4)) "a" = .ok (some ⟨"a", "1", false⟩) ∧
      ¬ StaysInside (oneEntryReader 4) (oneEntryFile 4) ⟨"d", "level-0", "t"⟩ "a" := by
  have hget : (oneEntryReader 4).get (some (oneEntryFile 4)) "a" = .ok (some ⟨"a", "1", false⟩) := by
    decide +kernel
  refine ⟨by decide +kernel, hget, fun h => ?_⟩
  obtain ⟨ie, record, stop, hie, hread, -, -, -, hstop⟩ := h.inside _ hget
  have hie' : (oneEntryReader 4).m_index[(oneEntryReader 4).lowerBound "a"]? =
      some ⟨"a", ⟨0, 4⟩⟩ := by decide +kernel
  obtain rfl := Option.some_inj.1 (hie'.symm.trans hie)
  have hread' : readEntryFromDataBlock ⟨0, 4⟩ "a" ⟨"d", "level-0", "t"⟩ (oneEntryFile 4) 0 =
      .ok (some ⟨"a", "1", false⟩, 15) := by decide +kernel
  obtain ⟨-, rfl⟩ := Prod.mk.inj (Except.ok.inj (hread'.symm.trans hread))
  exact absurd hstop (by decide)

end BlockBasedTableReader

end TinyKv
