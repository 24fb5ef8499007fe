import TinyKv.Table.BlockBased.Reader
import TinyKv.Table.BlockBased.Proof.Layout

/-!
# A block-based table answers what was written

On a file shorter than `2 ^ 63` bytes that `writeTable` wrote (`encodeTable`), the constructor of
`BlockBasedTableReader` succeeds (`construct_encodeTable`) and `get` is the lookup in the entries
(`get_encodeTable`), with the values of tombstones emptied.

The readers are followed segment by segment (`At`). For `get`: the index search ends on the first
block whose last key is not below the key (`lowerBound_spec`), no other block can hold the key
(`lookup_blocks`), and the scan of a sorted block may stop at the first larger key
(`scanEntries_at`).
-/

namespace TinyKv

open Bytes BlockBasedTableFormat

namespace BlockBasedTableReader

/-! ## Streams -/

theorem bind_run {α β : Type} (x : IStream α) (f : α → IStream β) (file : Bytes) (pos : Nat) :
    (x >>= f) file pos = match x file pos with
      | .ok (a, pos) => f a file pos
      | .error e => .error e := by
  show Except.bind (x file pos) _ = _
  cases x file pos <;> rfl

theorem pure_run {α : Type} (a : α) (file : Bytes) (pos : Nat) :
    (pure a : IStream α) file pos = .ok (a, pos) := rfl

theorem tellg_run (file : Bytes) (pos : Nat) : tellg file pos = .ok (pos, pos) := rfl

theorem read_at {file seg : Bytes} {pos : Nat} (h : At file pos seg) (what : Bytes) :
    read seg.length what file pos = .ok (seg, pos + seg.length) := by
  have hle := h.le
  rw [read, if_pos (by omega), h.take]

theorem readUint64_at {file : Bytes} {pos : Nat} {x : UInt64} (h : At file pos (beBytes 8 x.toNat)) :
    readUint64BigEndian file pos = .ok (x, pos + 8) := by
  have hr := read_at h "failed to read uint64"
  rw [length_beBytes] at hr
  simp only [readUint64BigEndian, bind_run, hr, pure_run, ofNat_beNat_beBytes_uint64]

theorem readUint32_at {file : Bytes} {pos : Nat} {x : UInt32} (h : At file pos (beBytes 4 x.toNat)) :
    readUint32BigEndian file pos = .ok (x, pos + 4) := by
  have hr := read_at h "failed to read uint32"
  rw [length_beBytes] at hr
  simp only [readUint32BigEndian, bind_run, hr, pure_run, ofNat_beNat_beBytes_uint32]

theorem readCount_at {file : Bytes} {pos n : Nat} (hn : n < 2 ^ 32) (h : At file pos (beBytes 4 n)) :
    readUint32BigEndian file pos = .ok (UInt32.ofNat n, pos + 4) :=
  readUint32_at (by rwa [toNat_ofNat_uint32 hn])

theorem readString_at {file s : Bytes} {pos : Nat} (hs : s.length < 2 ^ 32)
    (h : At file pos (encString s)) : readString .all file pos = .ok (s, pos + (encString s).length) := by
  obtain ⟨h1, h2⟩ := at_append.1 h
  rw [length_beBytes] at h2
  simp only [readString, bind_run, readCount_at hs h1, allocate_all, toNat_ofNat_uint32 hs]
  rw [read_at h2, length_encString, Nat.add_assoc]

theorem readHandle_at {file : Bytes} {pos : Nat} {hd : BlockHandle} (h : At file pos (encHandle hd)) :
    readBlockHandle file pos = .ok (hd, pos + (encHandle hd).length) := by
  obtain ⟨h1, h2⟩ := at_append.1 h
  rw [length_beBytes] at h2
  simp only [readBlockHandle, bind_run, readUint64_at h1, readUint64_at h2, pure_run,
    length_encHandle, Nat.add_assoc]

/-! ## The blocks behind the data -/

theorem readBlock_at {α : Type} {name : String} {path : TablePath} {body : IStream α} {file : Bytes}
    {off n pos : Nat} {a : α} (hoff : off < 2 ^ 63) (hn0 : 0 < n) (hn : n < 2 ^ 64)
    (hbody : body file off = .ok (a, off + n)) :
    readBlock name ⟨UInt64.ofNat off, UInt64.ofNat n⟩ path body file pos = .ok (a, off + n) := by
  have hoff' : (UInt64.ofNat off).toNat = off := toNat_ofNat_uint64 (by omega)
  have hsize : ¬ (UInt64.ofNat off = 0 ∧ UInt64.ofNat n = 0) := by
    rintro ⟨-, h⟩
    have := congrArg UInt64.toNat h
    rw [toNat_ofNat_uint64 hn] at this
    exact absurd this (by simp; omega)
  simp only [readBlock, bind_run, if_neg hsize, seekg, hoff', if_pos hoff, tellg_run, hbody,
    Nat.add_sub_cancel_left, ne_eq, not_true_eq_false, ↓reduceIte]
  rfl

theorem readIndexEntries_at {index : List IndexEntry} (hs : ∀ ie ∈ index, ie.last_key.length < 2 ^ 32)
    {file : Bytes} : ∀ {pos : Nat}, At file pos (index.flatMap encIndexEntry) →
      readIndexEntries index.length .all file pos =
        .ok (index, pos + (index.flatMap encIndexEntry).length) := by
  induction index with
  | nil => exact fun _ => rfl
  | cons ie index ih =>
    intro pos h
    rw [List.flatMap_cons, encIndexEntry] at h
    obtain ⟨h1, h3⟩ := at_append.1 h
    obtain ⟨h1, h2⟩ := at_append.1 h1
    have hs' : ∀ x ∈ index, x.last_key.length < 2 ^ 32 :=
      fun x hx => hs x (List.mem_cons_of_mem _ hx)
    rw [List.length_append, ← Nat.add_assoc] at h3
    simp only [List.length_cons, readIndexEntries, bind_run,
      readString_at (hs ie List.mem_cons_self) h1, readHandle_at h2, ih hs' h3, pure_run]
    simp only [List.flatMap_cons, encIndexEntry, List.length_append, Nat.add_assoc]

theorem readIndexBlock_at {index : List IndexEntry} (hs : ∀ ie ∈ index, ie.last_key.length < 2 ^ 32)
    (hl : index.length < 2 ^ 32) {file : Bytes} {off : Nat} (hoff : off < 2 ^ 63)
    (hn : (encIndex index).length < 2 ^ 64) (h : At file off (encIndex index)) (path : TablePath)
    (pos : Nat) :
    readIndexBlock ⟨UInt64.ofNat off, UInt64.ofNat (encIndex index).length⟩ path .all file pos =
      .ok (index, off + (encIndex index).length) := by
  apply readBlock_at hoff (by simp [encIndex]) hn
  obtain ⟨h1, h2⟩ := at_append.1 h
  rw [length_beBytes] at h2
  simp only [bind_run, readCount_at hl h1, toNat_ofNat_uint32 hl, allocate_all, readIndexEntries_at hs h2]
  simp only [encIndex, List.length_append, length_beBytes, Nat.add_assoc]

theorem readMetadataBlock_at {m : SSTableMetadata} (h1 : m.m_min_key.length < 2 ^ 32)
    (h2 : m.m_max_key.length < 2 ^ 32) {file : Bytes} {off : Nat} (hoff : off < 2 ^ 63)
    (hn : (encMetadata m).length < 2 ^ 64) (h : At file off (encMetadata m)) (path : TablePath)
    (pos : Nat) :
    readMetadataBlock ⟨UInt64.ofNat off, UInt64.ofNat (encMetadata m).length⟩ path .all file pos =
      .ok (m, off + (encMetadata m).length) := by
  apply readBlock_at hoff (by simp [encMetadata]) hn
  obtain ⟨h, hmax⟩ := at_append.1 h
  obtain ⟨h, hmin⟩ := at_append.1 h
  obtain ⟨hnum, hts⟩ := at_append.1 h
  simp only [List.length_append, length_beBytes, ← Nat.add_assoc] at hts hmin hmax
  simp only [bind_run, readUint64_at hnum, readUint64_at hts, readString_at h1 hmin,
    readString_at h2 hmax, pure_run]
  simp only [encMetadata, List.length_append, length_beBytes, Nat.add_assoc]

theorem readFilterBlock_at {bitset : Bytes} (hl : bitset.length < 2 ^ 32) {file : Bytes}
    {off : Nat} (hoff : off < 2 ^ 63) (hn : (encFilter bitset).length < 2 ^ 64)
    (h : At file off (encFilter bitset)) (path : TablePath) (pos : Nat) :
    readFilterBlock ⟨UInt64.ofNat off, UInt64.ofNat (encFilter bitset).length⟩ path .all file pos =
      .ok (⟨FILTER_NUM_BITS, FILTER_NUM_HASHES, bitset⟩, off + (encFilter bitset).length) := by
  apply readBlock_at hoff (by simp [encFilter]) hn
  obtain ⟨h, hbits⟩ := at_append.1 h
  obtain ⟨h, hsize⟩ := at_append.1 h
  obtain ⟨hnum, hhash⟩ := at_append.1 h
  simp only [List.length_append, length_beBytes, ← Nat.add_assoc] at hhash hsize hbits
  simp only [bind_run, readUint32_at hnum, readUint32_at hhash, readCount_at hl hsize,
    toNat_ofNat_uint32 hl, allocate_all, read_at hbits, pure_run]
  simp only [encFilter, List.length_append, length_beBytes, Nat.add_assoc]

theorem readFooter_at {file : Bytes} {f : Footer} (hl : FOOTER_ENCODED_SIZE ≤ file.length)
    (h : At file (file.length - FOOTER_ENCODED_SIZE) (encFooter f)) (path : TablePath) (pos : Nat) :
    readFooter path file pos = .ok (f, file.length) := by
  obtain ⟨h, h3⟩ := at_append.1 h
  obtain ⟨h1, h2⟩ := at_append.1 h
  rw [List.length_append, ← Nat.add_assoc] at h3
  simp only [readFooter, if_neg (Nat.not_lt.2 hl), bind_run, readHandle_at h1, readHandle_at h2,
    readHandle_at h3, pure_run]
  simp only [length_encHandle]
  congr 2
  unfold FOOTER_ENCODED_SIZE at *
  omega

/-! ## The constructor -/

section Table

variable {es : List Entry} {timestamp : TimestampType} {fileNum : FileNumber}

theorem Small.key_lt (hsmall : ∀ e ∈ es, e.persisted.Small) {k : Bytes} (hk : ∃ e ∈ es, k = e.key) :
    k.length < 2 ^ 32 := by
  obtain ⟨e, he, rfl⟩ := hk
  exact (hsmall e he).1

theorem firstKey_mem (hne : es ≠ []) : ∃ e ∈ es, firstKey es = e.key := by
  obtain ⟨e, es', rfl⟩ := List.exists_cons_of_ne_nil hne
  exact ⟨e, List.mem_cons_self, rfl⟩

theorem indexOfTable_key_lt (hsmall : ∀ e ∈ es, e.persisted.Small) :
    ∀ ie ∈ indexOfTable es, ie.last_key.length < 2 ^ 32 := by
  intro ie hie
  obtain ⟨blk, hblk, he⟩ := last_key_indexOf hie
  obtain ⟨e, hem, hek⟩ := lastKey_mem (cutBlocks_ne_nil hblk)
  exact Small.key_lt hsmall ⟨e, mem_of_mem_cutBlocks hblk hem, he.trans hek⟩

/-- The reader that the constructor builds on the file of a table. -/
def readerOf (es : List Entry) (timestamp : TimestampType) (fileNum : FileNumber)
    (path : TablePath) : BlockBasedTableReader where
  m_fullPath := path
  m_footer := footerOf es timestamp fileNum
  m_meta := metadataOf es timestamp fileNum
  m_index := indexOfTable es
  m_filter := ⟨FILTER_NUM_BITS, FILTER_NUM_HASHES, filterOf es⟩

/-- **The constructor reads back** the metadata, the index and the filter. -/
theorem construct_encodeTable (hne : es ≠ []) (hsmall : ∀ e ∈ es, e.persisted.Small)
    (hil : (indexOfTable es).length < 2 ^ 32) (hfile : (encodeTable es timestamp fileNum).length < 2 ^ 63)
    (path : TablePath) :
    construct (encodeTable es timestamp fileNum) path = .ok (readerOf es timestamp fileNum path) := by
  have hl : (encodeTable es timestamp fileNum).length = (dataArea es).length +
      (encMetadata (metadataOf es timestamp fileNum)).length + (encIndex (indexOfTable es)).length +
      (encFilter (filterOf es)).length + FOOTER_ENCODED_SIZE := by
    simp only [encodeTable, List.length_append, length_encFooter]
  -- where each block is
  have hat : At (encodeTable es timestamp fileNum) 0 (encodeTable es timestamp fileNum) :=
    ⟨Nat.zero_le _, List.prefix_refl _⟩
  obtain ⟨hat, hfooter⟩ := at_append.1 hat
  obtain ⟨hat, hfilter⟩ := at_append.1 hat
  obtain ⟨hat, hindex⟩ := at_append.1 hat
  obtain ⟨-, hmeta⟩ := at_append.1 hat
  simp only [List.length_append, Nat.zero_add] at hfooter hfilter hindex hmeta
  rw [show (dataArea es).length + (encMetadata (metadataOf es timestamp fileNum)).length +
      (encIndex (indexOfTable es)).length + (encFilter (filterOf es)).length =
      (encodeTable es timestamp fileNum).length - FOOTER_ENCODED_SIZE by omega] at hfooter
  have hfl : (filterOf es).length < 2 ^ 32 := by rw [length_filterOf]; decide
  have h1 := Small.key_lt hsmall (firstKey_mem hne)
  have h2 := Small.key_lt hsmall (lastKey_mem hne)
  have r1 := readFooter_at (by omega) hfooter path
  have r2 := readFilterBlock_at hfl (by omega) (by omega) hfilter path
  have r3 := readIndexBlock_at (indexOfTable_key_lt hsmall) hil (by omega) (by omega) hindex path
  have r4 := readMetadataBlock_at (m := metadataOf es timestamp fileNum) h1 h2 (by omega) (by omega)
    hmeta path
  simp only [construct, r1, footerOf, bind, Except.bind, r2, r3, r4]
  rfl

/-! ## Finding the block -/

theorem indexOf_getElem? (off : Nat) (blks : List (List Entry)) (i : Nat) :
    (indexOf off blks)[i]? = blks[i]?.map fun blk =>
      ⟨lastKey blk, ⟨UInt64.ofNat (off + ((blks.take i).flatMap encBlock).length),
        UInt64.ofNat (encBlock blk).length⟩⟩ := by
  induction blks generalizing off i with
  | nil => rfl
  | cons blk blks ih =>
    cases i with
    | zero => simp [indexOf]
    | succ i => simp [indexOf, ih, Nat.add_assoc]

theorem last_keys_increase {blks : List (List Entry)} (hne : ∀ blk ∈ blks, blk ≠ [])
    (hsort : SortedEntries blks.flatten) (off : Nat) :
    (indexOf off blks).Pairwise fun a b => a.last_key < b.last_key := by
  have hpair := (List.pairwise_flatten.1 hsort).2
  induction blks generalizing off with
  | nil => exact .nil
  | cons blk blks ih =>
    obtain ⟨hhead, htail⟩ := List.pairwise_cons.1 hpair
    have hsort' : SortedEntries blks.flatten :=
      hsort.sublist (List.sublist_append_right _ _)
    refine .cons (fun ie hie => ?_)
      (ih (fun b hb => hne b (List.mem_cons_of_mem _ hb)) hsort' _ htail)
    obtain ⟨blk', hblk', hlast⟩ := last_key_indexOf hie
    obtain ⟨x, hx, hkx⟩ := lastKey_mem (hne blk List.mem_cons_self)
    obtain ⟨y, hy, hky⟩ := lastKey_mem (hne blk' (List.mem_cons_of_mem _ hblk'))
    rw [hlast, hkx, hky]
    exact hhead blk' hblk' x hx y hy

/-- A block that ends below the key has only such blocks in front of it. -/
theorem lastKeyBelow_of_le {r : BlockBasedTableReader}
    (hinc : r.m_index.Pairwise fun a b => a.last_key < b.last_key) {key : Bytes} {i j : Nat}
    (hij : i ≤ j) (hj : j < r.m_index.length) (h : r.lastKeyBelow key j = true) :
    r.lastKeyBelow key i = true := by
  have hi : i < r.m_index.length := by omega
  rw [lastKeyBelow, List.getElem?_eq_getElem hj] at h
  rw [lastKeyBelow, List.getElem?_eq_getElem hi]
  simp only [decide_eq_true_eq] at h ⊢
  rcases Nat.lt_or_eq_of_le hij with hlt | rfl
  · exact (List.pairwise_iff_getElem.1 hinc i j hi hj hlt).trans h
  · exact h

/-- The blocks before the one found end below the key, that one does not. -/
theorem lowerBound_blocks {blks : List (List Entry)} (hne : ∀ blk ∈ blks, blk ≠ [])
    (hsort : SortedEntries blks.flatten) (r : BlockBasedTableReader)
    (hr : r.m_index = indexOf 0 blks) (key : Bytes) :
    (∀ i blk, blks[i]? = some blk → i < r.lowerBound key → lastKey blk < key) ∧
      (∀ i blk, blks[i]? = some blk → r.lowerBound key ≤ i → key ≤ lastKey blk) := by
  have hlen : r.m_index.length = blks.length := by rw [hr, length_indexOf]
  have hget : ∀ i blk, blks[i]? = some blk →
      r.lastKeyBelow key i = decide (lastKey blk < key) := by
    intro i blk h
    rw [lastKeyBelow, hr, indexOf_getElem?, h]
    rfl
  have hinc : r.m_index.Pairwise fun a b => a.last_key < b.last_key :=
    hr ▸ last_keys_increase hne hsort 0
  have hpart : ∀ i j, 0 ≤ i → i ≤ j → j < 0 + r.m_index.length →
      r.lastKeyBelow key j = true → r.lastKeyBelow key i = true :=
    fun i j _ hij hj h => lastKeyBelow_of_le hinc hij (by omega) h
  have spec := Search.lowerBound_spec hpart
  refine ⟨fun i blk hb hi => ?_, fun i blk hb hi => ?_⟩
  · have := spec.1 i (Nat.zero_le _) hi
    simpa only [hget i blk hb, decide_eq_true_eq] using this
  · have hil := (List.getElem?_eq_some_iff.1 hb).1
    have := spec.2 i hi (by omega)
    rw [hget i blk hb, decide_eq_false_iff_not] at this
    exact not_lt.1 this

/-- Only the block found can hold the key. -/
theorem lookup_blocks {blks : List (List Entry)} (hsort : SortedEntries blks.flatten) {n : Nat}
    {key : Bytes} (hlow : ∀ i blk, blks[i]? = some blk → i < n → lastKey blk < key)
    (hhigh : ∀ i blk, blks[i]? = some blk → n ≤ i → key ≤ lastKey blk) (hne : ∀ blk ∈ blks, blk ≠ []) :
    lookup blks.flatten key = (blks[n]?).elim none fun blk => lookup blk key := by
  have hinner := (List.pairwise_flatten.1 hsort).1
  have hpre : ∀ blk ∈ blks.take n, ∀ e ∈ blk, e.key ≠ key := by
    intro blk hblk e he
    obtain ⟨i, hi, rfl⟩ := List.mem_take_iff_getElem.1 hblk
    have hil : i < blks.length := by omega
    have hlast := hlow i _ (List.getElem?_eq_getElem hil) (by omega)
    exact ((le_lastKey (hinner _ (List.getElem_mem hil)) he).trans_lt hlast).ne
  have hnone : lookup (blks.take n).flatten key = none := by
    apply Keyed.lookup_eq_none.2
    intro e he
    obtain ⟨blk, hblk, he⟩ := List.mem_flatten.1 he
    exact hpre blk hblk e he
  by_cases hn : n < blks.length
  · have hget := List.getElem?_eq_getElem hn
    have hsplit : blks = blks.take n ++ blks[n] :: blks.drop (n + 1) := by
      rw [List.getElem_cons_drop, List.take_append_drop]
    -- behind the block found every key is above its last key
    have hpost : lookup (blks.drop (n + 1)).flatten key = none := by
      apply Keyed.lookup_eq_none.2
      intro e he
      rw [hsplit, List.flatten_append, List.flatten_cons] at hsort
      obtain ⟨x, hx, hk⟩ := lastKey_mem (hne _ (List.getElem_mem hn))
      have hlt := (List.pairwise_append.1 (List.pairwise_append.1 hsort).2.1).2.2 x hx e he
      have hge := hhigh n _ hget (le_refl _)
      rw [hk] at hge
      exact (hge.trans_lt hlt).ne'
    rw [hget]
    conv_lhs => rw [hsplit, List.flatten_append, List.flatten_cons]
    simp only [lookup, Keyed.lookup_append] at hnone hpost ⊢
    simp [hnone, hpost]
  · rw [List.getElem?_eq_none (by omega)]
    rw [List.take_of_length_le (by omega)] at hnone
    simpa using hnone

/-! ## Scanning the block -/

theorem tombstone_byte (b : Bool) : decide (([if b then 1 else 0] : Bytes) ≠ [0]) = b := by
  cases b <;> decide

theorem readEntry_at {α : Type} {file : Bytes} {pos : Nat} {e : Entry} (he : e.persisted.Small)
    (h : At file pos (encEntry e)) (path : TablePath) (f : Bytes → Bytes → Bytes → IStream α) :
    (do
      let entryKey ← readString
      let entryVal ← readString
      let tombstoneByte ← read 1 (about "failed to read tombstone byte" path)
      f entryKey entryVal tombstoneByte : IStream α) file pos =
    f e.key e.persisted.val [if e.tombstone then 1 else 0] file (pos + (encEntry e).length) := by
  obtain ⟨h, hbyte⟩ := at_append.1 h
  obtain ⟨hkey, hval⟩ := at_append.1 h
  have hk : e.key.length < 2 ^ 32 := he.1
  have rbyte := read_at hbyte (about "failed to read tombstone byte" path)
  rw [List.length_singleton, List.length_append, ← Nat.add_assoc] at rbyte
  simp only [bind_run, readString_at hk hkey, readString_at he.2 hval, rbyte, length_encEntry,
    ← Nat.add_assoc]

/-- The scan of a sorted block finds what is in it and stays inside it. -/
theorem scanEntries_at {blk : List Entry} (hsort : SortedEntries blk) (hsmall : ∀ e ∈ blk, e.persisted.Small)
    {file : Bytes} (key : Bytes) (path : TablePath) :
    ∀ {pos : Nat}, At file pos (blk.flatMap encEntry) → ∃ pos',
      scanEntries key path blk.length file pos = .ok ((lookup blk key).map Entry.persisted, pos') ∧
        pos ≤ pos' ∧ pos' ≤ pos + (blk.flatMap encEntry).length := by
  induction blk with
  | nil => exact fun {pos} _ => ⟨pos, rfl, le_refl _, Nat.le_add_right _ _⟩
  | cons e blk ih =>
    intro pos h
    rw [List.flatMap_cons] at h
    obtain ⟨h, hrest⟩ := at_append.1 h
    simp only [List.length_cons, scanEntries, readEntry_at (hsmall e List.mem_cons_self) h,
      Keyed.lookup_cons, lookup, List.flatMap_cons, List.length_append]
    by_cases heq : e.key = key
    · rw [if_pos heq, if_pos heq]
      rw [pure_run, Option.map_some, tombstone_byte]
      exact ⟨_, rfl, by omega, by omega⟩
    · rw [if_neg heq, if_neg heq]
      by_cases hlt : key < e.key
      · -- every later key is larger still
        have hnone : lookup blk key = none := Keyed.lookup_eq_none.2 fun x hx =>
          (hlt.trans (hsort.head_lt hx)).ne'
        rw [if_pos hlt, pure_run]
        simp only [lookup] at hnone
        rw [hnone, Option.map_none]
        exact ⟨_, rfl, by omega, by omega⟩
      · rw [if_neg hlt]
        obtain ⟨pos', hscan, h1, h2⟩ :=
          ih hsort.tail (fun x hx => hsmall x (List.mem_cons_of_mem _ hx)) hrest
        exact ⟨pos', hscan, by omega, by omega⟩

theorem readEntryFromDataBlock_at {blk : List Entry} (hsort : SortedEntries blk)
    (hsmall : ∀ e ∈ blk, e.persisted.Small) (hlen : blk.length < 2 ^ 32) {file : Bytes} {off : Nat}
    (hfile : file.length < 2 ^ 63) (h : At file off (encBlock blk)) (key : Bytes)
    (path : TablePath) (pos : Nat) : ∃ pos',
      readEntryFromDataBlock ⟨UInt64.ofNat off, UInt64.ofNat (encBlock blk).length⟩ key path file pos =
        .ok ((lookup blk key).map Entry.persisted, pos') := by
  have hle := h.le
  have hsize : (encBlock blk).length = 4 + (blk.flatMap encEntry).length := by simp [encBlock]
  have hoff : (UInt64.ofNat off).toNat = off := toNat_ofNat_uint64 (by omega)
  obtain ⟨h1, h2⟩ := at_append.1 h
  rw [length_beBytes] at h2
  obtain ⟨pos', hscan, hge, hle'⟩ := scanEntries_at hsort hsmall key path h2
  have hin : ¬ UInt64.ofNat (pos' - off) > UInt64.ofNat (encBlock blk).length := by
    rw [gt_iff_lt, UInt64.lt_iff_toNat_lt, toNat_ofNat_uint64 (by omega),
      toNat_ofNat_uint64 (by omega)]
    omega
  refine ⟨pos', ?_⟩
  simp only [readEntryFromDataBlock, bind_run, seekg, hoff, if_pos (show off < 2 ^ 63 by omega),
    tellg_run, readCount_at hlen h1, toNat_ofNat_uint32 hlen, hscan]
  cases lookup blk key with
  | none => simp only [Option.map_none, bind_run, tellg_run, if_neg hin, pure_run]
  | some e => simp only [Option.map_some, pure_run]

/-! ## The reader -/

theorem withinRange_readerOf (hsort : SortedEntries es) (path : TablePath) {e : Entry} (he : e ∈ es) :
    (readerOf es timestamp fileNum path).withinRange e.key = true := by
  simp only [withinRange, Bool.and_eq_true, decide_eq_true_eq]
  exact ⟨firstKey_le hsort he, le_lastKey hsort he⟩

/-- **`get` on the file that was written is the lookup in the entries.** -/
theorem get_encodeTable (hsort : SortedEntries es) (hsmall : ∀ e ∈ es, e.persisted.Small)
    (hfile : (encodeTable es timestamp fileNum).length < 2 ^ 63) (path : TablePath) (key : Bytes) :
    (readerOf es timestamp fileNum path).get (some (encodeTable es timestamp fileNum)) key =
      .ok ((lookup es key).map Entry.persisted) := by
  set r := readerOf es timestamp fileNum path with hr
  set blks := cutBlocks [] es with hblks
  have hflat : blks.flatten = es := by simpa using cutBlocks_flatten [] es
  have hne : ∀ blk ∈ blks, blk ≠ [] := fun blk h => cutBlocks_ne_nil h
  have hsort' : SortedEntries blks.flatten := by rwa [hflat]
  obtain ⟨hlow, hhigh⟩ := lowerBound_blocks hne hsort' r rfl key
  have hlook := lookup_blocks hsort' hlow hhigh hne
  rw [hflat] at hlook
  unfold get
  split
  · -- outside the range of the keys
    rename_i hrange
    have hnone : lookup es key = none := by
      apply Keyed.lookup_eq_none.2
      rintro e he rfl
      simp [r, withinRange_readerOf hsort path he] at hrange
    rw [hnone, Option.map_none]
  · have hindex : r.m_index[r.lowerBound key]? = _ := indexOf_getElem? 0 blks (r.lowerBound key)
    rw [hindex, hlook]
    cases hb : blks[r.lowerBound key]? with
    | none => rfl
    | some blk =>
      have hmem : blk ∈ blks := List.mem_of_getElem? hb
      have hsub : ∀ e ∈ blk, e ∈ es := fun e he => by
        rw [← hflat]
        exact List.mem_flatten_of_mem hmem he
      have hlen' : blk.length < 2 ^ 32 :=
        (bounded_of_mem_cutBlocks (bounded_of_length_le (Nat.zero_le _)) hmem).length_lt
      obtain ⟨hn, rfl⟩ := List.getElem?_eq_some_iff.1 hb
      have hat : At (encodeTable es timestamp fileNum)
          ((blks.take (r.lowerBound key)).flatMap encBlock).length (encBlock blks[r.lowerBound key]) := by
        have hsplit : dataArea es = (blks.take (r.lowerBound key)).flatMap encBlock ++
            encBlock blks[r.lowerBound key] ++
              (blks.drop (r.lowerBound key + 1)).flatMap encBlock := by
          rw [dataArea, ← hblks, List.append_assoc, ← List.flatMap_cons, List.getElem_cons_drop,
            ← List.flatMap_append, List.take_append_drop]
        rw [encodeTable, hsplit]
        simp only [List.append_assoc]
        rw [← List.append_assoc]
        exact at_here _ _ _
      obtain ⟨pos', hread⟩ := readEntryFromDataBlock_at
        ((List.pairwise_flatten.1 hsort').1 _ hmem) (fun e he => hsmall e (hsub e he)) hlen'
        hfile hat key path 0
      have hpath : r.m_fullPath = path := rfl
      simp only [Option.map_some, Nat.zero_add, hpath, hread, Except.map, Option.elim_some]

/-- **A block-based table answers exactly what was written**: neither `writeTable` nor the
constructor on the bytes written throws, and `meta`, `get` and `withinRange` are those of the
entries. -/
theorem reader_answers_written (hne : es ≠ []) (hsort : SortedEntries es)
    (hsmall : ∀ e ∈ es, e.key.length < 2 ^ 32 ∧ e.val.length < 2 ^ 32) (hlen : es.length < 2 ^ 32)
    (hfile : ∀ file, writeBlocks es timestamp fileNum [] = .ok () file → file.length < 2 ^ 63)
    (path : TablePath) :
    ∃ file r, writeBlocks es timestamp fileNum [] = .ok () file ∧ construct file path = .ok r ∧
      r.m_meta = ⟨fileNum, timestamp, firstKey es, lastKey es⟩ ∧
      (∀ e ∈ es, r.get (some file) e.key =
        .ok (some ⟨e.key, if e.tombstone then [] else e.val, e.tombstone⟩)) ∧
      (∀ k, (∀ e ∈ es, e.key ≠ k) → r.get (some file) k = .ok none) ∧
      ∀ e ∈ es, r.withinRange e.key = true := by
  have hsmall : ∀ e ∈ es, e.persisted.Small := fun e he => Entry.Small.persisted (hsmall e he)
  have hil := length_indexOfTable_lt hlen
  have hwrite := writeBlocks_eq hne hsmall hil timestamp fileNum
  have hsize := hfile _ hwrite
  refine ⟨_, _, hwrite, construct_encodeTable hne hsmall hil hsize path, rfl, ?_, ?_, ?_⟩
  · intro e he
    rw [get_encodeTable hsort hsmall hsize, lookup, (Keyed.lookup_eq_some hsort).2 ⟨he, rfl⟩]
    rfl
  · intro k hk
    rw [get_encodeTable hsort hsmall hsize, lookup, Keyed.lookup_eq_none.2 hk]
    rfl
  · exact fun e he => withinRange_readerOf hsort path he

end Table

/-- A live entry and a tombstone that still carries a value. -/
theorem reader_answers_written_two : ∃ file r,
    writeBlocks [⟨"a", "1", false⟩, ⟨"b", "x", true⟩] 7 5 [] = .ok () file ∧
      construct file ⟨"d", "level-0", "t"⟩ = .ok r ∧
      r.m_meta = ⟨5, 7, "a", "b"⟩ ∧
      r.get (some file) "a" = .ok (some ⟨"a", "1", false⟩) ∧
      r.get (some file) "b" = .ok (some ⟨"b", [], true⟩) ∧
      r.get (some file) "ab" = .ok none ∧ r.withinRange "b" = true := by
  have hsmall : ∀ e ∈ ([⟨"a", "1", false⟩, ⟨"b", "x", true⟩] : List Entry),
      e.key.length < 2 ^ 32 ∧ e.val.length < 2 ^ 32 := by decide +kernel
  have hfile : ∀ file, writeBlocks [⟨"a", "1", false⟩, ⟨"b", "x", true⟩] 7 5 [] = .ok () file →
      file.length < 2 ^ 63 :=
    fun file h => length_lt_of_writeBlocks (by decide) (by decide) (by decide +kernel) h
  obtain ⟨file, r, h1, h2, h3, h4, h5, h6⟩ := reader_answers_written (by decide)
    (by decide +kernel) hsmall (by decide) hfile ⟨"d", "level-0", "t"⟩
  exact ⟨file, r, h1, h2, h3, h4 ⟨"a", "1", false⟩ (by simp), h4 ⟨"b", "x", true⟩ (by simp),
    h5 "ab" (by decide +kernel), h6 ⟨"b", "x", true⟩ (by simp)⟩

end BlockBasedTableReader

end TinyKv
