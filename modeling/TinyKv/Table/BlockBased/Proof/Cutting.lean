import TinyKv.Table.BlockBased.Proof.Lookup

/-!
# Cutting a table into data blocks

What the index of a written table says about its data blocks, and what the two-part condition of the
loop (more than nine entries, and no room for the next one) makes of their sizes:

* `ten_le_cutBlocks`, `bounded_of_mem_cutBlocks`: how many entries and bytes a block has.
* `Tiles`: the handles of an index name segments that follow each other (`tiles_indexOf`).
* `forall₂_names`: every entry of the index leads to its block.
* `blocks_lose_nothing`: all of it, in the file that `writeTable` writes.
-/

namespace TinyKv

open Bytes BlockBasedTableFormat

namespace BlockBasedTableFormat

/-! ## Entries and bytes of a block -/

theorem cutBlocks_ne_nil_of_ne_nil {p es : List Entry} (h : p ++ es ≠ []) : cutBlocks p es ≠ [] := by
  intro hnil
  have hflat := cutBlocks_flatten p es
  rw [hnil, List.flatten_nil] at hflat
  exact h hflat.symm

/-- Only the flush behind the loop writes a block of fewer than ten entries. -/
theorem ten_le_cutBlocks {p es blk : List Entry} (h : blk ∈ (cutBlocks p es).dropLast) :
    10 ≤ blk.length := by
  fun_induction cutBlocks p es with
  | case1 => cases h
  | case2 p hp => cases h
  | case3 p e es hfull ih =>
    rw [List.dropLast_cons_of_ne_nil (cutBlocks_ne_nil_of_ne_nil (by simp))] at h
    rcases List.mem_cons.1 h with rfl | h
    · exact hfull.1
    · exact ih h
  | case4 p e es hfull ih => exact ih h

/-! ## The handles of the index -/

/-- Segments that follow each other from `off` on. -/
def Tiles : Nat → List IndexEntry → Prop
  | _, [] => True
  | off, ie :: index =>
    ie.block.offset.toNat = off ∧ Tiles (off + ie.block.size.toNat) index

theorem Tiles.le_offset {off : Nat} {index : List IndexEntry} (h : Tiles off index)
    {ie : IndexEntry} (hie : ie ∈ index) : off ≤ ie.block.offset.toNat := by
  induction index generalizing off with
  | nil => cases hie
  | cons x index ih =>
    rcases List.mem_cons.1 hie with rfl | hie
    · exact h.1.ge
    · have := ih h.2 hie
      omega

theorem Tiles.disjoint {off : Nat} {index : List IndexEntry} (h : Tiles off index) :
    index.Pairwise fun a b =>
      a.block.offset.toNat + a.block.size.toNat ≤ b.block.offset.toNat := by
  induction index generalizing off with
  | nil => exact .nil
  | cons ie index ih =>
    refine .cons (fun b hb => ?_) (ih h.2)
    rw [h.1]
    exact h.2.le_offset hb

theorem tiles_indexOf {off : Nat} {blks : List (List Entry)}
    (h : off + (blks.flatMap encBlock).length < 2 ^ 64) : Tiles off (indexOf off blks) := by
  induction blks generalizing off with
  | nil => trivial
  | cons blk blks ih =>
    rw [List.flatMap_cons, List.length_append] at h
    have hsize : (UInt64.ofNat (encBlock blk).length).toNat = (encBlock blk).length :=
      toNat_ofNat_uint64 (by omega)
    refine ⟨toNat_ofNat_uint64 (by omega), ?_⟩
    dsimp only
    rw [hsize]
    exact ih (by omega)

end BlockBasedTableFormat

namespace BlockBasedTableReader

/-! ## Decoding a data block -/

/-- The reads that the loop of `readEntryFromDataBlock` makes for an entry, for all of a block. -/
def readEntries (fullPath : TablePath) : Nat → IStream (List Entry)
  | 0 => pure []
  | n + 1 => do
    let entryKey ← readString
    let entryVal ← readString
    let tombstoneByte ← read 1 (about "failed to read tombstone byte" fullPath)
    let entries ← readEntries fullPath n
    return ⟨entryKey, entryVal, tombstoneByte ≠ [0]⟩ :: entries

/-- The entries of the data block at a handle. -/
def readDataBlock (handle : BlockHandle) (fullPath : TablePath) : IStream (List Entry) := do
  seekg handle.offset (about "failed to seek data block" fullPath)
  let numEntries ← readUint32BigEndian
  readEntries fullPath numEntries.toNat

theorem readEntries_at {blk : List Entry} (hsmall : ∀ e ∈ blk, e.persisted.Small) {file : Bytes}
    (path : TablePath) : ∀ {pos : Nat}, At file pos (blk.flatMap encEntry) →
      readEntries path blk.length file pos =
        .ok (blk.map Entry.persisted, pos + (blk.flatMap encEntry).length) := by
  induction blk with
  | nil => exact fun _ => rfl
  | cons e blk ih =>
    intro pos h
    rw [List.flatMap_cons] at h
    obtain ⟨h, hrest⟩ := at_append.1 h
    have rrest := ih (fun x hx => hsmall x (List.mem_cons_of_mem _ hx)) hrest
    simp only [List.length_cons, readEntries, readEntry_at (hsmall e List.mem_cons_self) h,
      bind_run, rrest, pure_run, tombstone_byte, List.map_cons, List.flatMap_cons,
      List.length_append, ← Nat.add_assoc]
    rfl

theorem readDataBlock_at {blk : List Entry} (hsmall : ∀ e ∈ blk, e.persisted.Small)
    (hlen : blk.length < 2 ^ 32) {file : Bytes} {off : Nat} (hfile : file.length < 2 ^ 63)
    (h : At file off (encBlock blk)) (path : TablePath) (pos : Nat) :
    readDataBlock ⟨UInt64.ofNat off, UInt64.ofNat (encBlock blk).length⟩ path file pos =
      .ok (blk.map Entry.persisted, off + (encBlock blk).length) := by
  have hle := h.le
  have hoff : (UInt64.ofNat off).toNat = off := toNat_ofNat_uint64 (by omega)
  obtain ⟨h1, h2⟩ := at_append.1 h
  rw [length_beBytes] at h2
  simp only [readDataBlock, bind_run, seekg, hoff, if_pos (show off < 2 ^ 63 by omega),
    readCount_at hlen h1, toNat_ofNat_uint32 hlen, readEntries_at hsmall path h2]
  simp only [encBlock, List.length_append, length_beBytes, Nat.add_assoc]

/-! ## The blocks of a file -/

/-- The index entry names a block of the file, with these entries. -/
structure Names (file : Bytes) (path : TablePath) (ie : IndexEntry) (blk : List Entry) : Prop where
  /-- The block is where the handle says, and ends where it says. -/
  decoded : ∀ pos, readDataBlock ie.block path file pos =
    .ok (blk, ie.block.offset.toNat + ie.block.size.toNat)
  last_key : blk.getLast?.map Entry.key = some ie.last_key
  /-- Besides its count of four bytes. -/
  data_size : 10 < blk.length → ie.block.size.toNat ≤ 4 + DATA_BLOCK_MAX_SIZE

/-- **Every entry of the index names its block.** -/
theorem forall₂_names {blks : List (List Entry)} (hne : ∀ blk ∈ blks, blk ≠ [])
    (hsmall : ∀ blk ∈ blks, ∀ e ∈ blk, e.persisted.Small)
    (hbounded : ∀ blk ∈ blks, Bounded blk) {file : Bytes} (hfile : file.length < 2 ^ 63)
    (path : TablePath) :
    ∀ {off : Nat}, At file off (blks.flatMap encBlock) →
      List.Forall₂ (Names file path) (indexOf off blks) (blks.map (List.map Entry.persisted)) := by
  induction blks with
  | nil => exact fun _ => .nil
  | cons blk blks ih =>
    intro off h
    rw [List.flatMap_cons] at h
    obtain ⟨hblk, hrest⟩ := at_append.1 h
    have hle := hblk.le
    have hoff : (UInt64.ofNat off).toNat = off := toNat_ofNat_uint64 (by omega)
    have hsize : (UInt64.ofNat (encBlock blk).length).toNat = (encBlock blk).length :=
      toNat_ofNat_uint64 (by omega)
    have hmem : blk ∈ blk :: blks := List.mem_cons_self
    refine .cons ⟨fun pos => ?_, ?_, fun hten => ?_⟩
      (ih (fun b hb => hne b (List.mem_cons_of_mem _ hb))
        (fun b hb => hsmall b (List.mem_cons_of_mem _ hb))
        (fun b hb => hbounded b (List.mem_cons_of_mem _ hb)) hrest)
    · dsimp only
      rw [hoff, hsize]
      exact readDataBlock_at (hsmall blk hmem) (hbounded blk hmem).length_lt hfile hblk path pos
    · obtain ⟨es, x, rfl⟩ := List.eq_nil_or_concat' blk |>.resolve_left (hne blk hmem)
      simp [lastKey]
    · rw [List.length_map] at hten
      have := hbounded blk hmem hten
      dsimp only
      rw [hsize, encBlock, List.length_append, length_beBytes]
      omega

/-- **Block cutting loses and reorders nothing.** In the file that `writeTable` writes, the blocks
named by the index that the constructor decodes lie one after the other from the start of the file
on, and their entries one after the other are the entries written. -/
theorem blocks_lose_nothing {es : List Entry} {timestamp : TimestampType} {fileNum : FileNumber}
    (hne : es ≠ []) (hsort : SortedEntries es)
    (hsmall : ∀ e ∈ es, e.key.length < 2 ^ 32 ∧ e.val.length < 2 ^ 32) (hlen : es.length < 2 ^ 32)
    (hfile : ∀ file, writeBlocks es timestamp fileNum [] = .ok () file → file.length < 2 ^ 63)
    (path : TablePath) :
    ∃ file r blks, writeBlocks es timestamp fileNum [] = .ok () file ∧
      construct file path = .ok r ∧
      List.Forall₂ (Names file path) r.m_index blks ∧
      Tiles 0 r.m_index ∧
      (r.m_index.Pairwise fun a b =>
        a.block.offset.toNat + a.block.size.toNat ≤ b.block.offset.toNat) ∧
      blks.flatten = es.map Entry.persisted ∧
      (r.m_index.Pairwise fun a b => a.last_key < b.last_key) ∧
      ∀ blk ∈ blks.dropLast, 10 ≤ blk.length := by
  have hsmall : ∀ e ∈ es, e.persisted.Small := fun e he => Entry.Small.persisted (hsmall e he)
  have hil := length_indexOfTable_lt hlen
  have hwrite := writeBlocks_eq hne hsmall hil timestamp fileNum
  have hsize := hfile _ hwrite
  have hflat : (cutBlocks [] es).flatten = es := cutBlocks_flatten [] es
  have hblks : ∀ blk ∈ cutBlocks [] es, blk ≠ [] := fun blk h => cutBlocks_ne_nil h
  have hat : At (encodeTable es timestamp fileNum) 0 ((cutBlocks [] es).flatMap encBlock) := by
    refine ⟨Nat.zero_le _, ?_⟩
    rw [List.drop_zero, encodeTable, List.append_assoc, List.append_assoc, List.append_assoc]
    exact List.prefix_append _ _
  have htiles : Tiles 0 (indexOf 0 (cutBlocks [] es)) := by
    have := hat.le
    exact tiles_indexOf (by omega)
  refine ⟨_, _, (cutBlocks [] es).map (List.map Entry.persisted), hwrite,
    construct_encodeTable hne hsmall hil hsize path, ?_, htiles, htiles.disjoint, ?_, ?_, ?_⟩
  · exact forall₂_names hblks (fun blk hblk e he => hsmall e (mem_of_mem_cutBlocks hblk he))
      (fun blk hblk => bounded_of_mem_cutBlocks (bounded_of_length_le (Nat.zero_le _)) hblk) hsize
      path hat
  · rw [← List.map_flatten, hflat]
  · exact last_keys_increase hblks (by rwa [hflat]) 0
  · intro blk hblk
    rw [← List.map_dropLast] at hblk
    obtain ⟨blk', hblk', rfl⟩ := List.mem_map.1 hblk
    rw [List.length_map]
    exact ten_le_cutBlocks hblk'

/-- Twelve entries of more than four hundred bytes: too many for one block. -/
def twelveLarge : List Entry :=
  (List.range 12).map fun i => ⟨[UInt8.ofNat i], List.replicate 400 0, i = 5⟩

theorem blocks_lose_nothing_twelveLarge :
    ∃ file r blks, writeBlocks twelveLarge 7 5 [] = .ok () file ∧
      construct file ⟨"d", "level-0", "t"⟩ = .ok r ∧
      List.Forall₂ (Names file ⟨"d", "level-0", "t"⟩) r.m_index blks ∧ Tiles 0 r.m_index ∧
      blks.flatten = twelveLarge.map Entry.persisted := by
  have hshort : ∀ e ∈ twelveLarge, e.key.length = 1 ∧ e.val.length = 400 := by
    intro e he
    obtain ⟨i, -, rfl⟩ := List.mem_map.1 he
    exact ⟨rfl, List.length_replicate⟩
  have hbound : ∀ e ∈ twelveLarge, e.key.length ≤ 2 ^ 30 ∧ e.val.length ≤ 2 ^ 30 := by
    intro e he
    obtain ⟨hk, hv⟩ := hshort e he
    exact ⟨by omega, by omega⟩
  have hsmall : ∀ e ∈ twelveLarge, e.Small := by
    intro e he
    obtain ⟨hk, hv⟩ := hshort e he
    exact ⟨by omega, by omega⟩
  have hfile : ∀ file, writeBlocks twelveLarge 7 5 [] = .ok () file → file.length < 2 ^ 63 :=
    fun file h => length_lt_of_writeBlocks (by decide) (by decide) hbound h
  obtain ⟨file, r, blks, h1, h2, h3, h4, -, h5, -⟩ := blocks_lose_nothing (by decide)
    (by decide +kernel) hsmall (by decide) hfile ⟨"d", "level-0", "t"⟩
  exact ⟨file, r, blks, h1, h2, h3, h4, h5⟩

end BlockBasedTableReader

end TinyKv
