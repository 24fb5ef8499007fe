import TinyKv.Lib.Spaced
import TinyKv.Table.BlockBased.Proof.Accept
import TinyKv.Table.BlockBased.Proof.Cutting

/-!
# A block-based table that was cut short

The reader takes the last 48 bytes of a file for six words, each an offset or a size in this file.
A word below `256 ^ j` starts with `8 - j` zeros (`broken_words`). Where no key and no value has a
zero in it and every key is longer than `j` bytes, the zeros of a file stand in the lengths, counts
and handles between two keys, and there are too few of them for a footer (`spaced_table`).

So a table of such entries is not taken for whole as long as the bits of its filter are missing
(`not_looksWhole_of_plainText`).
-/

namespace TinyKv

open Bytes

/-! ## The words of a footer -/

def Footer.words (f : Footer) : List UInt64 :=
  [f.metadata_block.offset, f.metadata_block.size, f.index_block.offset, f.index_block.size,
    f.filter_block.offset, f.filter_block.size]

namespace BlockBasedTableReader

open BlockBasedTableFormat

theorem encFooter_eq (f : Footer) :
    encFooter f = (f.words.map UInt64.toNat).flatMap (beBytes 8) := by
  simp [encFooter, encHandle, Footer.words]

/-- Small words follow each other with zeros in between. -/
theorem broken_words {j : Nat} (hj : j ≤ 7) {words : List Nat} (hwords : ∀ w ∈ words, w < 256 ^ j) :
    Spaced.Broken 0 j (words.flatMap (beBytes 8)) := by
  have hlow : ∀ low : Bytes, low.length ≤ j →
      Spaced.Broken 0 j (low ++ words.flatMap (beBytes 8)) := by
    induction words with
    | nil =>
      intro low hle
      rw [List.flatMap_nil, List.append_nil]
      exact .of_length_le hle
    | cons w words ih =>
      intro low hle
      obtain ⟨k, hk⟩ : ∃ k, 8 = j + (k + 1) := ⟨7 - j, by omega⟩
      rw [List.flatMap_cons, hk, beBytes_small (hwords w List.mem_cons_self), List.replicate_succ,
        List.cons_append, List.cons_append, List.append_assoc, ← hk]
      have hrest := ih (fun x hx => hwords x (List.mem_cons_of_mem _ hx)) (beBytes j w) (by simp)
      exact (Spaced.Broken.of_length_le hle).append_cons (hrest.replicate_append k)
  exact hlow [] (Nat.zero_le j)

theorem BlockAt.words_lt {file bs : Bytes} {handle : BlockHandle} (h : BlockAt file handle bs)
    (hbs : 0 < bs.length) {n : Nat} (hfile : file.length < n) :
    handle.offset.toNat < n ∧ handle.size.toNat < n := by
  have hle := h.bytes.length_le
  rw [List.length_drop] at hle
  have hsize : handle.size.toNat ≤ bs.length := by
    rw [← h.size, UInt64.toNat_ofNat']
    exact Nat.mod_le _ _
  omega

theorem LooksWhole.words_lt {file : Bytes} {r : BlockBasedTableReader} (h : LooksWhole file r)
    {n : Nat} (hfile : file.length < n) : ∀ w ∈ r.m_footer.words, w.toNat < n := by
  obtain ⟨-, ⟨fb, ⟨rfl, -⟩, hfat⟩, ⟨ib, ⟨rfl, -⟩, hiat⟩, ⟨mb, ⟨rfl, -⟩, hmat⟩⟩ := h
  obtain ⟨hf1, hf2⟩ := hfat.words_lt (by simp) hfile
  obtain ⟨hi1, hi2⟩ := hiat.words_lt (by simp [encIndex]) hfile
  obtain ⟨hm1, hm2⟩ := hmat.words_lt (by simp [encMetadata]) hfile
  intro w hw
  simp only [Footer.words, List.mem_cons, List.not_mem_nil, or_false] at hw
  rcases hw with rfl | rfl | rfl | rfl | rfl | rfl <;> assumption

end BlockBasedTableReader

/-! ## The keys of a file -/

/-- Keys longer than `j` bytes, and no zero byte in a string. -/
def PlainText (j : Nat) (es : List Entry) : Prop :=
  ∀ e ∈ es, j < e.key.length ∧ 0 ∉ e.key ∧ 0 ∉ e.val

instance (j : Nat) (es : List Entry) : Decidable (PlainText j es) :=
  inferInstanceAs (Decidable (∀ e ∈ es, _))

namespace BlockBasedTableFormat

/-- Keys with at most 32 bytes between them, which is what the entries, blocks and handles of a file
come to when a short value counts with its seven bytes at most. -/
abbrev KeySpaced (j a : Nat) (bs : Bytes) : Prop := Spaced (0 : UInt8) j 32 a bs

section

variable {j a : Nat} {bs : Bytes}

theorem keySpaced_encString {k : Bytes} (hk : j < k.length ∧ 0 ∉ k) (ha : a + 4 ≤ 32)
    (h : KeySpaced j 0 bs) : KeySpaced j a (encString k ++ bs) := by
  rw [encString, List.append_assoc]
  exact .items _ (.text hk.1 hk.2 (by rwa [length_beBytes]) h)

theorem keySpaced_encEntry {e : Entry} (he : j < e.key.length ∧ 0 ∉ e.key ∧ 0 ∉ e.val)
    (ha : a + 4 ≤ 32) (h : KeySpaced j (5 + j) bs) : KeySpaced j a (encEntry e ++ bs) := by
  obtain ⟨hlong, hkey, hval⟩ := he
  have hval' : 0 ∉ e.persisted.val := by
    unfold Entry.persisted
    dsimp only
    split
    · exact List.not_mem_nil
    · exact hval
  rw [encEntry, List.append_assoc, List.append_assoc]
  refine keySpaced_encString ⟨hlong, hkey⟩ ha ?_
  rw [encString, List.append_assoc]
  refine .items _ (.plain hval' (.item _ (h.mono ?_)))
  rw [length_beBytes]
  omega

theorem keySpaced_entries {es : List Entry} (hes : PlainText j es) (hne : es ≠ []) (hj : j ≤ 7)
    (ha : a + 4 ≤ 32) (h : KeySpaced j (5 + j) bs) :
    KeySpaced j a (es.flatMap encEntry ++ bs) := by
  induction es generalizing a with
  | nil => exact absurd rfl hne
  | cons e es ih =>
    rw [List.flatMap_cons, List.append_assoc]
    refine keySpaced_encEntry (hes e List.mem_cons_self) ha ?_
    by_cases hnil : es = []
    · rwa [hnil]
    · exact ih (fun x hx => hes x (List.mem_cons_of_mem _ hx)) hnil (by omega)

theorem keySpaced_blocks {blks : List (List Entry)} (hblks : ∀ blk ∈ blks, blk ≠ [] ∧ PlainText j blk)
    (hne : blks ≠ []) (hj : j ≤ 7) (ha : a + 8 ≤ 32) (h : KeySpaced j (5 + j) bs) :
    KeySpaced j a (blks.flatMap encBlock ++ bs) := by
  induction blks generalizing a with
  | nil => exact absurd rfl hne
  | cons blk blks ih =>
    obtain ⟨hblk, htext⟩ := hblks blk List.mem_cons_self
    rw [List.flatMap_cons, List.append_assoc, encBlock, List.append_assoc]
    refine .items _ (keySpaced_entries htext hblk hj (by rw [length_beBytes]; omega) ?_)
    by_cases hnil : blks = []
    · rwa [hnil]
    · exact ih (fun x hx => hblks x (List.mem_cons_of_mem _ hx)) hnil (by omega)

theorem keySpaced_encMetadata {m : SSTableMetadata} (hmin : j < m.m_min_key.length ∧ 0 ∉ m.m_min_key)
    (hmax : j < m.m_max_key.length ∧ 0 ∉ m.m_max_key) (ha : a + 20 ≤ 32) (h : KeySpaced j 0 bs) :
    KeySpaced j a (encMetadata m ++ bs) := by
  simp only [encMetadata, List.append_assoc]
  refine .items _ (.items _ (keySpaced_encString hmin ?_ (keySpaced_encString hmax (by decide) h)))
  simp only [length_beBytes]
  omega

theorem keySpaced_indexEntries {index : List IndexEntry}
    (hkeys : ∀ ie ∈ index, j < ie.last_key.length ∧ 0 ∉ ie.last_key) (hne : index ≠ [])
    (ha : a + 4 ≤ 32) (h : KeySpaced j 16 bs) :
    KeySpaced j a (index.flatMap encIndexEntry ++ bs) := by
  induction index generalizing a with
  | nil => exact absurd rfl hne
  | cons ie index ih =>
    rw [List.flatMap_cons, List.append_assoc, encIndexEntry, List.append_assoc]
    refine keySpaced_encString (hkeys ie List.mem_cons_self) ha (.items _ ?_)
    rw [length_encHandle]
    by_cases hnil : index = []
    · rwa [hnil]
    · exact ih (fun x hx => hkeys x (List.mem_cons_of_mem _ hx)) hnil (by decide)

end

/-- The three words in front of the bits of a filter. -/
def filterHead : Bytes :=
  beBytes 4 FILTER_NUM_BITS.toNat ++ beBytes 4 FILTER_NUM_HASHES.toNat ++ beBytes 4 1024

/-- What is written in front of the bits of the filter. -/
def beforeBits (es : List Entry) (timestamp : TimestampType) (fileNum : FileNumber) : Bytes :=
  dataArea es ++ (encMetadata (metadataOf es timestamp fileNum) ++
    (encIndex (indexOfTable es) ++ filterHead))

variable {j : Nat} {es : List Entry} {timestamp : TimestampType} {fileNum : FileNumber}

/-- **The keys of a table of plain texts** are close to each other in its file. -/
theorem spaced_table (hes : PlainText j es) (hne : es ≠ []) (hj : j ≤ 7) :
    KeySpaced j 0 (beforeBits es timestamp fileNum) := by
  have hkey : ∀ {k : Bytes}, (∃ e ∈ es, k = e.key) → j < k.length ∧ 0 ∉ k := by
    rintro k ⟨e, he, rfl⟩
    exact ⟨(hes e he).1, (hes e he).2.1⟩
  have hblks : ∀ blk ∈ cutBlocks [] es, blk ≠ [] ∧ PlainText j blk := fun blk hblk =>
    ⟨cutBlocks_ne_nil hblk, fun e he => hes e (mem_of_mem_cutBlocks hblk he)⟩
  have hcut : cutBlocks [] es ≠ [] := cutBlocks_ne_nil_of_ne_nil hne
  have hlast : ∀ ie ∈ indexOfTable es, j < ie.last_key.length ∧ 0 ∉ ie.last_key := by
    intro ie hie
    obtain ⟨blk, hblk, he⟩ := last_key_indexOf hie
    obtain ⟨e, hem, hek⟩ := lastKey_mem (cutBlocks_ne_nil hblk)
    exact hkey ⟨e, mem_of_mem_cutBlocks hblk hem, he.trans hek⟩
  have hindex : indexOfTable es ≠ [] := by
    rw [← List.length_pos_iff, indexOfTable, length_indexOf]
    exact List.length_pos_iff.2 hcut
  have hhead : KeySpaced j 16 filterHead := by
    have hgap : KeySpaced j (16 + filterHead.length) [] := .nil (by decide)
    rw [← List.append_nil filterHead]
    exact .items _ hgap
  refine keySpaced_blocks hblks hcut hj (by decide) (keySpaced_encMetadata
    (hkey (BlockBasedTableReader.firstKey_mem hne)) (hkey (lastKey_mem hne)) (by omega) ?_)
  rw [encIndex, List.append_assoc]
  exact .items _ (keySpaced_indexEntries hlast hindex (by rw [length_beBytes]; decide) hhead)

theorem beforeBits_append (es : List Entry) (timestamp : TimestampType) (fileNum : FileNumber) :
    encodeTable es timestamp fileNum =
      beforeBits es timestamp fileNum ++ (filterOf es ++ encFooter (footerOf es timestamp fileNum)) := by
  simp only [encodeTable, beforeBits, encFilter, filterHead, length_filterOf, List.append_assoc]

end BlockBasedTableFormat

namespace BlockBasedTableReader

open BlockBasedTableFormat

variable {j : Nat} {es : List Entry} {timestamp : TimestampType} {fileNum : FileNumber}

/-- **A table of plain texts that lacks the bits of its filter** does not look whole. -/
theorem not_looksWhole_of_plainText (hne : es ≠ []) (hes : PlainText j es) (hj : j ≤ 7)
    (hsize : (encodeTable es timestamp fileNum).length < 256 ^ j) {p : Bytes}
    (hp : p <+: encodeTable es timestamp fileNum)
    (hcut : p.length + 1072 ≤ (encodeTable es timestamp fileNum).length)
    (r : BlockBasedTableReader) : ¬ LooksWhole p r := by
  intro hwhole
  have hbroken : Spaced.Broken 0 j (encFooter r.m_footer) := by
    rw [encFooter_eq]
    refine broken_words hj fun w hw => ?_
    obtain ⟨x, hx, rfl⟩ := List.mem_map.1 hw
    exact hwhole.words_lt (hp.length_le.trans_lt hsize) x hx
  have hfront : p <+: beforeBits es timestamp fileNum := by
    rw [beforeBits_append] at hp hcut
    refine List.prefix_of_prefix_length_le hp (List.prefix_append _ _) ?_
    simp only [List.length_append, length_filterOf, length_encFooter, FOOTER_ENCODED_SIZE] at hcut
    omega
  have hle := (spaced_table hes hne hj).length_le_of_window
    (hwhole.footer.isInfix.trans hfront.isInfix) hbroken
  rw [length_encFooter, FOOTER_ENCODED_SIZE] at hle
  omega

end BlockBasedTableReader

end TinyKv
