import TinyKv.Lib.Bits
import TinyKv.Table.BlockBased.Proof.Accept
import TinyKv.Table.BlockBased.Proof.Lookup

/-!
# The persisted Bloom filter has no false negatives

A key sets its bits (`bitIndex`) when it is added (`isSet_addKeyToFilter`), no later key takes one
back (`addKeyToFilter_keeps`), and the bitset comes back from the file as it was
(`filter_has_every_key`).
-/

namespace TinyKv

open Bytes

namespace BlockBasedTableFormat

theorem bitIndex_lt (key : Bytes) (seed : Nat) : bitIndex key seed < 8192 :=
  Nat.mod_lt _ (by decide)

theorem addKeyToFilter_keeps {bitset : Bytes} {i : Nat} (h : IsSet bitset i) (key : Bytes) :
    IsSet (addKeyToFilter bitset key) i := by
  unfold addKeyToFilter
  generalize List.range FILTER_NUM_HASHES.toNat = seeds
  induction seeds generalizing bitset with
  | nil => exact h
  | cons seed seeds ih => exact ih (h.setBit (bitIndex key seed))

/-- **A key sets all of its bits.** -/
theorem isSet_addKeyToFilter {bitset key : Bytes} {seed : Nat} (hlen : bitset.length = 1024)
    (hseed : seed < FILTER_NUM_HASHES.toNat) :
    IsSet (addKeyToFilter bitset key) (bitIndex key seed) := by
  have hlt := bitIndex_lt key seed
  -- every step of the fold leaves the length alone, and the bit of `seed` once it is set
  have hreach : (addKeyToFilter bitset key).length = 1024 → _ :=
    foldl_reaches (P := fun bs : Bytes => bs.length = 1024 → IsSet bs (bitIndex key seed))
      (List.mem_range.2 hseed)
      (fun bs hbs => isSet_setBit (by rw [length_setBit] at hbs; omega))
      (fun bs s h hbs => (h (by rwa [length_setBit] at hbs)).setBit (bitIndex key s)) bitset
  refine hreach ?_
  rw [length_addKeyToFilter, hlen]

/-- **The filter of a table** has the bits of each of its keys. -/
theorem isSet_filterOf {es : List Entry} {e : Entry} (he : e ∈ es) {seed : Nat}
    (hseed : seed < FILTER_NUM_HASHES.toNat) : IsSet (filterOf es) (bitIndex e.key seed) := by
  have hreach : (filterOf es).length = 1024 → _ :=
    foldl_reaches (P := fun bs : Bytes => bs.length = 1024 → IsSet bs (bitIndex e.key seed)) he
      (fun bs hbs => isSet_addKeyToFilter (by rwa [length_addKeyToFilter] at hbs) hseed)
      (fun bs x h hbs =>
        addKeyToFilter_keeps (h (by rwa [length_addKeyToFilter] at hbs)) x.key) _
  exact hreach (length_filterOf es)

end BlockBasedTableFormat

namespace BlockBasedTableReader

open BlockBasedTableFormat

/-- **The persisted Bloom filter has no false negatives**: in the filter block that the reader of a
written table decodes, every probe for a key of the table lies inside the bitset and hits. -/
theorem filter_has_every_key {es : List Entry} {timestamp : TimestampType} {fileNum : FileNumber}
    (hne : es ≠ [])
    (hsmall : ∀ e ∈ es, e.key.length < 2 ^ 32 ∧ e.val.length < 2 ^ 32) (hlen : es.length < 2 ^ 32)
    (hfile : ∀ file, writeBlocks es timestamp fileNum [] = .ok () file → file.length < 2 ^ 63)
    (path : TablePath) :
    ∃ file r stop, writeBlocks es timestamp fileNum [] = .ok () file ∧
      construct file path = .ok r ∧
      (∀ pos, readFilterBlock r.m_footer.filter_block path .all file pos = .ok (r.m_filter, stop)) ∧
      ∀ e ∈ es, ∀ seed < r.m_filter.num_hashes.toNat,
        let i := (hashKeyWithSeed e.key (UInt64.ofNat seed)).toNat % r.m_filter.num_bits.toNat
        ∃ byte, r.m_filter.bitset[i / 8]? = some byte ∧
          byte &&& UInt8.ofNat (1 <<< (i % 8)) ≠ 0 := by
  have hsmall : ∀ e ∈ es, e.persisted.Small := fun e he => Entry.Small.persisted (hsmall e he)
  have hil := length_indexOfTable_lt hlen
  have hwrite := writeBlocks_eq hne hsmall hil timestamp fileNum
  have hread := construct_encodeTable hne hsmall hil (hfile _ hwrite) path
  obtain ⟨-, hwhole⟩ := (construct_iff ..).1 hread
  obtain ⟨bs, henc, hat⟩ := hwhole.filter
  refine ⟨_, _, _, hwrite, hread,
    fun pos => (readBlock_ok_iff (parses_filter _) ..).2 ⟨bs, henc, hat, rfl⟩, ?_⟩
  intro e he seed hseed
  exact isSet_filterOf he hseed

/-- The last probe for the first of two keys. -/
theorem filter_has_every_key_two : ∃ file r stop,
    writeBlocks [⟨"a", "1", false⟩, ⟨"b", "x", true⟩] 7 5 [] = .ok () file ∧
      construct file ⟨"d", "level-0", "t"⟩ = .ok r ∧
      readFilterBlock r.m_footer.filter_block ⟨"d", "level-0", "t"⟩ .all file 0 =
        .ok (r.m_filter, stop) ∧
      (6 < r.m_filter.num_hashes.toNat → IsSet r.m_filter.bitset
        ((hashKeyWithSeed "a" 6).toNat % r.m_filter.num_bits.toNat)) := by
  have hsmall : ∀ e ∈ ([⟨"a", "1", false⟩, ⟨"b", "x", true⟩] : List Entry),
      e.key.length < 2 ^ 32 ∧ e.val.length < 2 ^ 32 := by decide +kernel
  have hfile : ∀ file, writeBlocks [⟨"a", "1", false⟩, ⟨"b", "x", true⟩] 7 5 [] = .ok () file →
      file.length < 2 ^ 63 :=
    fun file h => length_lt_of_writeBlocks (by decide) (by decide) (by decide +kernel) h
  obtain ⟨file, r, stop, h1, h2, h3, h4⟩ := filter_has_every_key (by decide) hsmall (by decide)
    hfile ⟨"d", "level-0", "t"⟩
  exact ⟨file, r, stop, h1, h2, h3 0, fun hseed => h4 ⟨"a", "1", false⟩ (by simp) 6 hseed⟩

end BlockBasedTableReader

end TinyKv
