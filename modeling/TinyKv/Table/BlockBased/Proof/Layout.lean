import TinyKv.Table.BlockBased.Format

/-!
# The bytes of a block-based table

`writeBlocks` on entries with strings shorter than `2 ^ 32` bytes writes exactly `encodeTable`
(`writeBlocks_eq`): the data blocks of `cutBlocks`, metadata, index, filter and footer, with every
handle at the offset its block has in the file.

* `cutBlocks p es`: how the loop cuts the entries `es` into data blocks when `p` is in the open
  block. `cutBlocks_flatten`: nothing is lost or reordered.
* `writeDataBlocks_eq`: the loop's invariant. The open block's bytes, count and last key are those
  of the pending entries (`Locals.Pending`).
-/

namespace TinyKv

open Bytes

namespace BlockBasedTableFormat

/-! ## Encodings -/

/-- A string behind its length. -/
def encString (s : Bytes) : Bytes := beBytes 4 s.length ++ s

def encEntry (e : Entry) : Bytes :=
  encString e.key ++ encString e.persisted.val ++ [if e.tombstone then 1 else 0]

def encBlock (es : List Entry) : Bytes := beBytes 4 es.length ++ es.flatMap encEntry

def encHandle (h : BlockHandle) : Bytes := beBytes 8 h.offset.toNat ++ beBytes 8 h.size.toNat

def encIndexEntry (ie : IndexEntry) : Bytes := encString ie.last_key ++ encHandle ie.block

def encIndex (index : List IndexEntry) : Bytes :=
  beBytes 4 index.length ++ index.flatMap encIndexEntry

def encMetadata (m : SSTableMetadata) : Bytes :=
  beBytes 8 m.m_file_number.toNat ++ beBytes 8 m.m_timestamp.toNat ++ encString m.m_min_key ++
    encString m.m_max_key

def encFilter (bitset : Bytes) : Bytes :=
  beBytes 4 FILTER_NUM_BITS.toNat ++ beBytes 4 FILTER_NUM_HASHES.toNat ++
    beBytes 4 bitset.length ++ bitset

def encFooter (f : Footer) : Bytes :=
  encHandle f.metadata_block ++ encHandle f.index_block ++ encHandle f.filter_block

@[simp] theorem length_encString (s : Bytes) : (encString s).length = 4 + s.length := by
  simp [encString]

@[simp] theorem length_encHandle (h : BlockHandle) : (encHandle h).length = 16 := by
  simp [encHandle]

@[simp] theorem length_encFooter (f : Footer) : (encFooter f).length = FOOTER_ENCODED_SIZE := by
  simp [encFooter, FOOTER_ENCODED_SIZE]

/-! ## Streams -/

theorem bind_run {α β : Type} (x : OStream α) (f : α → OStream β) (out : Bytes) :
    (x >>= f) out = match x out with
      | .ok a out => f a out
      | .error e out => .error e out := by
  show EStateM.bind x f out = _
  unfold EStateM.bind
  cases x out <;> rfl

theorem put_run (bs out : Bytes) : put bs out = .ok () (out ++ bs) := rfl

theorem pure_run {α : Type} (a : α) (out : Bytes) : (pure a : OStream α) out = .ok a out := rfl

theorem tellp_run (out : Bytes) : tellp out = .ok (UInt64.ofNat out.length) out := rfl

theorem ofNat_length_sub (a b : Nat) :
    UInt64.ofNat (a + b) - UInt64.ofNat a = UInt64.ofNat b := by
  rw [UInt64.ofNat_add, UInt64.add_comm, UInt64.add_sub_cancel]

theorem writeHandle_run (h : BlockHandle) (out : Bytes) :
    writeBlockHandle h out = .ok () (out ++ encHandle h) := by
  simp only [writeBlockHandle, writeUint64BigEndian, bind_run, put_run, encHandle,
    List.append_assoc]

theorem writeString_run {s : Bytes} (hs : s.length < 2 ^ 32) (out : Bytes) :
    writeString s out = .ok () (out ++ encString s) := by
  have hle : ¬ s.length > UINT32_MAX := by unfold UINT32_MAX; omega
  simp only [writeString, if_neg hle, bind_run, writeUint32BigEndian, put_run, encString,
    toNat_ofNat_uint32 hs, List.append_assoc]

theorem appendString_ok {s : Bytes} (hs : s.length < 2 ^ 32) :
    appendString s = .ok (encString s) := by
  have hle : ¬ s.length > UINT32_MAX := by unfold UINT32_MAX; omega
  rw [appendString, if_neg hle, toNat_ofNat_uint32 hs, encString]

theorem appendEntry_ok {e : Entry} (he : e.persisted.Small) : appendEntry e = .ok (encEntry e) := by
  have hk : e.key.length < 2 ^ 32 := he.1
  have hv : (if e.tombstone then [] else e.val) = e.persisted.val := rfl
  simp only [appendEntry, hv, appendString_ok hk, appendString_ok he.2]
  rfl

/-! ## Cutting the entries into data blocks -/

/-- The data blocks of the entries `es` when the entries `p` are in the open block. -/
def cutBlocks : List Entry → List Entry → List (List Entry)
  | p, [] => if p = [] then [] else [p]
  | p, e :: es =>
    if 9 < p.length ∧ DATA_BLOCK_MAX_SIZE < (p.flatMap encEntry).length + (encEntry e).length then
      p :: cutBlocks [e] es
    else cutBlocks (p ++ [e]) es

theorem cutBlocks_flatten (p es : List Entry) : (cutBlocks p es).flatten = p ++ es := by
  fun_induction cutBlocks p es with
  | case1 => rfl
  | case2 p h => simp
  | case3 p e es h ih => simp [ih]
  | case4 p e es h ih => simp [ih]

theorem cutBlocks_ne_nil {p es blk : List Entry} (h : blk ∈ cutBlocks p es) : blk ≠ [] := by
  fun_induction cutBlocks p es with
  | case1 => cases h
  | case2 p hp => rwa [List.mem_singleton.1 h]
  | case3 p e es hfull ih =>
    rcases List.mem_cons.1 h with rfl | h
    · rintro rfl
      simp at hfull
    · exact ih h
  | case4 p e es hfull ih => exact ih h

theorem length_encEntry (e : Entry) :
    (encEntry e).length = (encString e.key).length + (encString e.persisted.val).length + 1 := by
  simp only [encEntry, List.length_append, List.length_singleton]

theorem nine_mul_length_le (es : List Entry) : 9 * es.length ≤ (es.flatMap encEntry).length := by
  induction es with
  | nil => exact le_refl _
  | cons e es ih =>
    rw [List.flatMap_cons, List.length_append, length_encEntry, length_encString, length_encString,
      List.length_cons]
    omega

/-- More than ten entries are in a block only where its bytes are within the limit. -/
def Bounded (p : List Entry) : Prop :=
  10 < p.length → (p.flatMap encEntry).length ≤ DATA_BLOCK_MAX_SIZE

theorem Bounded.length_lt {p : List Entry} (h : Bounded p) : p.length < 2 ^ 32 := by
  by_cases hten : 10 < p.length
  · have hbytes := h hten
    have hmin := nine_mul_length_le p
    unfold DATA_BLOCK_MAX_SIZE at hbytes
    omega
  · omega

theorem bounded_of_length_le {p : List Entry} (h : p.length ≤ 10) : Bounded p :=
  fun hten => absurd hten (by omega)

/-- An eleventh entry goes into a block only where there is room for it. -/
theorem bounded_snoc {p : List Entry} {e : Entry} (hfull : ¬ (9 < p.length ∧
    DATA_BLOCK_MAX_SIZE < (p.flatMap encEntry).length + (encEntry e).length)) :
    Bounded (p ++ [e]) := by
  intro hten
  rw [List.length_append, List.length_singleton] at hten
  rw [List.flatMap_append, List.flatMap_singleton, List.length_append]
  have hroom := fun hbig => hfull ⟨by omega, hbig⟩
  exact not_lt.1 hroom

theorem bounded_of_mem_cutBlocks {p es blk : List Entry} (hp : Bounded p)
    (h : blk ∈ cutBlocks p es) : Bounded blk := by
  fun_induction cutBlocks p es with
  | case1 => cases h
  | case2 p _ => rwa [List.mem_singleton.1 h]
  | case3 p e es hfull ih =>
    rcases List.mem_cons.1 h with rfl | h
    · exact hp
    · exact ih (bounded_of_length_le (by simp)) h
  | case4 p e es hfull ih => exact ih (bounded_snoc hfull) h

/-- The index of data blocks that follow each other from `off` on. -/
def indexOf : Nat → List (List Entry) → List IndexEntry
  | _, [] => []
  | off, blk :: blks =>
    ⟨lastKey blk, ⟨UInt64.ofNat off, UInt64.ofNat (encBlock blk).length⟩⟩ ::
      indexOf (off + (encBlock blk).length) blks

theorem length_indexOf (off : Nat) (blks : List (List Entry)) :
    (indexOf off blks).length = blks.length := by
  induction blks generalizing off with
  | nil => rfl
  | cons blk blks ih => simp [indexOf, ih]

/-- The open block holds the entries `p`. -/
structure Locals.Pending (b : Locals) (p : List Entry) : Prop where
  dataBlock : b.dataBlock = p.flatMap encEntry
  count : b.entriesInBlock = UInt32.ofNat p.length
  lastKey : p ≠ [] → b.lastKeyInBlock = TinyKv.lastKey p

/-- The locals after the open block has been written at `off`. -/
def Locals.flushed (b : Locals) (off : Nat) (p : List Entry) : Locals :=
  { b with
    index := b.index ++ indexOf off [p]
    dataBlock := []
    entriesInBlock := 0
    lastKeyInBlock := [] }

theorem flushDataBlock_run {b : Locals} {p : List Entry} (hb : b.Pending p) (hp : p ≠ [])
    (hl : p.length < 2 ^ 32) (out : Bytes) :
    flushDataBlock b out = .ok (b.flushed out.length p) (out ++ encBlock p) := by
  have hn : b.entriesInBlock.toNat = p.length := by rw [hb.count, toNat_ofNat_uint32 hl]
  have h0 : ¬ b.entriesInBlock = 0 := fun h => by
    rw [h] at hn
    exact hp (List.length_eq_zero_iff.1 hn.symm)
  simp only [flushDataBlock, if_neg h0, writeRawBlock, bind_run, tellp_run, put_run, pure_run, hn,
    hb.dataBlock, hb.lastKey hp, Locals.flushed, indexOf, encBlock]

theorem Locals.Pending.add {b : Locals} {p : List Entry} (hb : b.Pending p) (e : Entry) :
    (b.add e.key (encEntry e)).Pending (p ++ [e]) where
  dataBlock := by simp [Locals.add, hb.dataBlock]
  count := by simp [Locals.add, hb.count, UInt32.ofNat_add]
  lastKey _ := by rw [lastKey_append_singleton]; rfl

/-- What `writeDataBlocks` makes of its locals: the index of the blocks, the last key, the filter. -/
def Locals.final (b : Locals) (off : Nat) (p es : List Entry) : Locals where
  maxKey := if es = [] then b.maxKey else lastKey es
  index := b.index ++ indexOf off (cutBlocks p es)
  filterBitset := es.foldl (fun bs e => addKeyToFilter bs e.key) b.filterBitset

theorem blockFull_iff {b : Locals} {p : List Entry} (hb : b.Pending p) (hl : p.length < 2 ^ 32)
    (payload : Bytes) : blockFull b payload = true ↔
      9 < p.length ∧ DATA_BLOCK_MAX_SIZE < (p.flatMap encEntry).length + payload.length := by
  have hcount : b.entriesInBlock.toNat = p.length := by
    rw [hb.count, toNat_ofNat_uint32 hl]
  simp only [blockFull, hb.dataBlock, Bool.and_eq_true, decide_eq_true_eq, gt_iff_lt,
    UInt32.lt_iff_toNat_lt, hcount]
  exact Iff.rfl

/-- **The data-block loop**, from any state of the open block. -/
theorem writeDataBlocks_eq {es : List Entry} (hes : ∀ e ∈ es, e.persisted.Small) :
    ∀ {b : Locals} {p : List Entry}, b.Pending p → Bounded p → ∀ out : Bytes,
      ∃ b', writeDataBlocks es b out = .ok b' (out ++ (cutBlocks p es).flatMap encBlock) ∧
        b'.maxKey = (b.final out.length p es).maxKey ∧
        b'.index = (b.final out.length p es).index ∧
        b'.filterBitset = (b.final out.length p es).filterBitset := by
  induction es with
  | nil =>
    intro b p hb hl out
    simp only [writeDataBlocks, cutBlocks, Locals.final]
    by_cases hp : p = []
    · subst hp
      refine ⟨b, ?_, by simp [indexOf]⟩
      simp [flushDataBlock, hb.count, pure_run]
    · refine ⟨b.flushed out.length p, ?_, ?_⟩
      · rw [flushDataBlock_run hb hp hl.length_lt]
        simp [hp]
      · simp [Locals.flushed, hp]
  | cons e es ih =>
    intro b p hb hl out
    have he := hes e List.mem_cons_self
    have hes' : ∀ x ∈ es, x.persisted.Small := fun x hx => hes x (List.mem_cons_of_mem _ hx)
    have hll : lastKey (e :: es) = if es = [] then e.key else lastKey es := by
      cases es <;> simp [lastKey]
    have hiff := blockFull_iff hb hl.length_lt (encEntry e)
    simp only [writeDataBlocks, appendEntry_ok he, cutBlocks]
    by_cases hfull : 9 < p.length ∧
        DATA_BLOCK_MAX_SIZE < (p.flatMap encEntry).length + (encEntry e).length
    · have hp : p ≠ [] := by rintro rfl; simp at hfull
      obtain ⟨b', hrun, h1, h2, h3⟩ := ih hes' (b := (b.flushed out.length p).add e.key (encEntry e))
        (p := [e]) ⟨by simp [Locals.flushed, Locals.add], by simp [Locals.flushed, Locals.add],
          fun _ => by simp [Locals.flushed, Locals.add, lastKey]⟩ (bounded_of_length_le (by simp))
        (out ++ encBlock p)
      refine ⟨b', ?_, ?_, ?_, ?_⟩
      · rw [if_pos hfull, if_pos (hiff.2 hfull), bind_run, flushDataBlock_run hb hp hl.length_lt]
        simpa using hrun
      · rw [h1]
        simp only [Locals.final, Locals.add, hll, reduceCtorEq, ↓reduceIte]
      · rw [h2]
        simp only [Locals.final, Locals.add, Locals.flushed, cutBlocks]
        rw [if_pos hfull]
        simp [indexOf]
      · rw [h3]
        simp [Locals.final, Locals.add, Locals.flushed]
    · obtain ⟨b', hrun, h1, h2, h3⟩ := ih hes' (hb.add e) (bounded_snoc hfull) out
      refine ⟨b', ?_, ?_, ?_, ?_⟩
      · rw [if_neg hfull, if_neg (mt hiff.1 hfull), bind_run, pure_run]
        exact hrun
      · rw [h1]
        simp only [Locals.final, Locals.add, hll, reduceCtorEq, ↓reduceIte]
      · rw [h2]
        simp only [Locals.final, Locals.add, cutBlocks]
        rw [if_neg hfull]
      · rw [h3]
        simp [Locals.final, Locals.add]

theorem appendEntry_error {e : Entry} (he : ¬ e.persisted.Small) : ∃ f, appendEntry e = .error f := by
  have herr : ∀ s : Bytes, ¬ s.length < 2 ^ 32 →
      appendString s = .error (.runtimeError "string too large for data block") := fun s hs => by
    rw [appendString, if_pos (by unfold UINT32_MAX; omega)]
  have hv : (if e.tombstone then [] else e.val) = e.persisted.val := rfl
  by_cases hk : e.key.length < 2 ^ 32
  · have hval : ¬ e.persisted.val.length < 2 ^ 32 := fun h => he ⟨hk, h⟩
    simp only [appendEntry, hv, appendString_ok hk, herr _ hval]
    exact ⟨_, rfl⟩
  · simp only [appendEntry, herr _ hk]
    exact ⟨_, rfl⟩

theorem flushDataBlock_ok (b : Locals) (out : Bytes) : ∃ b' out', flushDataBlock b out = .ok b' out' := by
  unfold flushDataBlock
  split
  · exact ⟨_, _, rfl⟩
  · exact ⟨_, _, rfl⟩

theorem writeDataBlocks_error {es : List Entry} (h : ∃ e ∈ es, ¬ e.persisted.Small) :
    ∀ (b : Locals) (out : Bytes), ∃ f out', writeDataBlocks es b out = .error f out' := by
  induction es with
  | nil =>
    obtain ⟨e, he, -⟩ := h
    cases he
  | cons x es ih =>
    intro b out
    by_cases hx : x.persisted.Small
    · have hrest : ∃ e ∈ es, ¬ e.persisted.Small := by
        obtain ⟨e, he, hbig⟩ := h
        rcases List.mem_cons.1 he with rfl | he
        · exact absurd hx hbig
        · exact ⟨e, he, hbig⟩
      simp only [writeDataBlocks, appendEntry_ok hx]
      split
      · obtain ⟨b', out', hf⟩ := flushDataBlock_ok b out
        rw [bind_run, hf]
        exact ih hrest _ _
      · rw [bind_run, pure_run]
        exact ih hrest _ _
    · obtain ⟨f, hf⟩ := appendEntry_error hx
      simp only [writeDataBlocks, hf]
      exact ⟨f, out, rfl⟩

/-! ## The other blocks -/

theorem writeMetadataBlock_run {m : SSTableMetadata} (h1 : m.m_min_key.length < 2 ^ 32)
    (h2 : m.m_max_key.length < 2 ^ 32) (out : Bytes) :
    writeMetadataBlock m out =
      .ok ⟨UInt64.ofNat out.length, UInt64.ofNat (encMetadata m).length⟩ (out ++ encMetadata m) := by
  have hout : out ++ beBytes 8 m.m_file_number.toNat ++ beBytes 8 m.m_timestamp.toNat ++
      encString m.m_min_key ++ encString m.m_max_key = out ++ encMetadata m := by
    simp only [encMetadata, List.append_assoc]
  simp only [writeMetadataBlock, writeUint64BigEndian, bind_run, tellp_run, put_run,
    writeString_run h1, writeString_run h2, pure_run, hout]
  rw [List.length_append, ofNat_length_sub]

theorem writeIndexEntries_run {index : List IndexEntry}
    (h : ∀ ie ∈ index, ie.last_key.length < 2 ^ 32) (out : Bytes) :
    writeIndexEntries index out = .ok () (out ++ index.flatMap encIndexEntry) := by
  induction index generalizing out with
  | nil => simp [writeIndexEntries, pure_run]
  | cons ie index ih =>
    simp only [writeIndexEntries, bind_run, writeString_run (h ie List.mem_cons_self),
      writeHandle_run, ih fun x hx => h x (List.mem_cons_of_mem _ hx)]
    simp [encIndexEntry]

theorem writeIndexBlock_run {index : List IndexEntry}
    (h : ∀ ie ∈ index, ie.last_key.length < 2 ^ 32) (hl : index.length < 2 ^ 32) (out : Bytes) :
    writeIndexBlock index out =
      .ok ⟨UInt64.ofNat out.length, UInt64.ofNat (encIndex index).length⟩
        (out ++ encIndex index) := by
  have hle : ¬ index.length > UINT32_MAX := by unfold UINT32_MAX; omega
  have hout : out ++ beBytes 4 index.length ++ index.flatMap encIndexEntry =
      out ++ encIndex index := by
    simp only [encIndex, List.append_assoc]
  simp only [writeIndexBlock, if_neg hle, writeUint32BigEndian, bind_run, tellp_run, put_run,
    writeIndexEntries_run h, pure_run, toNat_ofNat_uint32 hl, hout]
  rw [List.length_append, ofNat_length_sub]

theorem writeIndexBlock_error {index : List IndexEntry} (h : ¬ index.length < 2 ^ 32) :
    ∃ f, ∀ out, writeIndexBlock index out = .error f out := by
  have hgt : index.length > UINT32_MAX := by unfold UINT32_MAX; omega
  refine ⟨.runtimeError "too many index entries", fun out => ?_⟩
  simp only [writeIndexBlock, bind_run, tellp_run, if_pos hgt]
  rfl

theorem writeFilterBlock_run {bitset : Bytes} (hl : bitset.length < 2 ^ 32) (out : Bytes) :
    writeFilterBlock bitset out =
      .ok ⟨UInt64.ofNat out.length, UInt64.ofNat (encFilter bitset).length⟩
        (out ++ encFilter bitset) := by
  have hle : ¬ bitset.length > UINT32_MAX := by unfold UINT32_MAX; omega
  have hout : out ++ beBytes 4 FILTER_NUM_BITS.toNat ++ beBytes 4 FILTER_NUM_HASHES.toNat ++
      beBytes 4 bitset.length ++ bitset = out ++ encFilter bitset := by
    simp only [encFilter, List.append_assoc]
  simp only [writeFilterBlock, if_neg hle, writeUint32BigEndian, bind_run, tellp_run, put_run,
    pure_run, toNat_ofNat_uint32 hl, hout]
  rw [List.length_append, ofNat_length_sub]

theorem writeFooter_run (f : Footer) (out : Bytes) :
    writeFooter f out = .ok () (out ++ encFooter f) := by
  simp only [writeFooter, bind_run, writeHandle_run, encFooter, List.append_assoc]

/-! ## The filter's bitset -/

theorem length_addKeyToFilter (bitset key : Bytes) :
    (addKeyToFilter bitset key).length = bitset.length := by
  unfold addKeyToFilter
  generalize List.range FILTER_NUM_HASHES.toNat = seeds
  induction seeds generalizing bitset with
  | nil => rfl
  | cons seed seeds ih => rw [List.foldl_cons, ih, length_setBit]

/-- The bitset of the filter over the keys of `es`. -/
def filterOf (es : List Entry) : Bytes :=
  es.foldl (fun bs e => addKeyToFilter bs e.key)
    (List.replicate ((FILTER_NUM_BITS.toNat + 7) / 8) 0)

theorem length_filterOf (es : List Entry) : (filterOf es).length = 1024 := by
  have key : ∀ bs : Bytes, (es.foldl (fun bs e => addKeyToFilter bs e.key) bs).length = bs.length := by
    induction es with
    | nil => exact fun _ => rfl
    | cons e es ih => exact fun bs => by rw [List.foldl_cons, ih, length_addKeyToFilter]
  unfold filterOf
  rw [key, List.length_replicate]
  rfl

/-! ## The table -/

/-- The blocks of a table. -/
def dataArea (es : List Entry) : Bytes := (cutBlocks [] es).flatMap encBlock

def metadataOf (es : List Entry) (timestamp : TimestampType) (fileNum : FileNumber) :
    SSTableMetadata := ⟨fileNum, timestamp, firstKey es, lastKey es⟩

def indexOfTable (es : List Entry) : List IndexEntry := indexOf 0 (cutBlocks [] es)

/-- The footer: the three blocks behind the data follow each other. -/
def footerOf (es : List Entry) (timestamp : TimestampType) (fileNum : FileNumber) : Footer :=
  let a := (dataArea es).length
  let m := (encMetadata (metadataOf es timestamp fileNum)).length
  let i := (encIndex (indexOfTable es)).length
  ⟨⟨UInt64.ofNat a, UInt64.ofNat m⟩, ⟨UInt64.ofNat (a + m), UInt64.ofNat i⟩,
    ⟨UInt64.ofNat (a + m + i), UInt64.ofNat (encFilter (filterOf es)).length⟩⟩

/-- The file of a table with these entries. -/
def encodeTable (es : List Entry) (timestamp : TimestampType) (fileNum : FileNumber) : Bytes :=
  dataArea es ++ encMetadata (metadataOf es timestamp fileNum) ++ encIndex (indexOfTable es) ++
    encFilter (filterOf es) ++ encFooter (footerOf es timestamp fileNum)

theorem mem_of_mem_cutBlocks {p es blk : List Entry} {e : Entry} (hb : blk ∈ cutBlocks p es)
    (he : e ∈ blk) : e ∈ p ++ es := by
  rw [← cutBlocks_flatten]
  exact List.mem_flatten_of_mem hb he

theorem length_cutBlocks_le (p es : List Entry) :
    (cutBlocks p es).length ≤ (p ++ es).length := by
  rw [← cutBlocks_flatten, List.length_flatten]
  have h : ∀ n ∈ (cutBlocks p es).map List.length, 1 ≤ n := by
    intro n hn
    obtain ⟨blk, hblk, rfl⟩ := List.mem_map.1 hn
    exact List.length_pos_iff.2 (cutBlocks_ne_nil hblk)
  have := List.length_le_sum_of_one_le _ h
  simpa using this

theorem lastKey_mem {es : List Entry} (h : es ≠ []) : ∃ e ∈ es, lastKey es = e.key := by
  refine ⟨es.getLast h, List.getLast_mem h, ?_⟩
  simp [lastKey, List.getLast?_eq_getLast_of_ne_nil h]

theorem length_indexOfTable_le (es : List Entry) : (indexOfTable es).length ≤ es.length := by
  rw [indexOfTable, length_indexOf]
  exact length_cutBlocks_le [] es

theorem length_indexOfTable_lt {es : List Entry} (h : es.length < 2 ^ 32) :
    (indexOfTable es).length < 2 ^ 32 := (length_indexOfTable_le es).trans_lt h

theorem last_key_indexOf {off : Nat} {blks : List (List Entry)} {ie : IndexEntry}
    (h : ie ∈ indexOf off blks) : ∃ blk ∈ blks, ie.last_key = lastKey blk := by
  induction blks generalizing off with
  | nil => cases h
  | cons blk blks ih =>
    rcases List.mem_cons.1 h with rfl | h
    · exact ⟨blk, List.mem_cons_self, rfl⟩
    · obtain ⟨b, hb, he⟩ := ih h
      exact ⟨b, List.mem_cons_of_mem _ hb, he⟩

/-- An exception in the middle leaves a part of the file, an empty table an empty one. -/
theorem writeBlocks_error {es : List Entry} (h : es = [] ∨ ∃ e ∈ es, ¬ e.persisted.Small)
    (timestamp : TimestampType) (fileNum : FileNumber) :
    ∃ f out, writeBlocks es timestamp fileNum [] = .error f out ∧ (es = [] → out = []) := by
  cases es with
  | nil => exact ⟨_, _, rfl, fun _ => rfl⟩
  | cons e es =>
    have hbig := h.resolve_left (by simp)
    obtain ⟨f, out, hf⟩ := writeDataBlocks_error hbig
      { filterBitset := List.replicate ((FILTER_NUM_BITS.toNat + 7) / 8) 0 } []
    simp only [writeBlocks, bind_run, hf]
    exact ⟨f, out, rfl, nofun⟩

/-- `writeTable` up to its metadata block, and what it does then. -/
theorem writeBlocks_run {es : List Entry} (hne : es ≠ []) (hsmall : ∀ e ∈ es, e.persisted.Small)
    (timestamp : TimestampType) (fileNum : FileNumber) :
    writeBlocks es timestamp fileNum [] =
      (do
        let indexHandle ← writeIndexBlock (indexOfTable es)
        let filterHandle ← writeFilterBlock (filterOf es)
        writeFooter ⟨⟨UInt64.ofNat (dataArea es).length,
          UInt64.ofNat (encMetadata (metadataOf es timestamp fileNum)).length⟩, indexHandle,
          filterHandle⟩ : OStream Unit)
        (dataArea es ++ encMetadata (metadataOf es timestamp fileNum)) := by
  obtain ⟨first, rest, rfl⟩ := List.exists_cons_of_ne_nil hne
  set es := first :: rest with hes
  obtain ⟨b, hrun, hmax, hindex, hfilter⟩ := writeDataBlocks_eq hsmall
    (b := { filterBitset := List.replicate ((FILTER_NUM_BITS.toNat + 7) / 8) 0 }) (p := [])
    ⟨rfl, rfl, fun h => absurd rfl h⟩ (bounded_of_length_le (Nat.zero_le _)) []
  simp only [Locals.final, hne, ↓reduceIte, List.nil_append, List.length_nil] at hrun hmax hindex hfilter
  have hmin : (firstKey es).length < 2 ^ 32 := (hsmall first List.mem_cons_self).1
  have hmaxl : (lastKey es).length < 2 ^ 32 := by
    obtain ⟨e, hem, hek⟩ := lastKey_mem hne
    rw [hek]
    exact (hsmall e hem).1
  show writeBlocks (first :: rest) timestamp fileNum [] = _
  simp only [writeBlocks, bind_run, ← hes, hrun, hmax, hindex, hfilter]
  rw [← dataArea, ← indexOfTable, ← filterOf]
  have hm : (⟨fileNum, timestamp, first.key, lastKey es⟩ : SSTableMetadata) =
      metadataOf es timestamp fileNum := rfl
  rw [hm, writeMetadataBlock_run hmin hmaxl]

/-- **`writeTable` writes `encodeTable`.** -/
theorem writeBlocks_eq {es : List Entry} (hne : es ≠ []) (hsmall : ∀ e ∈ es, e.persisted.Small)
    (hil : (indexOfTable es).length < 2 ^ 32) (timestamp : TimestampType) (fileNum : FileNumber) :
    writeBlocks es timestamp fileNum [] = .ok () (encodeTable es timestamp fileNum) := by
  have hkey : ∀ ie ∈ indexOfTable es, ie.last_key.length < 2 ^ 32 := by
    intro ie hie
    obtain ⟨blk, hblk, he⟩ := last_key_indexOf hie
    obtain ⟨e, hem, hek⟩ := lastKey_mem (cutBlocks_ne_nil hblk)
    rw [he, hek]
    exact (hsmall e (mem_of_mem_cutBlocks hblk hem)).1
  have hfl : (filterOf es).length < 2 ^ 32 := by rw [length_filterOf]; decide
  rw [writeBlocks_run hne hsmall]
  simp only [bind_run, writeIndexBlock_run hkey hil, writeFilterBlock_run hfl, writeFooter_run,
    List.length_append]
  rfl

/-- The entries that a file can hold: some, with strings whose lengths fit 32 bits, in as many blocks
as a count of 32 bits can tell. -/
structure Encodable (es : List Entry) : Prop where
  ne : es ≠ []
  small : ∀ e ∈ es, e.persisted.Small
  blocks : (indexOfTable es).length < 2 ^ 32

/-- **What `writeTable` does with any entries**: all of the file, or an exception in the middle. -/
theorem writeBlocks_cases (es : List Entry) (timestamp : TimestampType) (fileNum : FileNumber) :
    (Encodable es ∧ writeBlocks es timestamp fileNum [] = .ok () (encodeTable es timestamp fileNum)) ∨
    (¬ Encodable es ∧ ∃ f out, writeBlocks es timestamp fileNum [] = .error f out) := by
  by_cases hbad : es = [] ∨ ∃ e ∈ es, ¬ e.persisted.Small
  · refine .inr ⟨fun h => ?_, ?_⟩
    · obtain hnil | ⟨e, he, hbig⟩ := hbad
      · exact h.ne hnil
      · exact hbig (h.small e he)
    · obtain ⟨f, out, hf, -⟩ := writeBlocks_error hbad timestamp fileNum
      exact ⟨f, out, hf⟩
  · obtain ⟨hne, hall⟩ := not_or.1 hbad
    have hsmall : ∀ e ∈ es, e.persisted.Small := fun e he => not_not.1 fun hn => hall ⟨e, he, hn⟩
    by_cases hil : (indexOfTable es).length < 2 ^ 32
    · exact .inl ⟨⟨hne, hsmall, hil⟩, writeBlocks_eq hne hsmall hil timestamp fileNum⟩
    · refine .inr ⟨fun h => hil h.blocks, ?_⟩
      obtain ⟨f, hf⟩ := writeIndexBlock_error hil
      rw [writeBlocks_run hne hsmall, bind_run, hf]
      exact ⟨f, _, rfl⟩

/-! ## The size of a table -/

theorem length_flatMap_encBlock (blks : List (List Entry)) :
    (blks.flatMap encBlock).length = 4 * blks.length + (blks.flatten.flatMap encEntry).length := by
  induction blks with
  | nil => rfl
  | cons blk blks ih =>
    simp only [List.flatMap_cons, List.flatten_cons, List.flatMap_append, List.length_append,
      List.length_cons, ih, encBlock, length_beBytes]
    omega

/-- Fewer than `2 ^ 31` entries with strings of at most `2 ^ 30` bytes make a file whose size the
reader can tell. -/
theorem length_encodeTable_lt {es : List Entry} (hlen : es.length < 2 ^ 31)
    (hkey : ∀ e ∈ es, e.key.length ≤ 2 ^ 30) (hval : ∀ e ∈ es, e.persisted.val.length ≤ 2 ^ 30)
    (timestamp : TimestampType) (fileNum : FileNumber) :
    (encodeTable es timestamp fileNum).length < 2 ^ 63 := by
  have hblks : (cutBlocks [] es).length ≤ es.length := by
    simpa using length_cutBlocks_le [] es
  have hentries : (es.flatMap encEntry).length ≤ es.length * (9 + 2 * 2 ^ 30) := by
    apply length_flatMap_le
    intro e he
    have := hkey e he
    have := hval e he
    simp only [encEntry, List.length_append, length_encString, List.length_singleton]
    omega
  have hdata : (dataArea es).length ≤ 4 * es.length + es.length * (9 + 2 * 2 ^ 30) := by
    rw [dataArea, length_flatMap_encBlock, cutBlocks_flatten, List.nil_append]
    omega
  have hlast : ∀ l : List Entry, l ≠ [] → (∀ e ∈ l, e ∈ es) → (lastKey l).length ≤ 2 ^ 30 := by
    intro l hl hsub
    obtain ⟨e, he, hk⟩ := lastKey_mem hl
    rw [hk]
    exact hkey e (hsub e he)
  have hindex : (encIndex (indexOfTable es)).length ≤ 4 + es.length * (20 + 2 ^ 30) := by
    have hone : ((indexOfTable es).flatMap encIndexEntry).length ≤
        (indexOfTable es).length * (20 + 2 ^ 30) := by
      apply length_flatMap_le
      intro ie hie
      obtain ⟨blk, hblk, he⟩ := last_key_indexOf hie
      have := hlast blk (cutBlocks_ne_nil hblk) fun e he => mem_of_mem_cutBlocks hblk he
      simp only [encIndexEntry, List.length_append, length_encString, length_encHandle, he]
      omega
    rw [indexOfTable, length_indexOf] at hone
    rw [encIndex, List.length_append, length_beBytes, indexOfTable]
    have := Nat.mul_le_mul_right (20 + 2 ^ 30) hblks
    omega
  have hmeta : (encMetadata (metadataOf es timestamp fileNum)).length ≤ 24 + 2 * 2 ^ 30 := by
    have hfirst : (firstKey es).length ≤ 2 ^ 30 := by
      cases es with
      | nil => simp [firstKey]
      | cons e es => exact hkey e List.mem_cons_self
    have hlast : (lastKey es).length ≤ 2 ^ 30 := by
      cases es with
      | nil => simp [lastKey]
      | cons e es => exact hlast _ (by simp) fun _ h => h
    simp only [encMetadata, metadataOf, List.length_append, length_beBytes, length_encString]
    omega
  have hfilter : (encFilter (filterOf es)).length = 1036 := by
    simp only [encFilter, List.length_append, length_beBytes, length_filterOf]
  simp only [encodeTable, List.length_append, length_encFooter, FOOTER_ENCODED_SIZE]
  omega

theorem length_lt_of_writeBlocks {es : List Entry} (hne : es ≠ []) (hlen : es.length < 2 ^ 31)
    (hes : ∀ e ∈ es, e.key.length ≤ 2 ^ 30 ∧ e.val.length ≤ 2 ^ 30) {timestamp : TimestampType}
    {fileNum : FileNumber} {file : Bytes}
    (h : writeBlocks es timestamp fileNum [] = .ok () file) : file.length < 2 ^ 63 := by
  have hval : ∀ e ∈ es, e.persisted.val.length ≤ 2 ^ 30 :=
    fun e he => e.length_persisted_val_le.trans (hes e he).2
  have hsmall : ∀ e ∈ es, e.persisted.Small := by
    intro e he
    have hk : e.persisted.key.length ≤ 2 ^ 30 := (hes e he).1
    have hv := hval e he
    exact ⟨by omega, by omega⟩
  rw [writeBlocks_eq hne hsmall (length_indexOfTable_lt (by omega))] at h
  obtain ⟨-, rfl⟩ := EStateM.Result.ok.inj h
  exact length_encodeTable_lt hlen (fun e he => (hes e he).1) hval timestamp fileNum

end BlockBasedTableFormat

end TinyKv
