import TinyKv.Lib.Parse
import TinyKv.Table.BlockBased.Reader
import TinyKv.Table.BlockBased.Proof.Layout

/-!
# What the block-based reader accepts

The constructor of `BlockBasedTableReader` takes whatever stands at the end of the file for the
footer. `construct_iff`: it succeeds exactly on the files that end in the encoding of a footer whose
three handles point at encodings of a filter, an index and a metadata block, each of the size that
its handle says; on every other file it throws. Nothing ties these blocks to the bytes before them.

`construct_memory`: where memory is not granted it does the same or ends in `std::bad_alloc`.
-/

namespace TinyKv

open Bytes BlockBasedTableFormat FileReader

namespace BlockBasedTableReader

/-! ## The readers of the parts -/

theorem parses_read (n : Nat) (what : Bytes) :
    Parses Fault.IsThrown (read n what) fun a bs => bs = a ∧ a.length = n := by
  refine ⟨fun file pos a pos' => ?_, fun file pos f h => ?_⟩
  · unfold read
    refine ⟨fun h => ?_, fun henc => ?_⟩
    · split at h
      · rename_i hn
        cases h
        have hlen : ((file.drop pos).take n).length = n := by
          rw [List.length_take, List.length_drop]
          omega
        exact ⟨_, ⟨rfl, hlen⟩, List.take_prefix _ _, by rw [hlen]⟩
      · cases h
    · obtain ⟨bs, ⟨rfl, rfl⟩, hp, rfl⟩ := henc
      have hle := hp.length_le
      rw [List.length_drop] at hle
      rw [if_pos hle, ← List.prefix_iff_eq_take.1 hp]
  · unfold read at h
    split at h
    · cases h
    · cases h
      exact ⟨what, rfl⟩

theorem parses_readUint64 :
    Parses Fault.IsThrown readUint64BigEndian fun v bs => bs = beBytes 8 v.toNat := by
  refine (parses_read 8 _).bind_pure.congr fun v bs => ?_
  refine ⟨fun henc => ?_, ?_⟩
  · obtain ⟨a, ⟨rfl, hlen⟩, rfl⟩ := henc
    have hlt := beNat_lt bs
    have hback := beBytes_beNat bs
    rw [hlen] at hlt hback
    rw [toNat_ofNat_uint64 hlt, hback]
  · rintro rfl
    exact ⟨_, ⟨rfl, length_beBytes 8 _⟩, (ofNat_beNat_beBytes_uint64 v).symm⟩

theorem parses_readUint32 :
    Parses Fault.IsThrown readUint32BigEndian fun v bs => bs = beBytes 4 v.toNat := by
  refine (parses_read 4 _).bind_pure.congr fun v bs => ?_
  refine ⟨fun henc => ?_, ?_⟩
  · obtain ⟨a, ⟨rfl, hlen⟩, rfl⟩ := henc
    have hlt := beNat_lt bs
    have hback := beBytes_beNat bs
    rw [hlen] at hlt hback
    rw [toNat_ofNat_uint32 hlt, hback]
  · rintro rfl
    exact ⟨_, ⟨rfl, length_beBytes 4 _⟩, (ofNat_beNat_beBytes_uint32 v).symm⟩

theorem parses_counted (what : Bytes) :
    Parses Fault.IsThrown (readUint32BigEndian >>= fun size => read size.toNat what)
      fun s bs => bs = encString s ∧ s.length < 2 ^ 32 := by
  refine (parses_readUint32.bind fun size => parses_read size.toNat what).congr fun s bs => ?_
  refine ⟨fun henc => ?_, fun henc => ?_⟩
  · obtain ⟨size, bs₁, bs₂, rfl, ⟨rfl, hlen⟩, rfl⟩ := henc
    have := size.toNat_lt
    exact ⟨by rw [encString, hlen], by omega⟩
  · obtain ⟨rfl, hlen⟩ := henc
    exact ⟨UInt32.ofNat s.length, _, s, rfl, ⟨rfl, (toNat_ofNat_uint32 hlen).symm⟩,
      by rw [toNat_ofNat_uint32 hlen, encString]⟩

theorem parses_readString :
    Parses Fault.IsThrown readString fun s bs => bs = encString s ∧ s.length < 2 ^ 32 :=
  parses_counted _

theorem parses_readBlockHandle :
    Parses Fault.IsThrown readBlockHandle fun h bs => bs = encHandle h := by
  refine (parses_readUint64.bind fun offset => parses_readUint64.bind_pure).congr fun h bs => ?_
  refine ⟨fun henc => ?_, ?_⟩
  · obtain ⟨offset, bs₁, bs₂, rfl, ⟨size, rfl, rfl⟩, rfl⟩ := henc
    rfl
  · rintro rfl
    exact ⟨h.offset, _, _, rfl, ⟨h.size, rfl, rfl⟩, rfl⟩

/-! ## The blocks -/

/-- The bytes of a metadata block. -/
def EncodesMetadata (m : SSTableMetadata) (bs : Bytes) : Prop :=
  bs = encMetadata m ∧ m.m_min_key.length < 2 ^ 32 ∧ m.m_max_key.length < 2 ^ 32

/-- The bytes of an index block. -/
def EncodesIndex (index : List IndexEntry) (bs : Bytes) : Prop :=
  bs = encIndex index ∧ index.length < 2 ^ 32 ∧ ∀ ie ∈ index, ie.last_key.length < 2 ^ 32

/-- The bytes of a filter block. -/
def EncodesFilter (filter : FilterBlock) (bs : Bytes) : Prop :=
  bs = beBytes 4 filter.num_bits.toNat ++ (beBytes 4 filter.num_hashes.toNat ++
    encString filter.bitset) ∧ filter.bitset.length < 2 ^ 32

theorem parses_metadata : Parses Fault.IsThrown
    (do
      let fileNumber ← readUint64BigEndian
      let timestamp ← readUint64BigEndian
      let minKey ← readString
      let maxKey ← readString
      return ⟨fileNumber, timestamp, minKey, maxKey⟩ : IStream SSTableMetadata)
    EncodesMetadata := by
  refine (parses_readUint64.bind fun fileNumber => parses_readUint64.bind fun timestamp =>
    parses_readString.bind fun minKey => parses_readString.bind_pure).congr fun m bs => ?_
  refine ⟨fun henc => ?_, fun henc => ?_⟩
  · obtain ⟨num, _, _, rfl, ⟨ts, _, _, rfl, ⟨minKey, _, _, ⟨rfl, hmin⟩, ⟨maxKey, ⟨rfl, hmax⟩,
      rfl⟩, rfl⟩, rfl⟩, rfl⟩ := henc
    exact ⟨by simp only [encMetadata, List.append_assoc], hmin, hmax⟩
  · obtain ⟨rfl, hmin, hmax⟩ := henc
    exact ⟨_, _, _, rfl, ⟨_, _, _, rfl, ⟨_, _, _, ⟨rfl, hmin⟩, ⟨_, ⟨rfl, hmax⟩, rfl⟩, rfl⟩, rfl⟩,
      by simp only [encMetadata, List.append_assoc]⟩

theorem parses_readIndexEntries (n : Nat) :
    Parses Fault.IsThrown (readIndexEntries n) fun index bs => index.length = n ∧
      bs = index.flatMap encIndexEntry ∧ ∀ ie ∈ index, ie.last_key.length < 2 ^ 32 := by
  induction n with
  | zero =>
    refine (Parses.pure _ []).congr fun index bs => ?_
    refine ⟨fun henc => ?_, fun henc => ?_⟩
    · obtain ⟨rfl, rfl⟩ := henc
      exact ⟨rfl, rfl, nofun⟩
    · obtain ⟨hlen, rfl, -⟩ := henc
      obtain rfl := List.length_eq_zero_iff.1 hlen
      exact ⟨rfl, rfl⟩
  | succ n ih =>
    refine (parses_readString.bind fun last_key => parses_readBlockHandle.bind fun block =>
      ih.bind_pure).congr fun index bs => ?_
    refine ⟨fun henc => ?_, fun henc => ?_⟩
    · obtain ⟨key, _, _, ⟨rfl, hkey⟩, ⟨block, _, _, rfl, ⟨index, ⟨rfl, rfl, hall⟩, rfl⟩, rfl⟩,
        rfl⟩ := henc
      refine ⟨rfl, by simp only [List.flatMap_cons, encIndexEntry, List.append_assoc], ?_⟩
      intro ie hie
      rcases List.mem_cons.1 hie with rfl | hie
      · exact hkey
      · exact hall ie hie
    · obtain ⟨hlen, rfl, hall⟩ := henc
      obtain ⟨ie, index, rfl⟩ := List.exists_cons_of_length_eq_add_one hlen
      refine ⟨ie.last_key, _, _, ⟨rfl, hall ie List.mem_cons_self⟩, ⟨ie.block, _, _, rfl,
        ⟨index, ⟨Nat.succ.inj hlen, rfl, fun x hx => hall x (List.mem_cons_of_mem _ hx)⟩, rfl⟩,
        rfl⟩, by simp only [List.flatMap_cons, encIndexEntry, List.append_assoc]⟩

theorem parses_index : Parses Fault.IsThrown
    (do
      let numEntries ← readUint32BigEndian
      readIndexEntries numEntries.toNat : IStream (List IndexEntry)) EncodesIndex := by
  refine (parses_readUint32.bind fun numEntries =>
    parses_readIndexEntries numEntries.toNat).congr fun index bs => ?_
  refine ⟨fun henc => ?_, fun henc => ?_⟩
  · obtain ⟨num, _, _, rfl, ⟨hlen, rfl, hall⟩, rfl⟩ := henc
    have := num.toNat_lt
    exact ⟨by rw [encIndex, hlen], by omega, hall⟩
  · obtain ⟨rfl, hlen, hall⟩ := henc
    exact ⟨UInt32.ofNat index.length, _, _, rfl, ⟨(toNat_ofNat_uint32 hlen).symm, rfl, hall⟩,
      by rw [toNat_ofNat_uint32 hlen, encIndex]⟩

theorem parses_filter (what : Bytes) : Parses Fault.IsThrown
    (do
      let num_bits ← readUint32BigEndian
      let num_hashes ← readUint32BigEndian
      let bitsetSize ← readUint32BigEndian
      let bitset ← read bitsetSize.toNat what
      return ⟨num_bits, num_hashes, bitset⟩ : IStream FilterBlock) EncodesFilter := by
  have hassoc : (do
      let num_bits ← readUint32BigEndian
      let num_hashes ← readUint32BigEndian
      let bitsetSize ← readUint32BigEndian
      let bitset ← read bitsetSize.toNat what
      return ⟨num_bits, num_hashes, bitset⟩ : IStream FilterBlock) = (do
      let num_bits ← readUint32BigEndian
      let num_hashes ← readUint32BigEndian
      let bitset ← readUint32BigEndian >>= fun size => read size.toNat what
      return ⟨num_bits, num_hashes, bitset⟩) := by
    simp only [bind_assoc]
  rw [hassoc]
  refine (parses_readUint32.bind fun num_bits => parses_readUint32.bind fun num_hashes =>
    (parses_counted what).bind_pure).congr fun filter bs => ?_
  refine ⟨fun henc => ?_, fun henc => ?_⟩
  · obtain ⟨bits, _, _, rfl, ⟨hashes, _, _, rfl, ⟨bitset, ⟨rfl, hlen⟩, rfl⟩, rfl⟩, rfl⟩ := henc
    exact ⟨rfl, hlen⟩
  · obtain ⟨rfl, hlen⟩ := henc
    exact ⟨_, _, _, rfl, ⟨_, _, _, rfl, ⟨_, ⟨rfl, hlen⟩, rfl⟩, rfl⟩, rfl⟩

theorem parses_footer : Parses Fault.IsThrown
    (do
      let metadata_block ← readBlockHandle
      let index_block ← readBlockHandle
      let filter_block ← readBlockHandle
      return ⟨metadata_block, index_block, filter_block⟩ : IStream Footer)
    fun footer bs => bs = encFooter footer := by
  refine (parses_readBlockHandle.bind fun metadata_block => parses_readBlockHandle.bind
    fun index_block => parses_readBlockHandle.bind_pure).congr fun footer bs => ?_
  refine ⟨fun henc => ?_, ?_⟩
  · obtain ⟨m, _, _, rfl, ⟨i, _, _, rfl, ⟨f, rfl, rfl⟩, rfl⟩, rfl⟩ := henc
    simp only [encFooter, List.append_assoc]
  · rintro rfl
    exact ⟨_, _, _, rfl, ⟨_, _, _, rfl, ⟨_, rfl, rfl⟩, rfl⟩, by simp only [encFooter, List.append_assoc]⟩

/-! ## Blocks at their handles -/

/-- The file has the bytes `bs` where the handle says, and as many as it says. -/
structure BlockAt (file : Bytes) (handle : BlockHandle) (bs : Bytes) : Prop where
  present : ¬ (handle.offset = 0 ∧ handle.size = 0)
  seekable : handle.offset.toNat < 2 ^ 63
  bytes : bs <+: file.drop handle.offset.toNat
  size : UInt64.ofNat bs.length = handle.size

section

variable {α : Type} {name : String} {handle : BlockHandle} {path : TablePath} {body : IStream α}
  {Enc : α → Bytes → Prop}

theorem readBlock_run (name : String) (handle : BlockHandle) (path : TablePath) (body : IStream α)
    (file : Bytes) (pos : Nat) : readBlock name handle path body file pos =
      if handle.offset = 0 ∧ handle.size = 0 then
        .error (.runtimeError (about ("missing " ++ name ++ " block") path))
      else if handle.offset.toNat < 2 ^ 63 then
        match body file handle.offset.toNat with
        | .ok (a, stop) =>
          if UInt64.ofNat (stop - handle.offset.toNat) = handle.size then .ok (a, stop)
          else .error (.runtimeError (about (name ++ " block size mismatch") path))
        | .error f => .error f
      else .error (.runtimeError (about ("failed to seek " ++ name ++ " block") path)) := by
  unfold readBlock
  by_cases hz : handle.offset = 0 ∧ handle.size = 0
  · simp only [if_pos hz, run_bind, fail]
  · simp only [if_neg hz, run_bind, seekg, tellg]
    by_cases hs : handle.offset.toNat < 2 ^ 63
    · simp only [if_pos hs]
      cases body file handle.offset.toNat with
      | error f => rfl
      | ok r =>
        obtain ⟨a, stop⟩ := r
        by_cases hm : UInt64.ofNat (stop - handle.offset.toNat) = handle.size
        · simp only [ne_eq, hm, not_true_eq_false, ↓reduceIte]
          rfl
        · simp only [ne_eq, hm, not_false_eq_true, ↓reduceIte]
          rfl
    · simp only [if_neg hs]

/-- **A block reader** accepts the blocks at its handle. -/
theorem readBlock_ok_iff (h : Parses Fault.IsThrown body Enc) (file : Bytes) (pos : Nat) (a : α)
    (pos' : Nat) : readBlock name handle path body file pos = .ok (a, pos') ↔
      ∃ bs, Enc a bs ∧ BlockAt file handle bs ∧ pos' = handle.offset.toNat + bs.length := by
  rw [readBlock_run]
  refine ⟨fun hrun => ?_, fun henc => ?_⟩
  · split at hrun
    · cases hrun
    · rename_i hz
      split at hrun
      · rename_i hs
        split at hrun
        · rename_i a' stop hbody
          obtain ⟨bs, henc, hp, rfl⟩ := (h.ok_iff ..).1 hbody
          split at hrun
          · rename_i hsize
            cases hrun
            rw [Nat.add_sub_cancel_left] at hsize
            exact ⟨bs, henc, ⟨hz, hs, hp, hsize⟩, rfl⟩
          · cases hrun
        · cases hrun
      · cases hrun
  · obtain ⟨bs, henc, hat, rfl⟩ := henc
    have hbody := (h.ok_iff file handle.offset.toNat a _).2 ⟨bs, henc, hat.bytes, rfl⟩
    rw [if_neg hat.present, if_pos hat.seekable, hbody]
    dsimp only
    rw [Nat.add_sub_cancel_left, if_pos hat.size]

theorem readBlock_thrown (h : Parses Fault.IsThrown body Enc) {file : Bytes} {pos : Nat} {f : Fault}
    (hf : readBlock name handle path body file pos = .error f) : f.IsThrown := by
  rw [readBlock_run] at hf
  split at hf
  · cases hf
    exact ⟨_, rfl⟩
  · split at hf
    · split at hf
      · split at hf
        · cases hf
        · cases hf
          exact ⟨_, rfl⟩
      · rename_i f' hbody
        cases hf
        exact h.bad _ _ _ hbody
    · cases hf
      exact ⟨_, rfl⟩

end

theorem readFooter_ok_iff (path : TablePath) (file : Bytes) (pos : Nat) (footer : Footer)
    (pos' : Nat) : readFooter path file pos = .ok (footer, pos') ↔
      encFooter footer <:+ file ∧ pos' = file.length := by
  unfold readFooter
  by_cases hl : file.length < FOOTER_ENCODED_SIZE
  · rw [if_pos hl]
    refine ⟨nofun, fun ⟨hs, _⟩ => ?_⟩
    have := hs.length_le
    rw [length_encFooter] at this
    omega
  · rw [if_neg hl, parses_footer.ok_iff]
    have hlen : (file.drop (file.length - FOOTER_ENCODED_SIZE)).length =
        (encFooter footer).length := by
      rw [List.length_drop, length_encFooter]
      omega
    refine ⟨fun henc => ?_, fun henc => ?_⟩
    · obtain ⟨bs, rfl, hp, rfl⟩ := henc
      rw [hp.eq_of_length hlen.symm]
      refine ⟨List.drop_suffix _ _, ?_⟩
      rw [hlen, length_encFooter]
      omega
    · obtain ⟨⟨t, rfl⟩, rfl⟩ := henc
      have ht : (t ++ encFooter footer).length - FOOTER_ENCODED_SIZE = t.length := by
        rw [List.length_append, length_encFooter, Nat.add_sub_cancel]
      refine ⟨_, rfl, ?_, ?_⟩
      · rw [ht, List.drop_left]
      · rw [ht, List.length_append]

/-! ## The constructor -/

/-- The file ends in a footer, and its handles point at the blocks of the reader. -/
structure LooksWhole (file : Bytes) (r : BlockBasedTableReader) : Prop where
  footer : encFooter r.m_footer <:+ file
  filter : ∃ bs, EncodesFilter r.m_filter bs ∧ BlockAt file r.m_footer.filter_block bs
  index : ∃ bs, EncodesIndex r.m_index bs ∧ BlockAt file r.m_footer.index_block bs
  metadata : ∃ bs, EncodesMetadata r.m_meta bs ∧ BlockAt file r.m_footer.metadata_block bs

/-- **What the constructor accepts**: the files that look whole from their end. -/
theorem construct_iff (file : Bytes) (path : TablePath) (r : BlockBasedTableReader) :
    construct file path = .ok r ↔ r.m_fullPath = path ∧ LooksWhole file r := by
  refine ⟨fun h => ?_, fun henc => ?_⟩
  · simp only [construct, bind, Except.bind] at h
    split at h
    · cases h
    · rename_i x hfooter
      obtain ⟨footer, pos⟩ := x
      split at h
      · cases h
      · rename_i x hfilter
        obtain ⟨filter, pos1⟩ := x
        split at h
        · cases h
        · rename_i x hindex
          obtain ⟨index, pos2⟩ := x
          split at h
          · cases h
          · rename_i x hmeta
            obtain ⟨metadata, pos3⟩ := x
            cases h
            obtain ⟨fb, hf, hfat, -⟩ := (readBlock_ok_iff (parses_filter _) ..).1 hfilter
            obtain ⟨ib, hi, hiat, -⟩ := (readBlock_ok_iff parses_index ..).1 hindex
            obtain ⟨mb, hm, hmat, -⟩ := (readBlock_ok_iff parses_metadata ..).1 hmeta
            exact ⟨rfl, ((readFooter_ok_iff ..).1 hfooter).1, ⟨fb, hf, hfat⟩, ⟨ib, hi, hiat⟩,
              ⟨mb, hm, hmat⟩⟩
  · obtain ⟨rfl, hfooter, ⟨fb, hf, hfat⟩, ⟨ib, hi, hiat⟩, ⟨mb, hm, hmat⟩⟩ := henc
    have h1 := (readFooter_ok_iff r.m_fullPath file 0 r.m_footer _).2 ⟨hfooter, rfl⟩
    have h2 : ∀ pos, readFilterBlock r.m_footer.filter_block r.m_fullPath .all file pos = .ok _ :=
      fun pos => (readBlock_ok_iff (parses_filter _) ..).2 ⟨fb, hf, hfat, rfl⟩
    have h3 : ∀ pos, readIndexBlock r.m_footer.index_block r.m_fullPath .all file pos = .ok _ :=
      fun pos => (readBlock_ok_iff parses_index ..).2 ⟨ib, hi, hiat, rfl⟩
    have h4 : ∀ pos, readMetadataBlock r.m_footer.metadata_block r.m_fullPath .all file pos = .ok _ :=
      fun pos => (readBlock_ok_iff parses_metadata ..).2 ⟨mb, hm, hmat, rfl⟩
    simp only [construct, bind, Except.bind, h1, h2, h3, h4]
    rfl

theorem construct_thrown {file : Bytes} {path : TablePath} {f : Fault}
    (h : construct file path = .error f) : f.IsThrown := by
  simp only [construct, bind, Except.bind] at h
  split at h
  · rename_i f' hfooter
    cases h
    unfold readFooter at hfooter
    split at hfooter
    · cases hfooter
      exact ⟨_, rfl⟩
    · exact parses_footer.bad _ _ _ hfooter
  · split at h
    · rename_i f' hfilter
      cases h
      exact readBlock_thrown (parses_filter _) hfilter
    · split at h
      · rename_i f' hindex
        cases h
        exact readBlock_thrown parses_index hindex
      · split at h
        · rename_i f' hmeta
          cases h
          exact readBlock_thrown parses_metadata hmeta
        · cases h

/-! ## Memory -/

section

variable (memory : Memory)

theorem allocate_memory (n : Nat) : FailsMore .badAlloc (allocate memory n) (allocate .all n) := by
  intro file pos
  rw [allocate_all, allocate]
  split
  · exact .inl rfl
  · exact .inr rfl

theorem readString_memory : FailsMore .badAlloc (readString memory) readString :=
  (FailsMore.refl _ _).bind fun size => (allocate_memory memory size.toNat).bind fun _ => .refl _ _

theorem readIndexEntries_memory (n : Nat) :
    FailsMore .badAlloc (readIndexEntries n memory) (readIndexEntries n) := by
  induction n with
  | zero => exact .refl _ _
  | succ n ih =>
    exact (readString_memory memory).bind fun _ => (FailsMore.refl _ _).bind fun _ =>
      ih.bind fun _ => .refl _ _

theorem readBlock_memory {α : Type} {name : String} {handle : BlockHandle} {path : TablePath}
    {body body' : IStream α} (h : FailsMore .badAlloc body body') :
    FailsMore .badAlloc (readBlock name handle path body) (readBlock name handle path body') := by
  intro file pos
  simp only [readBlock_run]
  split
  · exact .inl rfl
  · split
    · obtain heq | hbad := h file handle.offset.toNat
      · exact .inl (by rw [heq])
      · exact .inr (by rw [hbad])
    · exact .inl rfl

theorem readFilterBlock_memory (handle : BlockHandle) (path : TablePath) :
    FailsMore .badAlloc (readFilterBlock handle path memory) (readFilterBlock handle path) :=
  readBlock_memory ((FailsMore.refl _ _).bind fun _ => (FailsMore.refl _ _).bind fun _ =>
    (FailsMore.refl _ _).bind fun bitsetSize => (allocate_memory memory bitsetSize.toNat).bind fun _ =>
    (FailsMore.refl _ _).bind fun _ => .refl _ _)

theorem readIndexBlock_memory (handle : BlockHandle) (path : TablePath) :
    FailsMore .badAlloc (readIndexBlock handle path memory) (readIndexBlock handle path) :=
  readBlock_memory ((FailsMore.refl _ _).bind fun numEntries =>
    (allocate_memory memory (numEntries.toNat * INDEX_ENTRY_SIZE)).bind fun _ =>
    readIndexEntries_memory memory numEntries.toNat)

theorem readMetadataBlock_memory (handle : BlockHandle) (path : TablePath) :
    FailsMore .badAlloc (readMetadataBlock handle path memory) (readMetadataBlock handle path) :=
  readBlock_memory ((FailsMore.refl _ _).bind fun _ => (FailsMore.refl _ _).bind fun _ =>
    (readString_memory memory).bind fun _ => (readString_memory memory).bind fun _ => .refl _ _)

/-- **The constructor without its memory** does the same or ends in `std::bad_alloc`. -/
theorem construct_memory (file : Bytes) (path : TablePath) :
    construct file path memory = construct file path ∨
      construct file path memory = .error .badAlloc := by
  simp only [construct, bind, Except.bind]
  cases readFooter path file 0 with
  | error f => exact .inl rfl
  | ok r =>
    obtain ⟨footer, pos⟩ := r
    dsimp only
    obtain hf | hf := readFilterBlock_memory memory footer.filter_block path file pos
    · rw [hf]
      cases readFilterBlock footer.filter_block path .all file pos with
      | error f => exact .inl rfl
      | ok r =>
        obtain ⟨filter, pos⟩ := r
        dsimp only
        obtain hi | hi := readIndexBlock_memory memory footer.index_block path file pos
        · rw [hi]
          cases readIndexBlock footer.index_block path .all file pos with
          | error f => exact .inl rfl
          | ok r =>
            obtain ⟨index, pos⟩ := r
            dsimp only
            obtain hm | hm := readMetadataBlock_memory memory footer.metadata_block path file pos
            · exact .inl (by rw [hm])
            · exact .inr (by rw [hm])
        · exact .inr (by rw [hi])
    · exact .inr (by rw [hf])

end

end BlockBasedTableReader

end TinyKv
