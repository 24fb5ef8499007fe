import TinyKv.Lib.Search
import TinyKv.Table.BlockBased.Format

/-!
# Reading a block-based table

`block_based_table_reader.cpp`. The constructor reads footer, filter, index and metadata; `get`
opens the file again, finds the data block by its last key and scans it.

`IStream` is an `ifstream` over the bytes of the file; its state is the position. A read that
finds too few bytes fails, and every caller throws at once; a seek fails on an offset that is
negative as a `streamoff`.

The constructor takes memory for a length that the file declares before it reads what should be
there. `Memory` says which of these requests are granted; where it is not given, all are.
-/

namespace TinyKv

open Bytes

/-- `BlockBasedTableReader`. -/
structure BlockBasedTableReader where
  m_fullPath : TablePath
  m_footer : Footer
  m_meta : SSTableMetadata
  m_index : List IndexEntry
  m_filter : FilterBlock
  deriving DecidableEq

namespace BlockBasedTableReader

/-! ## Streams -/

abbrev IStream := ReaderT Bytes (StateT Nat (Except Fault))

/-- `input.read` of `n` bytes. -/
def read (n : Nat) (what : Bytes) : IStream Bytes := fun file pos =>
  if n ≤ file.length - pos then .ok ((file.drop pos).take n, pos + n)
  else .error (.runtimeError what)

/-- `input.seekg(static_cast<std::streamoff>(offset), std::ios::beg)`. -/
def seekg (offset : UInt64) (what : Bytes) : IStream Unit := fun _ _ =>
  if offset.toNat < 2 ^ 63 then .ok ((), offset.toNat) else .error (.runtimeError what)

def tellg : IStream Nat := fun _ pos => .ok (pos, pos)

def fail {α : Type} (what : Bytes) : IStream α := fun _ _ => .error (.runtimeError what)

/-- Whether memory is granted, by the position of the stream and the number of bytes. -/
abbrev Memory := Nat → Nat → Bool

def Memory.all : Memory := fun _ _ => true

/-- `resize` or `reserve`, which take `n` bytes. -/
def allocate (memory : Memory) (n : Nat) : IStream Unit := fun _ pos =>
  if memory pos n then .ok ((), pos) else .error .badAlloc

theorem allocate_all (n : Nat) (file : Bytes) (pos : Nat) :
    allocate .all n file pos = .ok ((), pos) := rfl

def readUint64BigEndian : IStream UInt64 := do
  return UInt64.ofNat (beNat (← read 8 "failed to read uint64"))

def readUint32BigEndian : IStream UInt32 := do
  return UInt32.ofNat (beNat (← read 4 "failed to read uint32"))

def readString (memory : Memory := .all) : IStream Bytes := do
  let size ← readUint32BigEndian
  allocate memory size.toNat
  read size.toNat "failed to read string"

def readBlockHandle : IStream BlockHandle := do
  let offset ← readUint64BigEndian
  let size ← readUint64BigEndian
  return ⟨offset, size⟩

/-- The text of an exception about a file. -/
def about (what : String) (fullPath : TablePath) : Bytes :=
  ("BlockBasedTableReader: " : Bytes) ++ ofString what ++ (": " : Bytes) ++ fullPath.string

/-! ## Blocks -/

def readFooter (fullPath : TablePath) : IStream Footer := fun file _ =>
  if file.length < FOOTER_ENCODED_SIZE then
    .error (.runtimeError (about "file too small for footer" fullPath))
  else
    (do
      let metadata_block ← readBlockHandle
      let index_block ← readBlockHandle
      let filter_block ← readBlockHandle
      return ⟨metadata_block, index_block, filter_block⟩ : IStream Footer)
      file (file.length - FOOTER_ENCODED_SIZE)

/-- What the three block readers share: a handle of zeros is a missing block, and the bytes that
`body` reads from the offset on must be as many as the handle says. -/
def readBlock {α : Type} (name : String) (handle : BlockHandle) (fullPath : TablePath)
    (body : IStream α) : IStream α := do
  if handle.offset = 0 ∧ handle.size = 0 then
    fail (about ("missing " ++ name ++ " block") fullPath)
  seekg handle.offset (about ("failed to seek " ++ name ++ " block") fullPath)
  let start ← tellg
  let block ← body
  let stop ← tellg
  if UInt64.ofNat (stop - start) ≠ handle.size then
    fail (about (name ++ " block size mismatch") fullPath)
  return block

def readMetadataBlock (handle : BlockHandle) (fullPath : TablePath) (memory : Memory := .all) :
    IStream SSTableMetadata :=
  readBlock "metadata" handle fullPath do
    let fileNumber ← readUint64BigEndian
    let timestamp ← readUint64BigEndian
    let minKey ← readString memory
    let maxKey ← readString memory
    return ⟨fileNumber, timestamp, minKey, maxKey⟩

/-- `sizeof(IndexEntry)`: a string and two 64-bit words. -/
def INDEX_ENTRY_SIZE : Nat := 48

/-- The loop of `readIndexBlock`. -/
def readIndexEntries (n : Nat) (memory : Memory := .all) : IStream (List IndexEntry) :=
  match n with
  | 0 => pure []
  | n + 1 => do
    let last_key ← readString memory
    let block ← readBlockHandle
    let index ← readIndexEntries n memory
    return ⟨last_key, block⟩ :: index

def readIndexBlock (handle : BlockHandle) (fullPath : TablePath) (memory : Memory := .all) :
    IStream (List IndexEntry) :=
  readBlock "index" handle fullPath do
    let numEntries ← readUint32BigEndian
    allocate memory (numEntries.toNat * INDEX_ENTRY_SIZE)
    readIndexEntries numEntries.toNat memory

def readFilterBlock (handle : BlockHandle) (fullPath : TablePath) (memory : Memory := .all) :
    IStream FilterBlock :=
  readBlock "filter" handle fullPath do
    let num_bits ← readUint32BigEndian
    let num_hashes ← readUint32BigEndian
    let bitsetSize ← readUint32BigEndian
    allocate memory bitsetSize.toNat
    let bitset ← read bitsetSize.toNat (about "failed to read filter bitset" fullPath)
    return ⟨num_bits, num_hashes, bitset⟩

/-- The loop of `readEntryFromDataBlock`: the entry for `key`, or none where the loop ends. -/
def scanEntries (key : Bytes) (fullPath : TablePath) : Nat → IStream (Option Entry)
  | 0 => pure none
  | n + 1 => do
    let entryKey ← readString
    let entryVal ← readString
    let tombstoneByte ← read 1 (about "failed to read tombstone byte" fullPath)
    if entryKey = key then return some ⟨entryKey, entryVal, tombstoneByte ≠ [0]⟩
    else if key < entryKey then return none
    else scanEntries key fullPath n

def readEntryFromDataBlock (handle : BlockHandle) (key : Bytes) (fullPath : TablePath) :
    IStream (Option Entry) := do
  seekg handle.offset (about "failed to seek data block" fullPath)
  let start ← tellg
  let numEntries ← readUint32BigEndian
  match ← scanEntries key fullPath numEntries.toNat with
  | some e => return some e
  | none =>
    let stop ← tellg
    if UInt64.ofNat (stop - start) > handle.size then
      fail (about "read past data block" fullPath)
    return none

/-! ## The reader -/

/-- The constructor on the bytes of the file. -/
def construct (file : Bytes) (fullPath : TablePath) (memory : Memory := .all) :
    Except Fault BlockBasedTableReader := do
  let (m_footer, pos) ← readFooter fullPath file 0
  let (m_filter, pos) ← readFilterBlock m_footer.filter_block fullPath memory file pos
  let (m_index, pos) ← readIndexBlock m_footer.index_block fullPath memory file pos
  let (m_meta, _) ← readMetadataBlock m_footer.metadata_block fullPath memory file pos
  return ⟨fullPath, m_footer, m_meta, m_index, m_filter⟩

/-- `BlockBasedTableReader::withinRange`. -/
def withinRange (r : BlockBasedTableReader) (key : Bytes) : Bool :=
  decide (r.m_meta.m_min_key ≤ key) && decide (key ≤ r.m_meta.m_max_key)

/-- The comparison that `get` hands to `std::lower_bound`, at a position of the index. -/
def lastKeyBelow (r : BlockBasedTableReader) (key : Bytes) (i : Nat) : Bool :=
  match r.m_index[i]? with
  | some entry => decide (entry.last_key < key)
  | none => false

/-- The position `std::lower_bound` finds in the index: the first last key that is not below
`key`. -/
def lowerBound (r : BlockBasedTableReader) (key : Bytes) : Nat :=
  Search.lowerBound (r.lastKeyBelow key) 0 r.m_index.length

/-- `BlockBasedTableReader::get`; `file` is the file at `m_fullPath`, if there is one. -/
def get (r : BlockBasedTableReader) (file : Option Bytes) (key : Bytes) :
    Except Fault (Option Entry) :=
  if !r.withinRange key then .ok none
  else
    match r.m_index[r.lowerBound key]? with
    | none => .ok none
    | some entry =>
      match file with
      | none => .error (.runtimeError (about "failed to open table" r.m_fullPath))
      | some file => (readEntryFromDataBlock entry.block key r.m_fullPath file 0).map Prod.fst

end BlockBasedTableReader

end TinyKv
