import TinyKv.FileSystem
import TinyKv.Lib.Bits

/-!
# Writing a block-based table

`block_based_table_format.cpp`. The file is the data blocks, the metadata block, the index block
(one entry for each data block, with the last key in it), the filter block and a footer that says
where the last three are.

`OStream` is an `ofstream` that does not fail: its state is the bytes written so far, so `tellp` is
their number, and a `throw` leaves what has been written (the destructor flushes it).
-/

namespace TinyKv

open Bytes

/-! ## Structures -/

structure BlockHandle where
  offset : UInt64 := 0
  size : UInt64 := 0
  deriving DecidableEq

structure IndexEntry where
  last_key : Bytes
  block : BlockHandle
  deriving DecidableEq

structure FilterBlock where
  num_bits : UInt32 := 0
  num_hashes : UInt32 := 0
  bitset : Bytes
  deriving DecidableEq

structure Footer where
  metadata_block : BlockHandle
  index_block : BlockHandle
  filter_block : BlockHandle
  deriving DecidableEq

def FOOTER_ENCODED_SIZE : Nat := 3 * 16

namespace BlockBasedTableFormat

def DATA_BLOCK_MAX_SIZE : Nat := 4096
def FILTER_NUM_BITS : UInt32 := 8192
def FILTER_NUM_HASHES : UInt32 := 7

/-- `std::numeric_limits<std::uint32_t>::max()`. -/
def UINT32_MAX : Nat := 2 ^ 32 - 1

/-! ## Streams -/

abbrev OStream := EStateM Fault Bytes

/-- `output.write`. -/
def put (bs : Bytes) : OStream Unit := modify (· ++ bs)

def tellp : OStream UInt64 := do
  return UInt64.ofNat (← get).length

def writeUint64BigEndian (value : UInt64) : OStream Unit := put (beBytes 8 value.toNat)

def writeUint32BigEndian (value : UInt32) : OStream Unit := put (beBytes 4 value.toNat)

/-! ## Data blocks -/

/-- `appendString`: the length and the bytes. -/
def appendString (s : Bytes) : Except Fault Bytes :=
  if s.length > UINT32_MAX then .error (.runtimeError "string too large for data block")
  else .ok (beBytes 4 (UInt32.ofNat s.length).toNat ++ s)

/-- `appendEntry`. -/
def appendEntry (e : Entry) : Except Fault Bytes := do
  let key ← appendString e.key
  let val ← appendString (if e.tombstone then [] else e.val)
  return key ++ val ++ [if e.tombstone then 1 else 0]

def writeRawBlock (block : Bytes) : OStream BlockHandle := do
  let start ← tellp
  put block
  return ⟨start, UInt64.ofNat block.length⟩

/-! ## Filter -/

/-- `hashKeyWithSeed`: FNV-1a with the seed mixed into the basis, wrapping at `2 ^ 64`. -/
def hashKeyWithSeed (key : Bytes) (seed : UInt64) : UInt64 :=
  key.foldl (fun hash byte => (hash ^^^ byte.toUInt64) * 1099511628211) (1469598103934665603 ^^^ seed)

/-- The bit that one seed sets for a key. -/
def bitIndex (key : Bytes) (seed : Nat) : Nat :=
  (hashKeyWithSeed key (UInt64.ofNat seed)).toNat % FILTER_NUM_BITS.toNat

/-- `addKeyToFilter`: `bitset[i / 8] |= 1 << (i % 8)` for the bit of each seed. -/
def addKeyToFilter (bitset : Bytes) (key : Bytes) : Bytes :=
  (List.range FILTER_NUM_HASHES.toNat).foldl (fun bs seed => setBit bs (bitIndex key seed)) bitset

/-! ## The other blocks -/

def writeBlockHandle (handle : BlockHandle) : OStream Unit := do
  writeUint64BigEndian handle.offset
  writeUint64BigEndian handle.size

def writeString (s : Bytes) : OStream Unit := do
  if s.length > UINT32_MAX then
    throw (.runtimeError "string too large for metadata block")
  writeUint32BigEndian (UInt32.ofNat s.length)
  put s

def writeMetadataBlock (m : SSTableMetadata) : OStream BlockHandle := do
  let start ← tellp
  writeUint64BigEndian m.m_file_number
  writeUint64BigEndian m.m_timestamp
  writeString m.m_min_key
  writeString m.m_max_key
  return ⟨start, (← tellp) - start⟩

/-- The loop of `writeIndexBlock`. -/
def writeIndexEntries : List IndexEntry → OStream Unit
  | [] => pure ()
  | entry :: index => do
    writeString entry.last_key
    writeBlockHandle entry.block
    writeIndexEntries index

def writeIndexBlock (index : List IndexEntry) : OStream BlockHandle := do
  let start ← tellp
  if index.length > UINT32_MAX then throw (.runtimeError "too many index entries")
  writeUint32BigEndian (UInt32.ofNat index.length)
  writeIndexEntries index
  return ⟨start, (← tellp) - start⟩

def writeFilterBlock (bitset : Bytes) : OStream BlockHandle := do
  let start ← tellp
  if bitset.length > UINT32_MAX then throw (.runtimeError "filter block bitset too large")
  writeUint32BigEndian FILTER_NUM_BITS
  writeUint32BigEndian FILTER_NUM_HASHES
  writeUint32BigEndian (UInt32.ofNat bitset.length)
  put bitset
  return ⟨start, (← tellp) - start⟩

def writeFooter (footer : Footer) : OStream Unit := do
  writeBlockHandle footer.metadata_block
  writeBlockHandle footer.index_block
  writeBlockHandle footer.filter_block

/-! ## The table -/

/-- The locals of `writeTable` that its loop changes. -/
structure Locals where
  maxKey : Bytes := []
  index : List IndexEntry := []
  dataBlock : Bytes := []
  entriesInBlock : UInt32 := 0
  lastKeyInBlock : Bytes := []
  filterBitset : Bytes

/-- The lambda `flushDataBlock` of `writeTable`. -/
def flushDataBlock (b : Locals) : OStream Locals := do
  if b.entriesInBlock = 0 then return b
  let dataBlockHandle ← writeRawBlock (beBytes 4 b.entriesInBlock.toNat ++ b.dataBlock)
  return { b with
    index := b.index ++ [⟨b.lastKeyInBlock, dataBlockHandle⟩]
    dataBlock := []
    entriesInBlock := 0
    lastKeyInBlock := [] }

/-- The current entry cannot go into the current data block. -/
def blockFull (b : Locals) (encodedEntry : Bytes) : Bool :=
  b.entriesInBlock > 9 && b.dataBlock.length + encodedEntry.length > DATA_BLOCK_MAX_SIZE

/-- What the loop of `writeTable` does with an encoded entry once it has room. -/
def Locals.add (b : Locals) (key encodedEntry : Bytes) : Locals :=
  { b with
    dataBlock := b.dataBlock ++ encodedEntry
    entriesInBlock := b.entriesInBlock + 1
    filterBitset := addKeyToFilter b.filterBitset key
    lastKeyInBlock := key
    maxKey := key }

/-- The data-block loop of `writeTable` and the `flushDataBlock` behind it. -/
def writeDataBlocks : List Entry → Locals → OStream Locals
  | [], b => flushDataBlock b
  | e :: entries, b =>
    match appendEntry e with
    | .error f => throw f
    | .ok encodedEntry => do
      let b ← if blockFull b encodedEntry then flushDataBlock b else pure b
      writeDataBlocks entries (b.add e.key encodedEntry)

/-- `BlockBasedTableFormat::writeTable` on the open stream. -/
def writeBlocks (entries : List Entry) (timestamp : TimestampType) (fileNum : FileNumber) :
    OStream Unit := do
  match entries with
  | [] =>
    throw (.runtimeError "BlockBasedTableFormat::writeTable(): cannot write empty table")
  | first :: _ =>
    let minKey := first.key
    let b ← writeDataBlocks entries
      { filterBitset := List.replicate ((FILTER_NUM_BITS.toNat + 7) / 8) 0 }
    let metaHandle ← writeMetadataBlock ⟨fileNum, timestamp, minKey, b.maxKey⟩
    let indexHandle ← writeIndexBlock b.index
    let filterHandle ← writeFilterBlock b.filterBitset
    writeFooter ⟨metaHandle, indexHandle, filterHandle⟩

end BlockBasedTableFormat

end TinyKv
