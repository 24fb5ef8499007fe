import TinyKv.FileSystem
import TinyKv.Iterator

/-!
# The in-memory table

`sstable.cpp`, `sstable_iterator.cpp`, `sstable_writer.cpp` and `sstable_reader.cpp`: the table kept
as a sorted vector of entries, its iterator, its file and the reader of that file.

The file is the entries one after the other (lengths as big-endian 32-bit words), then timestamp
and file number in host byte order (little-endian). The reader finds the trailer from the end of
the file and takes everything before it for entries.
-/

namespace TinyKv

open Bytes

/-- `SSTable` of `sstable.h`. -/
structure SSTable where
  m_meta : SSTableMetadata
  m_entries : List Entry
  deriving DecidableEq

namespace SSTable

/-- The constructor sorts its entries. -/
def ofEntries (m_meta : SSTableMetadata) (entries : List Entry) : SSTable :=
  ⟨m_meta, sortEntries entries⟩

/-- `m_entries[i]` with a signed subscript. -/
def entryAt (t : SSTable) (i : Int) : Except Fault Entry :=
  if i < 0 then .error .outOfBounds
  else
    match t.m_entries[i.toNat]? with
    | some e => .ok e
    | none => .error .outOfBounds

/-- The loop of `SSTable::get` and the check behind it. -/
def search (t : SSTable) (key : Bytes) (l r : Int) : Except Fault (Option Entry) :=
  if l < r then do
    let mid := l + (r - l) / 2
    let midEntry ← t.entryAt mid
    if midEntry.key = key then return some midEntry
    else if key < midEntry.key then t.search key l (mid - 1)
    else t.search key (mid + 1) r
  else do
    let e ← t.entryAt l
    return if e.key = key then some e else none
termination_by (r - l).toNat

/-- `SSTable::get`; the last index is narrowed to an `int`. -/
def get (t : SSTable) (key : Bytes) : Except Fault (Option Entry) :=
  if t.m_entries.length = 0 then .ok none
  else t.search key 0 (Int32.ofNat (t.m_entries.length - 1)).toInt

/-- `SSTable::withinRange`. -/
def withinRange (t : SSTable) (key : Bytes) : Except Fault Bool := do
  let first ← t.entryAt 0
  if first.key ≤ key then
    let last ← t.entryAt (t.m_entries.length - 1)
    return decide (key ≤ last.key)
  else return false

end SSTable

/-- `SSTable::getSize`. -/
def SSTable.getSize (t : SSTable) : Nat := t.m_entries.length

/-! ## Iterator -/

/-- The loop of `SSTable::Iter::Seek`: the middle it stops at, if it does. `mid + 1` is computed in
an `int`. -/
def SSTable.seekSearch (t : SSTable) (key : Bytes) (l r : Int) : Except Fault (Option Int) :=
  if l ≤ r then do
    let mid := l + (r - l) / 2
    let midEntry ← t.entryAt mid
    if midEntry.key = key then return some mid
    else if key < midEntry.key then t.seekSearch key l (mid - 1)
    else if mid = 2 ^ 31 - 1 then .error .signedOverflow
    else t.seekSearch key (mid + 1) r
  else return none
termination_by (r + 1 - l).toNat

/-- `SSTable::Iter`. -/
structure SSTable.Iter where
  m_index : Nat
  m_ssTable : SSTable
  deriving DecidableEq

/-- `SSTable::NewIterator`. -/
def SSTable.newIterator (t : SSTable) : SSTable.Iter := ⟨0, t⟩

namespace SSTable.Iter

def valid (it : Iter) : Bool := decide (it.m_index < it.m_ssTable.m_entries.length)

def seekToFirst (it : Iter) : Iter := { it with m_index := 0 }

def seekToLast (it : Iter) : Iter :=
  if it.m_ssTable.m_entries.isEmpty then { it with m_index := 0 }
  else { it with m_index := it.m_ssTable.m_entries.length - 1 }

/-- `Seek`: the index is set behind the last entry before the loop, and to the middle that has the
key. The last index is narrowed to an `int`. -/
def seek (it : Iter) (key : Bytes) : Except Fault Iter :=
  let invalid := { it with m_index := it.m_ssTable.m_entries.length }
  if it.m_ssTable.m_entries.length = 0 then .ok invalid
  else
    match it.m_ssTable.seekSearch key 0 (Int32.ofNat (it.m_ssTable.m_entries.length - 1)).toInt with
    | .error f => .error f
    | .ok none => .ok invalid
    | .ok (some mid) => .ok { it with m_index := mid.toNat }

def next (it : Iter) : Iter := if it.valid then { it with m_index := it.m_index + 1 } else it

/-- What `Key`, `Value` and `isTombstone` give. -/
def entry (it : Iter) : Except Fault Entry := it.m_ssTable.entryAt it.m_index

instance iterator : Iterator Iter where
  valid := valid
  seekToFirst := seekToFirst
  seekToLast := seekToLast
  seek := seek
  next := next
  entry := entry

/-- The loop `for (...; Valid(); Next())` that collects what an iterator is on. -/
def collect (it : Iter) : Except Fault (List Entry) :=
  if it.valid then do
    let e ← it.entry
    let es ← it.next.collect
    return e :: es
  else .ok []
termination_by it.m_ssTable.m_entries.length - it.m_index
decreasing_by
  rename_i h
  simp only [valid, decide_eq_true_eq] at h
  simp only [next, valid, h, decide_true, ↓reduceIte]
  omega

/-- The entries that an iterator lists. -/
def listing (it : Iter) : Except Fault (List Entry) := it.seekToFirst.collect

end SSTable.Iter

/-! ## Writer -/

namespace SSTableWriter

/-- `SSTableWriter::_serializeEntry`: the lengths are narrowed to 32 bits, the strings are not. -/
def serializeEntry (e : Entry) : Bytes :=
  beBytes 4 (e.key.length % 2 ^ 32) ++ e.key ++ beBytes 4 (e.val.length % 2 ^ 32) ++ e.val ++
    [if e.tombstone then 1 else 0]

/-- The bytes of a table file with these entries. -/
def encode (entries : List Entry) (timestamp : TimestampType) (file_num : FileNumber) : Bytes :=
  entries.flatMap serializeEntry ++ leBytes 8 timestamp.toNat ++ leBytes 8 file_num.toNat

/-- `SSTableWriter::write`: the metadata, the entries as it leaves them (sorted) and the bytes it
writes. -/
def write (entries : List Entry) (timestamp : TimestampType) (file_num : FileNumber) :
    Except Fault (SSTableMetadata × List Entry × Bytes) :=
  if entries.isEmpty then
    .error (.runtimeError "SSTableWriter::write(): Cannot write empty SSTable")
  else
    let entries := sortEntries entries
    .ok (⟨file_num, timestamp, firstKey entries, lastKey entries⟩, entries,
      encode entries timestamp file_num)

end SSTableWriter

/-! ## Reader -/

namespace SSTableReader

/-- `throw std::runtime_error` of `_deserializeEntry`. -/
def bufferTooSmall (what : String) : Fault :=
  .runtimeError (("[SSTableReader._deserializeEntry()] Failed to deserialize entry: " : Bytes) ++
    ofString what)

/-- `SSTableReader::_deserializeEntry`: the entry at the front of the buffer and the number of
bytes it takes. -/
def deserializeEntry (data : Bytes) : Except Fault (Entry × Nat) :=
  if 4 > data.length then .error (bufferTooSmall "Buffer too small for key length")
  else
    let keyLen := beNat (data.take 4)
    if 4 + keyLen > data.length then .error (bufferTooSmall "Buffer too small for key")
    else
      let key := (data.drop 4).take keyLen
      let pos := 4 + keyLen
      if pos + 4 > data.length then .error (bufferTooSmall "Buffer too small for value length")
      else
        let valLen := beNat ((data.drop pos).take 4)
        let pos := pos + 4
        if pos + valLen > data.length then .error (bufferTooSmall "Buffer too small for value")
        else
          let val := (data.drop pos).take valLen
          let pos := pos + valLen
          match data[pos]? with
          | none => .error (bufferTooSmall "Buffer too small for tombstone")
          | some b => .ok (⟨key, val, b != 0⟩, pos + 1)

theorem deserializeEntry_length {data : Bytes} {e : Entry} {n : Nat}
    (h : deserializeEntry data = .ok (e, n)) : 0 < n ∧ n ≤ data.length := by
  unfold deserializeEntry at h
  split at h
  · cases h
  · dsimp only at h
    split at h
    · cases h
    · split at h
      · cases h
      · split at h
        · cases h
        · split at h
          · cases h
          · rename_i b hb
            simp only [Except.ok.injEq, Prod.mk.injEq] at h
            obtain ⟨-, rfl⟩ := h
            have := (List.getElem?_eq_some_iff.1 hb).1
            exact ⟨by omega, by omega⟩

/-- The entries that an area holds. -/
def readEntries (area : Bytes) : Except Fault (List Entry) :=
  if area.length = 0 then .ok []
  else
    match _h : deserializeEntry area with
    | .error f => .error f
    | .ok (e, bytesRead) =>
      match readEntries (area.drop bytesRead) with
      | .error f => .error f
      | .ok es => .ok (e :: es)
termination_by area.length
decreasing_by
  have := deserializeEntry_length ‹_›
  simp only [List.length_drop]
  omega

/-- The table that a file holds: `readBuffer` below without the counter of its loop, which is an
`int`. A file shorter than the trailer is read outside its buffer. -/
def read (serializedData : Bytes) : Except Fault SSTable :=
  if serializedData.length = 0 then
    .error (.runtimeError
      "SSTableReader::read(): Failed to read binary from file - file is empty")
  else if serializedData.length < 16 then .error .outOfBounds
  else
    let n := serializedData.length
    let timestamp := UInt64.ofNat (leNat ((serializedData.drop (n - 16)).take 8))
    let file_num := UInt64.ofNat (leNat (serializedData.drop (n - 8)))
    match readEntries (serializedData.take (n - 16)) with
    | .error f => .error f
    | .ok [] => .error .outOfBounds
    | .ok (e :: es) =>
      .ok (SSTable.ofEntries
        ⟨file_num, timestamp, e.key, lastKey (e :: es)⟩ (e :: es))

end SSTableReader

end TinyKv
