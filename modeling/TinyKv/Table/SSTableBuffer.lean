import TinyKv.Table.SSTable

/-!
# The reader of a table file on its buffer

`sstable_reader.cpp`, access by access: every byte is read from the buffer at an index of its own,
positions are computed in a `size_t`, and the counter of the loop is an `int`. An access outside the
buffer or outside the vector of entries, and a counter that overflows, end in a `Fault` that is no
exception.

A buffer has fewer than `2 ^ 63` bytes, so only subtractions can leave the range of a `size_t`.
-/

namespace TinyKv

open Bytes

/-- `a - b` in a `size_t`. -/
def sizeSub (a b : Nat) : Nat := if b ≤ a then a - b else a + 2 ^ 64 - b

namespace SSTableReader

/-- `buffer[i]`. -/
def byteAt (buffer : Bytes) (i : Nat) : Except Fault UInt8 :=
  match buffer[i]? with
  | some b => .ok b
  | none => .error .outOfBounds

/-- `memcpy` or `assign` of `n` bytes from `buffer + pos`. -/
def copyBytes (buffer : Bytes) (pos : Nat) : Nat → Except Fault Bytes
  | 0 => .ok []
  | n + 1 => do
    let b ← byteAt buffer pos
    let bs ← copyBytes buffer (pos + 1) n
    return b :: bs

/-- `SSTableReader::_deserializeEntry` on `size` bytes from `buffer + offset`. -/
def deserializeEntryAt (buffer : Bytes) (offset size : Nat) : Except Fault (Entry × Nat) :=
  if 4 > size then .error (bufferTooSmall "Buffer too small for key length")
  else do
    let keyLenNetwork ← copyBytes buffer offset 4
    let keyLen := beNat keyLenNetwork
    if 4 + keyLen > size then .error (bufferTooSmall "Buffer too small for key")
    else
      let key ← copyBytes buffer (offset + 4) keyLen
      let pos := 4 + keyLen
      if pos + 4 > size then .error (bufferTooSmall "Buffer too small for value length")
      else
        let valLenNetwork ← copyBytes buffer (offset + pos) 4
        let valLen := beNat valLenNetwork
        let pos := pos + 4
        if pos + valLen > size then .error (bufferTooSmall "Buffer too small for value")
        else
          let val ← copyBytes buffer (offset + pos) valLen
          let pos := pos + valLen
          if pos + 1 > size then .error (bufferTooSmall "Buffer too small for tombstone")
          else
            let tombstone ← byteAt buffer (offset + pos)
            return (⟨key, val, tombstone != 0⟩, pos + 1)

/-- A call that returns has returned from each call that it makes. -/
theorem exists_of_bind_ok {α β : Type} {x : Except Fault α} {f : α → Except Fault β} {r : β}
    (h : x >>= f = .ok r) : ∃ a, x = .ok a ∧ f a = .ok r := by
  cases x with
  | error fault => cases h
  | ok a => exact ⟨a, rfl, h⟩

theorem deserializeEntryAt_pos {buffer : Bytes} {offset size n : Nat} {e : Entry}
    (h : deserializeEntryAt buffer offset size = .ok (e, n)) : 0 < n := by
  unfold deserializeEntryAt at h
  split at h
  · cases h
  · obtain ⟨_, -, h⟩ := exists_of_bind_ok h
    dsimp only at h
    split at h
    · cases h
    · obtain ⟨_, -, h⟩ := exists_of_bind_ok h
      split at h
      · cases h
      · obtain ⟨_, -, h⟩ := exists_of_bind_ok h
        split at h
        · cases h
        · obtain ⟨_, -, h⟩ := exists_of_bind_ok h
          split at h
          · cases h
          · obtain ⟨_, -, h⟩ := exists_of_bind_ok h
            cases h
            exact Nat.succ_pos _

/-- The loop of `SSTableReader::read`. -/
def readEntriesAt (buffer : Bytes) (serializedEntriesSize offset i : Nat) (entries : List Entry) :
    Except Fault (List Entry) :=
  if offset < serializedEntriesSize then
    match _h : deserializeEntryAt buffer offset (serializedEntriesSize - offset) with
    | .error f => .error f
    | .ok (entry, bytesRead) =>
      let entries := entries ++ [entry]
      -- `entries[i]` is logged before `i++`
      match entries[i]? with
      | none => .error .outOfBounds
      | some _ =>
        if i + 1 = 2 ^ 31 then .error .signedOverflow
        else readEntriesAt buffer serializedEntriesSize (offset + bytesRead) (i + 1) entries
  else .ok entries
termination_by serializedEntriesSize - offset
decreasing_by
  have := deserializeEntryAt_pos ‹_›
  omega

/-- `SSTableReader::read` on the content of the file. -/
def readBuffer (serializedData : Bytes) : Except Fault SSTable :=
  if serializedData.length = 0 then
    .error (.runtimeError
      "SSTableReader::read(): Failed to read binary from file - file is empty")
  else do
    let timestamp ← copyBytes serializedData (sizeSub (sizeSub serializedData.length 8) 8) 8
    let file_num ← copyBytes serializedData (sizeSub serializedData.length 8) 8
    let serializedEntriesSize := sizeSub (sizeSub serializedData.length 8) 8
    let entries ← readEntriesAt serializedData serializedEntriesSize 0 0 []
    match entries[0]?, entries[sizeSub entries.length 1]? with
    | some first, some last =>
      return SSTable.ofEntries ⟨UInt64.ofNat (leNat file_num), UInt64.ofNat (leNat timestamp),
        first.key, last.key⟩ entries
    | _, _ => .error .outOfBounds

end SSTableReader

end TinyKv
