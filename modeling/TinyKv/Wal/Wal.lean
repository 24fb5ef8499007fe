import TinyKv.FileSystem

/-!
# The write-ahead log

`core/wal/wal.cpp`. A record is a type byte (1 for a tombstone), the lengths of key and value as
32-bit words in host byte order (little-endian), and the two strings; a tombstone carries no value.
`append` narrows the lengths to 32 bits and writes that many bytes.

A failing `append` leaves the first bytes of its record in the file (`AppendFault`), and nothing
takes them back.
-/

namespace TinyKv

open Bytes

/-- `WAL` of `wal.h`. -/
structure WAL where
  m_basePath : Bytes := "./wal"
  m_id : UInt64
  deriving DecidableEq

namespace WAL

def m_fullPath (w : WAL) : Bytes :=
  w.m_basePath ++ ("/wal-" : Bytes) ++ decimal w.m_id.toNat

/-- The bytes `append` writes for an entry. -/
def record (e : Entry) : Bytes :=
  let klen := e.key.length % 2 ^ 32
  let vlen := if e.tombstone then 0 else e.val.length % 2 ^ 32
  [if e.tombstone then 1 else 0] ++ leBytes 4 klen ++ leBytes 4 vlen ++
    e.key.take klen ++ e.val.take vlen

/-- Bytes that reach the log file, which is created if it is not there. -/
def appendBytes (bs : Bytes) (fs : FileSystem) : FileSystem :=
  { fs with wal := some (fs.wal.getD [] ++ bs) }.record (.walAppended bs)

/-- `WAL::append`. -/
def append (w : WAL) (fault : Option AppendFault) (e : Entry) (fs : FileSystem) :
    Option Error × FileSystem :=
  match fault with
  | none => (none, appendBytes (record e) fs)
  | some .openFailed => (some ⟨("open WAL for append failed: " : Bytes) ++ w.m_fullPath⟩, fs)
  | some (.headerFailed n) =>
    (some ⟨"write WAL header failed"⟩, appendBytes ((record e).take n) fs)
  | some (.payloadFailed n) =>
    (some ⟨"write WAL payload failed"⟩, appendBytes ((record e).take n) fs)
  | some (.flushFailed n) => (some ⟨"flush WAL failed"⟩, appendBytes ((record e).take n) fs)

/-- `WAL::remove`; `fault` is the `what()` of a `filesystem_error`. -/
def remove (fault : Option Bytes) (fs : FileSystem) : Option Error × FileSystem :=
  match fault with
  | some what => (some ⟨("WAL::remove failed: " : Bytes) ++ what⟩, fs)
  | none =>
    match fs.wal with
    | none => (none, fs)
    | some _ => (none, { fs with wal := none }.record .walRemoved)

/-- How one round of the loop of `getEntries` ends. -/
inductive Round where
  | entry (e : Entry) (rest : Bytes)
  | tail
  | corrupt
  deriving DecidableEq

/-- One round of the loop of `getEntries` on the bytes not read yet. -/
def readRecord : Bytes → Round
  | [] => .tail -- clean end
  | type :: bs =>
    if bs.length < 4 then .tail
    else
      let klen := leNat (bs.take 4)
      let bs := bs.drop 4
      if bs.length < 4 then .tail
      else
        let vlen := leNat (bs.take 4)
        let bs := bs.drop 4
        if klen > 2 ^ 30 ∨ vlen > 2 ^ 30 then .corrupt
        else if bs.length < klen then .tail
        else
          let key := bs.take klen
          let bs := bs.drop klen
          if type = 1 then .entry ⟨key, [], true⟩ bs
          else if bs.length < vlen then .tail
          else .entry ⟨key, bs.take vlen, false⟩ (bs.drop vlen)

theorem readRecord_length {bs rest : Bytes} {e : Entry} (h : readRecord bs = .entry e rest) :
    rest.length < bs.length := by
  cases bs with
  | nil => cases h
  | cons type bs =>
    simp only [readRecord] at h
    split at h
    · cases h
    · split at h
      · cases h
      · split at h
        · cases h
        · split at h
          · cases h
          · split at h
            · obtain ⟨-, rfl⟩ := Round.entry.inj h
              simp only [List.length_drop, List.length_cons]
              omega
            · split at h
              · cases h
              · obtain ⟨-, rfl⟩ := Round.entry.inj h
                simp only [List.length_drop, List.length_cons]
                omega

/-- The loop of `getEntries`: the entries read from here on, or `nullopt` on a corrupt header. -/
def readRecords (bs : Bytes) : Option (List Entry) :=
  match _h : readRecord bs with
  | .tail => some []
  | .corrupt => none
  | .entry e rest => (readRecords rest).map (e :: ·)
termination_by bs.length
decreasing_by exact readRecord_length ‹_›

/-- `WAL::getEntries`: a missing file is an empty log. -/
def getEntries (fs : FileSystem) : Option (List Entry) :=
  match fs.wal with
  | none => some []
  | some bs => readRecords bs

end WAL

end TinyKv
