import TinyKv.Lib.Lines
import TinyKv.Types

/-!
# A connection

`net/fd_connection.cpp`: lines out of a byte stream that arrives in pieces, and a write that goes on
until the system has taken every byte.

The socket is what its calls will give: `recvs` are the chunks of the coming calls of `recv`, and
`sends` the numbers of bytes that the coming calls of `send` take at most. An empty chunk and a zero
are the `n <= 0` of an error; behind the last chunk the peer has closed.

`send` is called with the flags 0, and no program sets a handler: on a connection that the peer has
closed it raises `SIGPIPE`, which ends the process. With `sigpipe` a zero of `sends` is such a call.
-/

namespace TinyKv

/-- `FdConnection` over its socket; `sent` is what the socket has taken. -/
structure FdConnection where
  buffer_ : Bytes := []
  recvs : List Bytes := []
  sends : Nat → Nat := fun _ => 1024
  sigpipe : Bool := false
  sent : Bytes := []
  closed : Bool := false

namespace FdConnection

/-- The line feed. -/
def newLine : UInt8 := 10

/-- The first line of the buffer and what stands behind it. -/
def takeLine (buffer_ : Bytes) : Option (Bytes × Bytes) :=
  match buffer_.idxOf? newLine with
  | some newLinePos => some (buffer_.take newLinePos, buffer_.drop (newLinePos + 1))
  | none => none

theorem takeLine_eq_some {buffer_ line rest : Bytes} (h : takeLine buffer_ = some (line, rest)) :
    buffer_ = line ++ newLine :: rest := by
  unfold takeLine at h
  split at h
  · rename_i pos hpos
    cases h
    obtain ⟨hlt, hat, -⟩ := List.idxOf?_eq_some_iff.1 hpos
    rw [← hat, ← List.drop_eq_getElem_cons hlt, List.take_append_drop]
  · cases h

/-- The loop of `readLine`: the line, the buffer and the chunks that have not arrived. -/
def readLineFrom (buffer_ : Bytes) : List Bytes → Option Bytes × Bytes × List Bytes
  | [] =>
    match takeLine buffer_ with
    | some (line, buffer_) => (some line, buffer_, [])
    | none => (none, buffer_, [])
  | chunk :: recvs =>
    match takeLine buffer_ with
    | some (line, buffer_) => (some line, buffer_, chunk :: recvs)
    | none =>
      if chunk.length = 0 then (none, buffer_, recvs) else readLineFrom (buffer_ ++ chunk) recvs

/-- `FdConnection::readLine`. -/
def readLine (c : FdConnection) : Option Bytes × FdConnection :=
  match readLineFrom c.buffer_ c.recvs with
  | (line, buffer_, recvs) => (line, { c with buffer_ := buffer_, recvs := recvs })

/-- The bytes that `readLine` has not given out. -/
def pending (c : FdConnection) : Bytes := c.buffer_ ++ c.recvs.flatten

theorem length_takeLine {buffer_ line rest : Bytes} (h : takeLine buffer_ = some (line, rest)) :
    rest.length < buffer_.length := by
  rw [takeLine_eq_some h, List.length_append, List.length_cons]
  omega

theorem length_readLineFrom {buffer_ buffer' line : Bytes} {recvs recvs' : List Bytes}
    (h : readLineFrom buffer_ recvs = (some line, buffer', recvs')) :
    (buffer' ++ recvs'.flatten).length < (buffer_ ++ recvs.flatten).length := by
  induction recvs generalizing buffer_ with
  | nil =>
    rw [readLineFrom] at h
    split at h
    · rename_i htake
      cases h
      have := length_takeLine htake
      simp only [List.length_append]
      omega
    · cases h
  | cons chunk recvs ih =>
    rw [readLineFrom] at h
    split at h
    · rename_i htake
      cases h
      have := length_takeLine htake
      simp only [List.length_append]
      omega
    · split at h
      · cases h
      · have := ih h
        rwa [List.append_assoc, ← List.flatten_cons] at this

theorem length_pending_readLine {c c' : FdConnection} {line : Bytes}
    (h : c.readLine = (some line, c')) : c'.pending.length < c.pending.length := by
  simp only [readLine, Prod.mk.injEq] at h
  obtain ⟨hline, rfl⟩ := h
  refine @length_readLineFrom c.buffer_ _ line c.recvs _ ?_
  rw [← hline]

/-- The lines that `readLine` gives before it gives none. -/
def readLines (c : FdConnection) : List Bytes :=
  match _h : c.readLine with
  | (none, _) => []
  | (some line, c') => line :: c'.readLines
termination_by c.pending.length
decreasing_by exact length_pending_readLine ‹_›

/-- One call of `send` with these bytes: how many it takes, unless it ends the process. -/
def send (c : FdConnection) (bytes : Bytes) : Option Nat × FdConnection :=
  let n := min (c.sends 0) bytes.length
  (if c.sigpipe && c.sends 0 = 0 then none else some n,
    { c with sends := fun k => c.sends (k + 1), sent := c.sent ++ bytes.take n })

/-- The loop of `writeAll`. -/
def writeFrom (c : FdConnection) (data : Bytes) (sent : Nat) : Option Bool × FdConnection :=
  if sent < data.length then
    match c.send (data.drop sent) with
    | (none, c) => (none, c)
    | (some 0, c) => (some false, c)
    | (some (n + 1), c) => c.writeFrom data (sent + (n + 1))
  else (some true, c)
termination_by data.length - sent

/-- `FdConnection::writeAll`; none where `SIGPIPE` has ended the process. -/
def writeAll (c : FdConnection) (data : Bytes) : Option Bool × FdConnection := c.writeFrom data 0

/-- `FdConnection::close`. -/
def close (c : FdConnection) : FdConnection := { c with closed := true }

end FdConnection

end TinyKv
