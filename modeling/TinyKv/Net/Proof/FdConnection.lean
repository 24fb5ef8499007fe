import TinyKv.Net.FdConnection

/-!
# Lines do not depend on chunks

A connection has a stream in front of it: the buffer and the chunks that have not arrived
(`pending`). `readLine` gives its first line, wherever the chunks are cut (`readLine_append`), and
none if it has no line (`readLine_of_not_mem`). `writeAll` puts its bytes on the wire as they are,
however many of them each `send` takes (`writeAll_sent`).
-/

namespace TinyKv.FdConnection

open Bytes

/-- No call of `recv` or `send` fails before the peer has closed. -/
structure Healthy (c : FdConnection) : Prop where
  recvs : ∀ chunk ∈ c.recvs, chunk ≠ []
  sends : ∀ k, 0 < c.sends k

/-! ## Reading -/

theorem takeLine_of_mem {buffer_ : Bytes} (h : newLine ∈ buffer_) :
    ∃ line rest, takeLine buffer_ = some (line, rest) ∧ newLine ∉ line := by
  obtain ⟨pos, hpos⟩ := Option.isSome_iff_exists.1 (List.isSome_idxOf?.2 h)
  refine ⟨buffer_.take pos, buffer_.drop (pos + 1), by rw [takeLine, hpos], fun hmem => ?_⟩
  obtain ⟨hlt, -, hbefore⟩ := List.idxOf?_eq_some_iff.1 hpos
  obtain ⟨j, hj, hat⟩ := List.getElem_of_mem hmem
  rw [List.length_take] at hj
  rw [List.getElem_take] at hat
  exact hbefore j (by omega) hat

theorem takeLine_of_not_mem {buffer_ : Bytes} (h : newLine ∉ buffer_) : takeLine buffer_ = none := by
  rw [takeLine, List.idxOf?_eq_none_iff.2 h]

theorem readLineFrom_append {recvs : List Bytes} (hr : ∀ chunk ∈ recvs, chunk ≠ []) {line rest : Bytes}
    (h : newLine ∉ line) {buffer_ : Bytes} (hs : buffer_ ++ recvs.flatten = line ++ newLine :: rest) :
    ∃ buffer' recvs', readLineFrom buffer_ recvs = (some line, buffer', recvs') ∧
      buffer' ++ recvs'.flatten = rest ∧ ∀ chunk ∈ recvs', chunk ≠ [] := by
  by_cases hmem : newLine ∈ buffer_
  · -- the line is in the buffer already
    obtain ⟨line', rest', htake, hline'⟩ := takeLine_of_mem hmem
    have hsplit : line' ++ newLine :: (rest' ++ recvs.flatten) = line ++ newLine :: rest := by
      rw [← hs, takeLine_eq_some htake, List.append_assoc, List.cons_append]
    obtain ⟨rfl, hrest⟩ := Lines.append_cons_inj hline' h hsplit
    cases recvs with
    | nil => exact ⟨rest', [], by rw [readLineFrom, htake], hrest, nofun⟩
    | cons chunk recvs => exact ⟨rest', chunk :: recvs, by rw [readLineFrom, htake], hrest, hr⟩
  · cases recvs with
    | nil =>
      rw [List.flatten_nil, List.append_nil] at hs
      exact absurd (by rw [hs]; simp) hmem
    | cons chunk recvs =>
      have hne : ¬ chunk.length = 0 := fun hz =>
        hr chunk List.mem_cons_self (List.length_eq_zero_iff.1 hz)
      rw [readLineFrom, takeLine_of_not_mem hmem]
      dsimp only
      rw [if_neg hne]
      exact readLineFrom_append (fun c hc => hr c (List.mem_cons_of_mem _ hc)) h
        (by rw [List.append_assoc, ← hs, List.flatten_cons])

theorem readLineFrom_of_not_mem {recvs : List Bytes} (hr : ∀ chunk ∈ recvs, chunk ≠ [])
    {buffer_ : Bytes} (h : newLine ∉ buffer_ ++ recvs.flatten) :
    readLineFrom buffer_ recvs = (none, buffer_ ++ recvs.flatten, []) := by
  induction recvs generalizing buffer_ with
  | nil =>
    rw [List.flatten_nil, List.append_nil] at h ⊢
    rw [readLineFrom, takeLine_of_not_mem h]
  | cons chunk recvs ih =>
    rw [List.flatten_cons, ← List.append_assoc] at h ⊢
    have hbuf : newLine ∉ buffer_ := fun hm => h (by simp [hm])
    have hne : ¬ chunk.length = 0 := fun hz =>
      hr chunk List.mem_cons_self (List.length_eq_zero_iff.1 hz)
    rw [readLineFrom, takeLine_of_not_mem hbuf]
    dsimp only
    rw [if_neg hne]
    exact ih (fun c hc => hr c (List.mem_cons_of_mem _ hc)) h

variable {c : FdConnection}

/-- **The first line** is read, wherever the chunks are cut. -/
theorem readLine_append (hc : c.Healthy) {line rest : Bytes} (h : newLine ∉ line)
    (hs : c.pending = line ++ newLine :: rest) :
    ∃ c', c.readLine = (some line, c') ∧ c'.pending = rest ∧ c'.Healthy ∧ c'.sent = c.sent := by
  obtain ⟨buffer', recvs', hrun, hrest, hr⟩ := readLineFrom_append hc.recvs h hs
  refine ⟨{ c with buffer_ := buffer', recvs := recvs' }, ?_, hrest, ⟨hr, hc.sends⟩, rfl⟩
  rw [readLine, hrun]

theorem readLine_of_not_mem (hc : c.Healthy) (h : newLine ∉ c.pending) :
    ∃ c', c.readLine = (none, c') ∧ c'.sent = c.sent := by
  refine ⟨{ c with buffer_ := c.pending, recvs := [] }, ?_, rfl⟩
  rw [readLine, readLineFrom_of_not_mem hc.recvs h]
  rfl

/-- **All lines** are read, wherever the chunks are cut. -/
theorem readLines_eq (hc : c.Healthy) : c.readLines = Lines.terminated newLine c.pending := by
  fun_induction readLines c with
  | case1 c c' hnone =>
    by_cases hmem : newLine ∈ c.pending
    · obtain ⟨line, rest, hs, hline⟩ := List.eq_append_cons_of_mem hmem
      obtain ⟨c'', hrun, -⟩ := readLine_append hc hline hs
      rw [hnone] at hrun
      cases hrun
    · rw [Lines.terminated_of_not_mem hmem]
  | case2 c line c' hsome ih =>
    by_cases hmem : newLine ∈ c.pending
    · obtain ⟨line', rest, hs, hline⟩ := List.eq_append_cons_of_mem hmem
      obtain ⟨c'', hrun, hrest, hc', -⟩ := readLine_append hc hline hs
      rw [hsome] at hrun
      cases hrun
      rw [ih hc', hs, Lines.terminated_append_cons hline, hrest]
    · obtain ⟨c'', hrun, -⟩ := readLine_of_not_mem hc hmem
      rw [hsome] at hrun
      cases hrun

/-! ## Writing -/

theorem send_taken {c c' : FdConnection} {bytes : Bytes} {n : Nat}
    (h : c.send bytes = (some n, c')) :
    n = min (c.sends 0) bytes.length ∧
      c' = { c with sends := fun k => c.sends (k + 1), sent := c.sent ++ bytes.take n } := by
  simp only [send, Prod.mk.injEq] at h
  obtain ⟨hn, rfl⟩ := h
  split at hn
  · cases hn
  · cases hn
    exact ⟨rfl, rfl⟩

theorem writeFrom_sent {data : Bytes} {sent : Nat} (hc : c.Healthy) :
    ∃ c', c.writeFrom data sent = (some true, c') ∧ c'.sent = c.sent ++ data.drop sent ∧
      c'.Healthy ∧ c'.pending = c.pending := by
  fun_induction writeFrom c data sent with
  | case1 c sent hlt c' hsend =>
    -- a socket in good health takes at least one byte
    have := hc.sends 0
    simp only [send, Prod.mk.injEq] at hsend
    split at hsend
    · rename_i hpipe
      simp only [Bool.and_eq_true, decide_eq_true_eq] at hpipe
      omega
    · cases hsend.1
  | case2 c sent hlt c' hsend =>
    have := hc.sends 0
    have hn := (send_taken hsend).1
    rw [List.length_drop] at hn
    omega
  | case3 c sent hlt n c' hsend ih =>
    obtain ⟨-, rfl⟩ := send_taken hsend
    obtain ⟨c'', hrun, hsent, hhealthy, hpending⟩ := ih ⟨hc.recvs, fun k => hc.sends (k + 1)⟩
    refine ⟨c'', hrun, ?_, hhealthy, hpending⟩
    rw [hsent, List.append_assoc, ← List.drop_drop, List.take_append_drop]
  | case4 c sent hge =>
    exact ⟨c, rfl, by rw [List.drop_eq_nil_of_le (by omega), List.append_nil], hc, rfl⟩

/-- **All bytes** are sent, however many of them each `send` takes. -/
theorem writeAll_sent (hc : c.Healthy) (data : Bytes) :
    ∃ c', c.writeAll data = (some true, c') ∧ c'.sent = c.sent ++ data ∧ c'.Healthy ∧
      c'.pending = c.pending := by
  have h := @writeFrom_sent c data 0 hc
  rwa [List.drop_zero] at h

end TinyKv.FdConnection
