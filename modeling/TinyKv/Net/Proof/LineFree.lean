import TinyKv.Api.Proof.Response
import TinyKv.Api.Proof.Server
import TinyKv.Core.Proof.StoredValues
import TinyKv.Net.Session

/-!
# No response holds a line feed

Responses are framed by line feeds, their payloads by lengths, so a line feed in a payload would
break the frame. There is none: a message is one of a fixed list (`messages`), and a value is a
token of a request line (`callOf_puts`), which has no white space, whatever session put it and
however often it was written to tables and read back (`DbImpl.Holds`).

`serveLine_plain` is the step: a line that is answered keeps the database so and has a response
whose line is free of line feeds (`Response.Plain`).
-/

namespace TinyKv

open Bytes protocol

/-- A string without a line feed; its length is a `size_t`. -/
def Plain (bs : Bytes) : Prop := FdConnection.newLine ∉ bs ∧ bs.length < 2 ^ 64

instance (bs : Bytes) : Decidable (Plain bs) := inferInstanceAs (Decidable (_ ∧ _))

/-! ## Tokens -/

theorem plain_of_mem_tokens {line token : Bytes} (hlen : line.length < 2 ^ 64)
    (h : token ∈ tokens line) : Plain token := by
  obtain ⟨hsep, hle⟩ := Lines.mem_splitOnP (List.mem_of_mem_filter h)
  refine ⟨fun hmem => ?_, hle.trans_lt hlen⟩
  have := hsep _ hmem
  exact absurd this (by decide)

theorem callOf_puts {line : Bytes} (hlen : line.length < 2 ^ 64) {c : Call}
    (h : callOf line = some c) : c.Puts Plain := by
  unfold callOf decodeLine at h
  split at h
  · cases h
    trivial
  · rename_i key val args hreq
    cases h
    split at hreq
    · cases hreq
    · rename_i cmd rest htokens
      have hargs : rest = key :: val :: args := by
        simp only [Except.ok.injEq, Request.mk.injEq] at hreq
        exact hreq.2
      apply plain_of_mem_tokens hlen
      rw [htokens, hargs]
      simp
  · cases h
    trivial
  · cases h
    trivial
  · cases h

/-! ## Messages -/

def putErrors : List Bytes :=
  ["[MemTableImpl.put()] Cannot PUT: memtable in read-only mode",
    "[MemTableImpl.put()] Failed to PUT: Flushing error ",
    "MemTableImpl.put()] Failed to PUT: Failed to write to WAL"]

def delErrors : List Bytes :=
  ["Cannot DELETE: key does not exist", "Cannot DELETE: memtable in read-only mode",
    "[MemTableImpl.put()] Failed to DELETE: Flushing error ",
    "MemTableImpl.put()] Failed to PUT: Failed to write to WAL", "Failed to DELETE"]

def getReplies : List Bytes := ["OK", "Key does not exist"]

/-- Every message that a response can have. -/
def messages : List Bytes :=
  getReplies ++ lineReplies ++ putErrors ++
    delErrors.map (("Failed to DELETE key: " : Bytes) ++ ·)

theorem plain_ofString {l : List Char} (h : (l.all fun c => UInt8.ofNat c.toNat != 10) = true)
    (hl : l.length < 2 ^ 63) :
    FdConnection.newLine ∉ ofString (String.ofList l) ∧
      (ofString (String.ofList l)).length < 2 ^ 63 := by
  rw [ofString, String.toList_ofList, List.length_map]
  refine ⟨fun hmem => ?_, hl⟩
  obtain ⟨c, hc, he⟩ := List.mem_map.1 hmem
  have := List.all_eq_true.1 h c hc
  rw [he] at this
  exact absurd this (by decide)

theorem plain_of_mem_messages {message : Bytes} (h : message ∈ messages) : Plain message := by
  have hshort : ∀ text ∈ getReplies ++ lineReplies ++ putErrors ++ delErrors,
      FdConnection.newLine ∉ text ∧ text.length < 2 ^ 63 := by
    simp only [getReplies, lineReplies, putErrors, delErrors, List.cons_append, List.nil_append,
      List.forall_mem_cons]
    repeat' apply And.intro
    all_goals first | exact (plain_ofString (by decide) (by decide)).1 |
      exact (plain_ofString (by decide) (by decide)).2 | exact List.forall_mem_nil _
  have hdel : FdConnection.newLine ∉ ofString "Failed to DELETE key: " ∧
      (ofString "Failed to DELETE key: ").length < 2 ^ 63 :=
    plain_ofString (by decide) (by decide)
  rcases List.mem_append.1 h with h | h
  · obtain ⟨hfree, hlen⟩ := hshort message (List.mem_append_left _ h)
    exact ⟨hfree, by omega⟩
  · obtain ⟨text, htext, rfl⟩ := List.mem_map.1 h
    obtain ⟨hfree, hlen⟩ := hshort text (List.mem_append_right _ htext)
    refine ⟨fun hmem => ?_, ?_⟩
    · rcases List.mem_append.1 hmem with hmem | hmem
      · exact hdel.1 hmem
      · exact hfree hmem
    · rw [List.length_append]
      omega

section

variable {m m' : MemTableImpl StorageManagerImpl} {env : Env} {fs fs' : FileSystem} {err : Error}

theorem logAndSet_message {e : Entry} (h : m.logAndSet env e fs = (some err, m', fs')) :
    err = ⟨"MemTableImpl.put()] Failed to PUT: Failed to write to WAL"⟩ := by
  unfold MemTableImpl.logAndSet at h
  split at h
  · cases h
    rfl
  · cases h

theorem put_message {key val : Bytes} (h : m.put env key val fs = (.ok (some err), m', fs')) :
    err.error ∈ putErrors := by
  unfold MemTableImpl.put at h
  split at h
  · cases h
    simp [putErrors]
  · split at h
    · cases h
    · cases h
      simp [putErrors]
    · rename_i m1 fs1 _
      simp only [Prod.mk.injEq, Except.ok.injEq] at h
      obtain ⟨herr, rfl, rfl⟩ := h
      have hset : m1.logAndSet env ⟨key, val, false⟩ fs1 =
          (some err, (m1.logAndSet env ⟨key, val, false⟩ fs1).2) := by rw [← herr]
      rw [logAndSet_message hset]
      simp [putErrors]

theorem delExisting_message {key : Bytes}
    (h : m.delExisting env key fs = (.ok (some err), m', fs')) : err.error ∈ delErrors := by
  unfold MemTableImpl.delExisting at h
  split at h
  · cases h
    simp [delErrors]
  · split at h
    · cases h
    · cases h
      simp [delErrors]
    · split at h
      · rename_i hset
        cases h
        rw [logAndSet_message hset]
        simp [delErrors]
      · split at h
        · cases h
          simp [delErrors]
        · cases h

theorem del_message {key : Bytes} (h : m.del env key fs = (.ok (some err), m', fs')) :
    err.error ∈ delErrors := by
  unfold MemTableImpl.del at h
  split at h
  · exact delExisting_message h
  · split at h
    · cases h
    · cases h
      simp [delErrors]
    · exact delExisting_message h

end

section

variable {x x' : DbImpl StorageManagerImpl × FileSystem} {resp : Response}

theorem get_message {key : Bytes} (h : x.1.get x.2 key = .ok resp) : resp.message ∈ messages := by
  have hok : ("OK" : Bytes) ∈ messages := by simp [messages, getReplies]
  have hnone : ("Key does not exist" : Bytes) ∈ messages := by simp [messages, getReplies]
  unfold DbImpl.get at h
  split at h
  · split at h
    · cases h
      exact hnone
    · cases h
      exact hok
  · split at h
    · cases h
    · cases h
      exact hnone
    · cases h
      exact hok

theorem step_message {c : Call × Env} (h : DbImpl.step x c = (.ok resp, x')) :
    resp.message ∈ messages := by
  have hok : ("OK" : Bytes) ∈ messages := by simp [messages, getReplies]
  obtain ⟨c, env⟩ := c
  cases c with
  | put key val =>
    simp only [DbImpl.step, DbImpl.call, DbImpl.put] at h
    split at h
    · cases h
    · rename_i hput
      cases h
      exact List.mem_append_left _ (List.mem_append_right _ (put_message hput))
    · cases h
      exact hok
  | get key =>
    simp only [DbImpl.step, DbImpl.call, Prod.mk.injEq] at h
    exact get_message h.1
  | del key =>
    simp only [DbImpl.step, DbImpl.call, DbImpl.del] at h
    split at h
    · cases h
    · rename_i hdel
      cases h
      exact List.mem_append_right _ (List.mem_map_of_mem (del_message hdel))
    · cases h
      exact hok
  | forceFlushForTests =>
    simp only [DbImpl.step, DbImpl.call, DbImpl.forceFlushForTests] at h
    split at h
    · cases h
    · cases h
      exact hok
  | forceCompactForTests =>
    simp only [DbImpl.step, DbImpl.call, DbImpl.forceCompactForTests, Prod.mk.injEq] at h
    obtain ⟨h, -⟩ := h
    split at h
    · cases h
    · cases h
      exact hok

end

/-! ## Lines -/

/-- The payloads of the response have no line feed. -/
structure Response.Plain (resp : Response) : Prop where
  message : TinyKv.Plain resp.message
  data : ∀ data, resp.data = some data → TinyKv.Plain data

/-- **One line** that is answered. -/
theorem serveLine_plain {config : DbFactoryConfig} {x x' : DbImpl StorageManagerImpl × FileSystem}
    (hx : DbImpl.Holds Plain config x) {line : Bytes × Env} (hlen : line.1.length < 2 ^ 64)
    (hb : WithinBounds config x'.2) {resp : Response} (h : serveLine x line = (.ok resp, x')) :
    DbImpl.Holds Plain config x' ∧ resp.Plain := by
  rcases serveLine_eq x line with ⟨c, hc, hrun⟩ | ⟨-, r, hrun, hdata, hmessage⟩
  · rw [hrun] at h
    obtain ⟨hx', hdata⟩ := hx.step hb (by decide) (callOf_puts hlen hc) h
    exact ⟨hx', plain_of_mem_messages (step_message h), hdata⟩
  · rw [hrun] at h
    cases h
    have hmem : resp.message ∈ messages :=
      List.mem_append_left _ (List.mem_append_left _ (List.mem_append_right _ hmessage))
    refine ⟨hx, plain_of_mem_messages hmem, ?_⟩
    rw [hdata]
    nofun

theorem newLine_not_mem_field {fieldName payload : Bytes} (hn : FdConnection.newLine ∉ fieldName)
    (hp : FdConnection.newLine ∉ payload) : FdConnection.newLine ∉ field fieldName payload := by
  have hdigits : FdConnection.newLine ∉ decimal payload.length := fun hmem =>
    absurd (isDigit_of_mem_decimal hmem) (by decide)
  have hcolon : FdConnection.newLine ≠ 58 := by decide
  simp only [field, List.mem_append, List.mem_cons, not_or]
  exact ⟨hn, hdigits, hcolon, hp⟩

theorem newLine_not_mem_responseLine {resp : Response} (h : resp.Plain) :
    FdConnection.newLine ∉ responseLine resp := by
  have hstatus : FdConnection.newLine ∉ statusText resp.ok := by
    cases resp.ok <;> decide
  have hdata : FdConnection.newLine ∉ resp.data.getD [] := by
    cases hd : resp.data with
    | none => exact List.not_mem_nil
    | some data => exact (h.data data hd).1
  simp only [responseLine, List.mem_append, not_or]
  exact ⟨⟨⟨⟨⟨by decide, hstatus⟩, by decide⟩, newLine_not_mem_field (by decide) h.message.1⟩,
    by decide⟩, newLine_not_mem_field (by decide) hdata⟩

end TinyKv
