import TinyKv.Api.Proof.Grammar

/-!
# Decoding an encoded response

The payloads of a response may hold any bytes, also those of the literals around them: the decoder
goes by the lengths. The line that the encoder writes is one of the grammar, so it is read as the
response it was made of, with or without the final line feed (`decodeResponseLine_encodeResponse`).
-/

namespace TinyKv.protocol

open Bytes

/-- What comes back of a response: data that is there but empty is read as absent. -/
def readBack (resp : Response) : Response := { resp with data := resp.data.filter (· ≠ []) }

/-- The bytes of a field. -/
def field (fieldName payload : Bytes) : Bytes :=
  fieldName ++ (decimal payload.length ++ 58 :: payload)

/-- A response line in front of its line feed. -/
def responseLine (resp : Response) : Bytes :=
  ("status=" : Bytes) ++ statusText resp.ok ++ (" " : Bytes) ++ field "message=" resp.message ++
    (" " : Bytes) ++ field "data=" (resp.data.getD [])

theorem encodeResponse_eq (resp : Response) :
    encodeResponse resp = responseLine resp ++ [10] := by
  have hm : (" message=" : Bytes) = (" " : Bytes) ++ ("message=" : Bytes) := rfl
  have hd : (" data=" : Bytes) = (" " : Bytes) ++ ("data=" : Bytes) := rfl
  have hc : (":" : Bytes) = [58] := rfl
  have hn : ("\n" : Bytes) = [10] := rfl
  simp only [encodeResponse, responseLine, field, statusText, hm, hd, hc, hn, List.append_assoc,
    List.cons_append, List.nil_append]

theorem responseOf_eq_readBack (resp : Response) :
    responseOf resp.ok resp.message (resp.data.getD []) = readBack resp := by
  obtain ⟨ok, message, data⟩ := resp
  cases data with
  | none => rfl
  | some data => by_cases h : data = [] <;> simp [responseOf, readBack, h, Option.filter]

/-- A response line is read as its response, with nothing or a line feed behind it. -/
theorem decodeResponseLine_responseLine (resp : Response) (hm : resp.message.length < 2 ^ 64)
    (hd : ∀ data, resp.data = some data → data.length < 2 ^ 64) {post : Bytes}
    (hpost : post = [] ∨ post = [10]) :
    decodeResponseLine (responseLine resp ++ post) = .ok (.ok (readBack resp)) := by
  have hdata : (resp.data.getD []).length < 2 ^ 64 := by
    cases h : resp.data with
    | none => simp
    | some data => exact hd data h
  refine decodeResponseLine_ok_iff.2 ⟨resp.ok, _, resp.message, resp.data.getD [], _, _, post, ?_,
    ⟨denotes_decimal _, hm, denotes_decimal _, hdata, hpost, rfl⟩,
    (responseOf_eq_readBack resp).symm⟩
  simp only [responseLine, field, fieldBytes, List.append_assoc, List.cons_append]

/-- **Responses come back**, with or without their line feed; empty data comes back as absent. -/
theorem decodeResponseLine_encodeResponse (resp : Response) (hm : resp.message.length < 2 ^ 64)
    (hd : ∀ data, resp.data = some data → data.length < 2 ^ 64) :
    decodeResponseLine (encodeResponse resp) = .ok (.ok (readBack resp)) ∧
      decodeResponseLine (encodeResponse resp).dropLast = .ok (.ok (readBack resp)) := by
  rw [encodeResponse_eq, List.dropLast_concat]
  constructor
  · exact decodeResponseLine_responseLine resp hm hd (.inr rfl)
  · have h := decodeResponseLine_responseLine resp hm hd (.inl rfl : ([] : Bytes) = [] ∨ _)
    rwa [List.append_nil] at h

/-- A message that looks like the field behind it, and data with a line feed. -/
theorem decodeResponseLine_encodeResponse_literals :
    decodeResponseLine (encodeResponse ⟨true, " data=3:", some "a\nb"⟩) =
      .ok (.ok ⟨true, " data=3:", some "a\nb"⟩) :=
  (decodeResponseLine_encodeResponse ⟨true, " data=3:", some "a\nb"⟩ (by decide)
    (fun data h => by cases h; decide)).1

end TinyKv.protocol
