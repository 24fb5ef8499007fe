import TinyKv.Api.Codec
import TinyKv.Lib.Lines

/-!
# The grammar of a response line

`decodeResponseLine` accepts exactly the lines

`status=<STATUS> message=<length>:<bytes> data=<length>:<bytes>`

with nothing or one line feed behind them, where a length is any string of digits for the number of
bytes (`decodeResponseLine_accepts`). Each reader is described by what must stand at its position for
it to succeed (`consumeLiteral_eq`, `parseLengthPrefixedField_ok_iff`, `decodeFields_ok_iff`); its
position never leaves the line, so `std::string::compare` does not throw.
-/

namespace TinyKv.protocol

open Bytes

section Readers

variable {line : Bytes} {pos : Nat}

/-! ## Literals and lengths -/

theorem consumeLiteral_eq (hpos : pos ≤ line.length) (literal : Bytes) :
    consumeLiteral line pos literal =
      .ok (if literal <+: line.drop pos then some (pos + literal.length) else none) := by
  have hiff : (line.drop pos).take literal.length = literal ↔ literal <+: line.drop pos := by
    rw [List.prefix_iff_eq_take]
    exact eq_comm
  rw [consumeLiteral, if_neg (by omega)]
  by_cases h : literal <+: line.drop pos
  · rw [if_pos (hiff.2 h), if_pos h]
  · rw [if_neg (fun ht => h (hiff.1 ht)), if_neg h]

theorem consumeLiteral_some_iff (hpos : pos ≤ line.length) {literal : Bytes} {stop : Nat} :
    consumeLiteral line pos literal = .ok (some stop) ↔
      literal <+: line.drop pos ∧ stop = pos + literal.length := by
  rw [consumeLiteral_eq hpos]
  split
  · rename_i h
    simp only [Except.ok.injEq, Option.some.injEq, h, true_and]
    exact eq_comm
  · rename_i h
    simp only [Except.ok.injEq, reduceCtorEq, h, false_and]

theorem le_of_prefix_drop {seg : Bytes} (hpos : pos ≤ line.length) (h : seg <+: line.drop pos) :
    pos + seg.length ≤ line.length := (show At line pos seg from ⟨hpos, h⟩).le

theorem drop_eq_append_drop {seg : Bytes} (h : seg <+: line.drop pos) :
    line.drop pos = seg ++ line.drop (pos + seg.length) := by
  obtain ⟨t, ht⟩ := h
  rw [← List.drop_drop, ← ht, List.drop_left]

theorem drop_eq_append {seg rest : Bytes} (h : line.drop pos = seg ++ rest) :
    seg <+: line.drop pos ∧ line.drop (pos + seg.length) = rest := by
  refine ⟨h ▸ List.prefix_append _ _, ?_⟩
  rw [← List.drop_drop, h, List.drop_left]

/-- A string of digits, leading zeros allowed, for the number `n`. -/
structure Denotes (digits : Bytes) (n : Nat) : Prop where
  ne_nil : digits ≠ []
  isDigit : ∀ b ∈ digits, Bytes.isDigit b = true
  value : decimalVal digits = n

theorem denotes_decimal (n : Nat) : Denotes (decimal n) n :=
  ⟨decimal_ne_nil n, fun _ h => isDigit_of_mem_decimal h, decimalVal_decimal n⟩

theorem stoull_eq_some_iff {digits : Bytes} {n : Nat} :
    stoull digits = some n ↔ decimalVal digits = n ∧ n < 2 ^ 64 := by
  unfold stoull
  split
  · rename_i h
    simp only [Option.some.injEq]
    refine ⟨fun he => ?_, ?_⟩
    · exact ⟨he, he ▸ h⟩
    · exact fun he => he.1
  · rename_i h
    refine ⟨fun he => ?_, fun he => ?_⟩
    · cases he
    · exact absurd (he.1 ▸ he.2) h

theorem takeWhile_until {p : UInt8 → Bool} {a post : Bytes} {b : UInt8} (ha : ∀ x ∈ a, p x = true)
    (hb : p b = false) : (a ++ b :: post).takeWhile p = a := by
  rw [List.takeWhile_append_of_pos ha, List.takeWhile_cons, hb]
  exact List.append_nil a

/-! ## Fields -/

/-- The bytes of a field: name, length, colon and payload. -/
def fieldBytes (fieldName digits payload : Bytes) : Bytes :=
  fieldName ++ (digits ++ 58 :: payload)

theorem length_fieldBytes (fieldName digits payload : Bytes) :
    (fieldBytes fieldName digits payload).length =
      fieldName.length + digits.length + 1 + payload.length := by
  simp only [fieldBytes, List.length_append, List.length_cons]
  omega

/-- A field at the position is read as its payload, whatever its bytes are. -/
theorem parseLengthPrefixedField_at {digits payload : Bytes}
    (hdigits : Denotes digits payload.length) (hlt : payload.length < 2 ^ 64)
    (pre fieldName post : Bytes) :
    parseLengthPrefixedField (pre ++ fieldBytes fieldName digits payload ++ post) pre.length
        fieldName =
      .ok (.ok (payload, pre.length + (fieldBytes fieldName digits payload).length)) := by
  set line := pre ++ fieldBytes fieldName digits payload ++ post with hline
  -- the line, seen from the name and from the payload
  have hname : line = pre ++ fieldName ++ (digits ++ 58 :: (payload ++ post)) := by
    simp [hline, fieldBytes]
  have hpayload : line = (pre ++ fieldName ++ digits ++ [58]) ++ (payload ++ post) := by
    simp [hname]
  have hdrop : line.drop (pre.length + fieldName.length) = digits ++ 58 :: (payload ++ post) := by
    rw [hname]
    exact List.drop_left' (by simp)
  have hlit : consumeLiteral line pre.length fieldName =
      .ok (some (pre.length + fieldName.length)) := by
    refine (consumeLiteral_some_iff ?_).2 ⟨?_, rfl⟩
    · rw [hname, List.append_assoc, List.length_append]
      omega
    · rw [hname, List.append_assoc, List.drop_left]
      exact List.prefix_append _ _
  have hcolon : (line)[pre.length + fieldName.length + digits.length]? = some 58 := by
    have hat : (line.drop (pre.length + fieldName.length))[digits.length]? = some 58 := by
      rw [hdrop, List.getElem?_append_right (le_refl _), Nat.sub_self]
      rfl
    rwa [List.getElem?_drop] at hat
  have hrest : line.drop (pre.length + fieldName.length + digits.length + 1) = payload ++ post := by
    rw [hpayload]
    exact List.drop_left' (by simp only [List.length_append, List.length_singleton])
  have hsize : line.length - (pre.length + fieldName.length + digits.length + 1) =
      payload.length + post.length := by
    rw [hpayload]
    simp only [List.length_append, List.length_singleton]
    omega
  have hstoull : stoull digits = some payload.length := stoull_eq_some_iff.2 ⟨hdigits.value, hlt⟩
  simp only [parseLengthPrefixedField, hlit, hdrop, takeWhile_until hdigits.isDigit
    (show isDigit 58 = false from rfl), hdigits.ne_nil, hcolon, hstoull, hrest, hsize, ne_eq,
    not_true_eq_false, ↓reduceIte, List.take_left]
  rw [if_neg (by omega), length_fieldBytes]
  simp only [Except.ok.injEq, Prod.mk.injEq, true_and]
  omega

theorem eq_takeWhile_append {p : UInt8 → Bool} {rest : Bytes} {b : UInt8}
    (h : rest[(rest.takeWhile p).length]? = some b) :
    ∃ tail, rest = rest.takeWhile p ++ b :: tail := by
  have hsplit : rest.takeWhile p ++ rest.dropWhile p = rest := List.takeWhile_append_dropWhile
  nth_rewrite 1 [← hsplit] at h
  rw [List.getElem?_append_right (le_refl _), Nat.sub_self] at h
  cases ht : rest.dropWhile p with
  | nil =>
    rw [ht] at h
    cases h
  | cons b' tail =>
    rw [ht] at h hsplit
    cases h
    exact ⟨tail, hsplit.symm⟩

/-- What the reader of a field returns stands at its position. -/
theorem field_of_parseLengthPrefixedField (hpos : pos ≤ line.length) {fieldName payload : Bytes}
    {stop : Nat} (h : parseLengthPrefixedField line pos fieldName = .ok (.ok (payload, stop))) :
    ∃ digits, Denotes digits payload.length ∧ payload.length < 2 ^ 64 ∧
      fieldBytes fieldName digits payload <+: line.drop pos ∧
      stop = pos + (fieldBytes fieldName digits payload).length := by
  unfold parseLengthPrefixedField at h
  split at h
  · cases h
  · cases h
  · rename_i start hlit
    obtain ⟨⟨rest, hrest⟩, rfl⟩ := (consumeLiteral_some_iff hpos).1 hlit
    have hdrop : line.drop (pos + fieldName.length) = rest := by
      rw [← List.drop_drop, ← hrest, List.drop_left]
    have hlen : line.length - (pos + fieldName.length) = rest.length := by
      rw [← hdrop, List.length_drop]
    dsimp only at h
    rw [hdrop] at h
    split at h
    · cases h
    · rename_i hne
      split at h
      · cases h
      · rename_i hcolon
        rw [ne_eq, not_not, ← List.getElem?_drop, hdrop] at hcolon
        obtain ⟨tail, htail⟩ := eq_takeWhile_append hcolon
        set digits := rest.takeWhile isDigit with hdigits
        have htl : rest.length = digits.length + 1 + tail.length := by
          rw [htail, List.length_append, List.length_cons]
          omega
        split at h
        · cases h
        · rename_i length hstoull
          split at h
          · cases h
          · rename_i hshort
            have hpay : (line.drop (pos + fieldName.length + digits.length + 1)).take length =
                tail.take length := by
              rw [Nat.add_assoc (pos + fieldName.length), ← List.drop_drop, hdrop, htail,
                ← List.drop_drop, List.drop_left]
              rfl
            rw [hpay] at h
            obtain ⟨hvalue, hlt⟩ := stoull_eq_some_iff.1 hstoull
            have hpl : (tail.take length).length = length := List.length_take_of_le (by omega)
            have hall : ∀ b ∈ digits, isDigit b = true := List.all_eq_true.1 List.all_takeWhile
            cases h
            refine ⟨digits, ⟨hne, hall, hvalue.trans hpl.symm⟩, by omega,
              ⟨tail.drop length, ?_⟩, ?_⟩
            · rw [← hrest, htail]
              simp only [fieldBytes, List.append_assoc, List.cons_append, List.take_append_drop]
            · rw [length_fieldBytes, hpl]
              omega

/-- **A field is read exactly where one stands.** -/
theorem parseLengthPrefixedField_ok_iff (hpos : pos ≤ line.length) {fieldName payload : Bytes}
    {stop : Nat} :
    parseLengthPrefixedField line pos fieldName = .ok (.ok (payload, stop)) ↔
      ∃ digits, Denotes digits payload.length ∧ payload.length < 2 ^ 64 ∧
        fieldBytes fieldName digits payload <+: line.drop pos ∧
        stop = pos + (fieldBytes fieldName digits payload).length := by
  refine ⟨field_of_parseLengthPrefixedField hpos, ?_⟩
  rintro ⟨digits, hdigits, hlt, ⟨post, hpost⟩, rfl⟩
  have hline : line = line.take pos ++ fieldBytes fieldName digits payload ++ post := by
    rw [List.append_assoc, hpost, List.take_append_drop]
  have hpre : (line.take pos).length = pos := List.length_take_of_le hpos
  have h := parseLengthPrefixedField_at hdigits hlt (line.take pos) fieldName post
  rwa [← hline, hpre] at h

theorem parseLengthPrefixedField_returns (hpos : pos ≤ line.length) (fieldName : Bytes) :
    (∃ err, parseLengthPrefixedField line pos fieldName = .ok (.error err)) ∨
      ∃ payload stop, parseLengthPrefixedField line pos fieldName = .ok (.ok (payload, stop)) ∧
        stop ≤ line.length := by
  cases h : parseLengthPrefixedField line pos fieldName with
  | error f =>
    unfold parseLengthPrefixedField at h
    rw [consumeLiteral_eq hpos] at h
    split at h
    · rename_i hlit
      cases hlit
    · cases h
    · dsimp only at h
      split at h
      · cases h
      · split at h
        · cases h
        · split at h
          · cases h
          · split at h
            · cases h
            · cases h
  | ok r =>
    cases r with
    | error err => exact .inl ⟨err, rfl⟩
    | ok r =>
      obtain ⟨payload, stop⟩ := r
      obtain ⟨digits, -, -, hp, rfl⟩ := (parseLengthPrefixedField_ok_iff hpos).1 h
      exact .inr ⟨payload, _, rfl, le_of_prefix_drop hpos hp⟩

/-! ## The fields of a response -/

/-- The line feed that ends a frame, if it is there. -/
def Ending (post : Bytes) : Prop := post = [] ∨ post = [10]

theorem ending_iff (hpos : pos ≤ line.length) :
    (if (line)[pos]? = some 10 then pos + 1 else pos) = line.length ↔ Ending (line.drop pos) := by
  obtain ⟨rest, hrest⟩ : ∃ rest, line.drop pos = rest := ⟨_, rfl⟩
  have hhead : (line)[pos]? = rest.head? := by rw [← hrest, List.head?_drop]
  have hlen : line.length = pos + rest.length := by
    rw [← hrest, List.length_drop]
    omega
  rw [hhead, hlen, hrest]
  cases rest with
  | nil => simp [Ending]
  | cons b rest =>
    by_cases hb : b = 10
    · subst hb
      simp only [List.head?_cons, ↓reduceIte, List.length_cons, Ending, List.cons.injEq, true_and,
        reduceCtorEq, false_or]
      rw [← List.length_eq_zero_iff]
      omega
    · simp [Ending, hb]

/-- The response that the parts of a line stand for. -/
def responseOf (ok : Bool) (message data : Bytes) : Response :=
  ⟨ok, message, if data = [] then none else some data⟩

/-- What stands behind the status: the two fields, each behind a blank, and the ending. -/
structure FieldsAt (rest message data d₁ d₂ post : Bytes) : Prop where
  messageLength : Denotes d₁ message.length
  message_lt : message.length < 2 ^ 64
  dataLength : Denotes d₂ data.length
  data_lt : data.length < 2 ^ 64
  ending : Ending post
  bytes : rest = (" " : Bytes) ++ (fieldBytes "message=" d₁ message ++ ((" " : Bytes) ++
    (fieldBytes "data=" d₂ data ++ post)))

/-- **The fields of a response** are read exactly where they stand. -/
theorem decodeFields_ok_iff (hpos : pos ≤ line.length) {ok : Bool} {resp : Response} :
    decodeFields line ok pos = .ok (.ok resp) ↔
      ∃ message data d₁ d₂ post, FieldsAt (line.drop pos) message data d₁ d₂ post ∧
        resp = responseOf ok message data := by
  refine ⟨fun h => ?_, ?_⟩
  · unfold decodeFields at h
    split at h
    · cases h
    · cases h
    · rename_i p₁ h₁
      obtain ⟨hb₁, rfl⟩ := (consumeLiteral_some_iff hpos).1 h₁
      have hpos₁ := le_of_prefix_drop hpos hb₁
      split at h
      · cases h
      · cases h
      · rename_i message p₂ h₂
        obtain ⟨d₁, hd₁, hm, hb₂, rfl⟩ := (parseLengthPrefixedField_ok_iff hpos₁).1 h₂
        have hpos₂ := le_of_prefix_drop hpos₁ hb₂
        split at h
        · cases h
        · cases h
        · rename_i p₃ h₃
          obtain ⟨hb₃, rfl⟩ := (consumeLiteral_some_iff hpos₂).1 h₃
          have hpos₃ := le_of_prefix_drop hpos₂ hb₃
          split at h
          · cases h
          · cases h
          · rename_i data p₄ h₄
            obtain ⟨d₂, hd₂, hp, hb₄, hp₄⟩ := (parseLengthPrefixedField_ok_iff hpos₃).1 h₄
            have hpos₄ : p₄ ≤ line.length := hp₄ ▸ le_of_prefix_drop hpos₃ hb₄
            dsimp only at h
            have hend : Ending (line.drop p₄) := by
              by_contra hno
              rw [if_pos fun he => hno ((ending_iff hpos₄).1 he)] at h
              cases h
            rw [if_neg (not_not.2 ((ending_iff hpos₄).2 hend))] at h
            cases h
            refine ⟨message, data, d₁, d₂, _, ⟨hd₁, hm, hd₂, hp, hend, ?_⟩, rfl⟩
            rw [drop_eq_append_drop hb₁, drop_eq_append_drop hb₂, drop_eq_append_drop hb₃,
              drop_eq_append_drop hb₄, ← hp₄]
  · rintro ⟨message, data, d₁, d₂, post, h, rfl⟩
    obtain ⟨hb₁, hr₁⟩ := drop_eq_append h.bytes
    have hpos₁ := le_of_prefix_drop hpos hb₁
    obtain ⟨hb₂, hr₂⟩ := drop_eq_append hr₁
    have hpos₂ := le_of_prefix_drop hpos₁ hb₂
    obtain ⟨hb₃, hr₃⟩ := drop_eq_append hr₂
    have hpos₃ := le_of_prefix_drop hpos₂ hb₃
    obtain ⟨hb₄, hr₄⟩ := drop_eq_append hr₃
    have hpos₄ := le_of_prefix_drop hpos₃ hb₄
    have hend := (ending_iff hpos₄).2 (hr₄ ▸ h.ending)
    simp only [decodeFields, (consumeLiteral_some_iff hpos).2 ⟨hb₁, rfl⟩,
      (parseLengthPrefixedField_ok_iff hpos₁).2 ⟨d₁, h.messageLength, h.message_lt, hb₂, rfl⟩,
      (consumeLiteral_some_iff hpos₂).2 ⟨hb₃, rfl⟩,
      (parseLengthPrefixedField_ok_iff hpos₃).2 ⟨d₂, h.dataLength, h.data_lt, hb₄, rfl⟩, hend,
      ne_eq, not_true_eq_false, ↓reduceIte]
    rfl

theorem decodeFields_returns (hpos : pos ≤ line.length) (ok : Bool) :
    ∃ r, decodeFields line ok pos = .ok r := by
  unfold decodeFields
  rw [consumeLiteral_eq hpos]
  by_cases hb₁ : (" " : Bytes) <+: line.drop pos
  · rw [if_pos hb₁]
    have hpos₁ := le_of_prefix_drop hpos hb₁
    obtain ⟨err, hf⟩ | ⟨message, p₂, hf, hpos₂⟩ := parseLengthPrefixedField_returns hpos₁ "message="
    · simp only [hf]
      exact ⟨_, rfl⟩
    · simp only [hf, consumeLiteral_eq hpos₂]
      by_cases hb₃ : (" " : Bytes) <+: line.drop p₂
      · simp only [if_pos hb₃]
        have hpos₃ := le_of_prefix_drop hpos₂ hb₃
        obtain ⟨err, hf'⟩ | ⟨data, p₄, hf', -⟩ := parseLengthPrefixedField_returns hpos₃ "data="
        · simp only [hf']
          exact ⟨_, rfl⟩
        · simp only [hf']
          by_cases hend : (if (line)[p₄]? = some 10 then p₄ + 1 else p₄) = line.length
          · rw [if_neg (not_not.2 hend)]
            exact ⟨_, rfl⟩
          · rw [if_pos hend]
            exact ⟨_, rfl⟩
      · simp only [if_neg hb₃]
        exact ⟨_, rfl⟩
  · rw [if_neg hb₁]
    exact ⟨_, rfl⟩

/-! ## The line -/

/-- The text of the status. -/
def statusText (ok : Bool) : Bytes := if ok then ("OK" : Bytes) else ("ERR" : Bytes)

theorem statusText_mem (ok : Bool) :
    statusText ok = ("OK" : Bytes) ∨ statusText ok = ("ERR" : Bytes) := by
  cases ok
  · exact .inr rfl
  · exact .inl rfl

theorem statusText_ne_blank (ok : Bool) : ∀ b ∈ statusText ok, (b != 32) = true := by
  apply List.all_eq_true.mp
  cases ok <;> rfl

theorem decodeResponseLine_status (rest : Bytes) :
    decodeResponseLine (("status=" : Bytes) ++ rest) =
      let line := ("status=" : Bytes) ++ rest
      let status := rest.takeWhile (· != 32)
      if status = ("OK" : Bytes) then decodeFields line true (7 + status.length)
      else if status = ("ERR" : Bytes) then decodeFields line false (7 + status.length)
      else .ok (.error "invalid response status") := by
  have hlit : consumeLiteral (("status=" : Bytes) ++ rest) 0 "status=" = .ok (some 7) :=
    (consumeLiteral_some_iff (Nat.zero_le _)).2 ⟨List.prefix_append _ _, rfl⟩
  have hdrop : (("status=" : Bytes) ++ rest).drop 7 = rest := List.drop_left' rfl
  simp only [decodeResponseLine, hlit, hdrop]

theorem statusEnd_le (rest : Bytes) :
    7 + (rest.takeWhile (· != 32)).length ≤ (("status=" : Bytes) ++ rest).length := by
  rw [List.length_append]
  exact Nat.add_le_add_left (List.takeWhile_prefix _).length_le 7

theorem drop_statusEnd (rest : Bytes) :
    (("status=" : Bytes) ++ rest).drop (7 + (rest.takeWhile (· != 32)).length) =
      rest.dropWhile (· != 32) := by
  rw [← List.drop_drop, List.drop_left' (show ("status=" : Bytes).length = 7 from rfl)]
  nth_rewrite 2 [← List.takeWhile_append_dropWhile (p := (· != (32 : UInt8))) (l := rest)]
  rw [List.drop_left]

theorem line_of_decodeFields {rest : Bytes} {ok : Bool} {resp : Response}
    (hstatus : rest.takeWhile (· != 32) = statusText ok)
    (h : decodeFields (("status=" : Bytes) ++ rest) ok (7 + (rest.takeWhile (· != 32)).length) =
      .ok (.ok resp)) :
    ∃ ok tail message data d₁ d₂ post,
      ("status=" : Bytes) ++ rest = ("status=" : Bytes) ++ (statusText ok ++ tail) ∧
        FieldsAt tail message data d₁ d₂ post ∧ resp = responseOf ok message data := by
  obtain ⟨message, data, d₁, d₂, post, hat, hresp⟩ := (decodeFields_ok_iff (statusEnd_le rest)).1 h
  rw [drop_statusEnd] at hat
  refine ⟨ok, _, message, data, d₁, d₂, post, ?_, hat, hresp⟩
  rw [← hstatus, List.takeWhile_append_dropWhile]

/-- A line of the parts that the decoder looks for is accepted. -/
theorem decodeResponseLine_at {ok : Bool} {rest message data d₁ d₂ post : Bytes}
    (hat : FieldsAt rest message data d₁ d₂ post) :
    decodeResponseLine (("status=" : Bytes) ++ (statusText ok ++ rest)) =
      .ok (.ok (responseOf ok message data)) := by
  obtain ⟨rest', hblank⟩ : ∃ rest', rest = 32 :: rest' := ⟨_, hat.bytes⟩
  have hstatus : (statusText ok ++ rest).takeWhile (· != 32) = statusText ok := by
    rw [hblank]
    exact takeWhile_until (statusText_ne_blank ok) rfl
  have hpos := statusEnd_le (statusText ok ++ rest)
  have hdrop : (("status=" : Bytes) ++ (statusText ok ++ rest)).drop
      (7 + (statusText ok).length) = rest := by
    rw [← List.drop_drop, List.drop_left' (show ("status=" : Bytes).length = 7 from rfl),
      List.drop_left]
  rw [hstatus] at hpos
  have hfields : decodeFields (("status=" : Bytes) ++ (statusText ok ++ rest)) ok
      (7 + (statusText ok).length) = .ok (.ok (responseOf ok message data)) :=
    (decodeFields_ok_iff hpos).2 ⟨message, data, d₁, d₂, post, by rw [hdrop]; exact hat, rfl⟩
  rw [decodeResponseLine_status]
  dsimp only
  rw [hstatus]
  cases ok with
  | true =>
    rw [if_pos (show statusText true = ("OK" : Bytes) from rfl)]
    exact hfields
  | false =>
    rw [if_neg (show ¬ statusText false = ("OK" : Bytes) by decide),
      if_pos (show statusText false = ("ERR" : Bytes) from rfl)]
    exact hfields

/-- **What the decoder accepts**, the lengths of the payloads fitting a `std::size_t`. -/
theorem decodeResponseLine_ok_iff {resp : Response} :
    decodeResponseLine line = .ok (.ok resp) ↔
      ∃ ok rest message data d₁ d₂ post, line = ("status=" : Bytes) ++ (statusText ok ++ rest) ∧
        FieldsAt rest message data d₁ d₂ post ∧ resp = responseOf ok message data := by
  refine ⟨fun h => ?_, ?_⟩
  · by_cases hb : ("status=" : Bytes) <+: line
    · obtain ⟨rest, rfl⟩ := hb
      rw [decodeResponseLine_status] at h
      dsimp only at h
      split at h
      · rename_i hstatus
        exact line_of_decodeFields (show _ = statusText true from hstatus) h
      · split at h
        · rename_i hstatus
          exact line_of_decodeFields (show _ = statusText false from hstatus) h
        · cases h
    · have hlit : consumeLiteral line 0 "status=" = .ok none := by
        rw [consumeLiteral_eq (Nat.zero_le _), List.drop_zero, if_neg hb]
      simp only [decodeResponseLine, hlit] at h
      cases h
  · rintro ⟨ok, rest, message, data, d₁, d₂, post, rfl, hat, rfl⟩
    exact decodeResponseLine_at hat

theorem decodeResponseLine_returns (line : Bytes) : ∃ r, decodeResponseLine line = .ok r := by
  by_cases hb : ("status=" : Bytes) <+: line
  · obtain ⟨rest, rfl⟩ := hb
    rw [decodeResponseLine_status]
    dsimp only
    split
    · exact decodeFields_returns (statusEnd_le rest) true
    · split
      · exact decodeFields_returns (statusEnd_le rest) false
      · exact ⟨_, rfl⟩
  · simp only [decodeResponseLine, consumeLiteral_eq (Nat.zero_le _), List.drop_zero, if_neg hb]
    exact ⟨_, rfl⟩

end Readers

/-! ## The grammar -/

/-- A response line, cut into its parts. -/
@[ext]
structure ResponseParts where
  status : Bytes
  messageLength : Bytes
  message : Bytes
  dataLength : Bytes
  data : Bytes
  ending : Bytes
  status_mem : status = ("OK" : Bytes) ∨ status = ("ERR" : Bytes)
  messageLength_denotes : Denotes messageLength message.length
  dataLength_denotes : Denotes dataLength data.length
  ending_mem : ending = [] ∨ ending = ("\n" : Bytes)

namespace ResponseParts

def bytes (p : ResponseParts) : Bytes :=
  ("status=" : Bytes) ++ p.status ++ (" message=" : Bytes) ++ p.messageLength ++ (":" : Bytes) ++
    p.message ++ (" data=" : Bytes) ++ p.dataLength ++ (":" : Bytes) ++ p.data ++ p.ending

/-- The response that the parts stand for; empty data is absent. -/
def response (p : ResponseParts) : Response where
  ok := p.status = ("OK" : Bytes)
  message := p.message
  data := if p.data = [] then none else some p.data

theorem bytes_eq (p : ResponseParts) : p.bytes = ("status=" : Bytes) ++ (p.status ++
    ((" " : Bytes) ++ (fieldBytes "message=" p.messageLength p.message ++ ((" " : Bytes) ++
      (fieldBytes "data=" p.dataLength p.data ++ p.ending))))) := by
  have hm : (" message=" : Bytes) = (" " : Bytes) ++ ("message=" : Bytes) := rfl
  have hd : (" data=" : Bytes) = (" " : Bytes) ++ ("data=" : Bytes) := rfl
  have hc : (":" : Bytes) = [58] := rfl
  simp only [bytes, fieldBytes, hm, hd, hc, List.append_assoc, List.cons_append, List.nil_append]

theorem status_eq (p : ResponseParts) : p.status = statusText (decide (p.status = ("OK" : Bytes))) := by
  rcases p.status_mem with h | h
  · rw [h]
    rfl
  · rw [h]
    decide

theorem length_payloads_lt (p : ResponseParts) (h : p.bytes.length < 2 ^ 64) :
    p.message.length < 2 ^ 64 ∧ p.data.length < 2 ^ 64 := by
  simp only [bytes, List.length_append] at h
  omega

theorem field_inj {d d' payload payload' rest rest' : Bytes} (h : Denotes d payload.length)
    (h' : Denotes d' payload'.length)
    (heq : d ++ 58 :: (payload ++ rest) = d' ++ 58 :: (payload' ++ rest')) :
    d = d' ∧ payload = payload' ∧ rest = rest' := by
  have hcolon : ∀ {d : Bytes} {n : Nat}, Denotes d n → (58 : UInt8) ∉ d := by
    intro d n hd hmem
    exact absurd (hd.isDigit 58 hmem) (by decide)
  obtain ⟨rfl, htail⟩ := Lines.append_cons_inj (hcolon h) (hcolon h') heq
  exact ⟨rfl, List.append_inj htail (h.value.symm.trans h'.value)⟩

/-- **A line is cut in one way.** -/
theorem bytes_injective : Function.Injective bytes := by
  intro a b h
  have hblank : ∀ p : ResponseParts, (32 : UInt8) ∉ p.status := by
    intro p hmem
    rw [p.status_eq] at hmem
    exact absurd (statusText_ne_blank _ 32 hmem) (by decide)
  rw [a.bytes_eq, b.bytes_eq] at h
  obtain ⟨hstatus, h⟩ := Lines.append_cons_inj (hblank a) (hblank b)
    (List.append_cancel_left h)
  simp only [fieldBytes, List.append_assoc, List.cons_append] at h
  obtain ⟨hmessageLength, hmessage, h⟩ := field_inj a.messageLength_denotes b.messageLength_denotes
    (List.append_cancel_left h)
  obtain ⟨hdataLength, hdata, hending⟩ := field_inj a.dataLength_denotes b.dataLength_denotes
    (List.append_cancel_left (List.append_cancel_left h))
  exact ResponseParts.ext hstatus hmessageLength hmessage hdataLength hdata hending

end ResponseParts

/-- **`decodeResponseLine` accepts exactly its grammar**: it returns on every line, with true exactly
if the line can be cut into the parts of a response; it can then be cut in one way only, and the
response is the one of these parts. -/
theorem decodeResponseLine_accepts {line : Bytes} (hlen : line.length < 2 ^ 64) :
    (∃ r, decodeResponseLine line = .ok r) ∧
      (∀ resp, decodeResponseLine line = .ok (.ok resp) ↔
        ∃ parts : ResponseParts, parts.bytes = line ∧ parts.response = resp) ∧
      ∀ parts parts' : ResponseParts, parts.bytes = line → parts'.bytes = line → parts = parts' := by
  refine ⟨decodeResponseLine_returns line, fun resp => ?_, fun parts parts' h h' =>
    ResponseParts.bytes_injective (h.trans h'.symm)⟩
  rw [decodeResponseLine_ok_iff]
  constructor
  · rintro ⟨ok, rest, message, data, d₁, d₂, post, rfl, hat, rfl⟩
    refine ⟨⟨statusText ok, d₁, message, d₂, data, post, statusText_mem ok, hat.messageLength,
      hat.dataLength, hat.ending⟩, ?_, ?_⟩
    · exact (ResponseParts.bytes_eq _).trans (congrArg
        (fun r => ("status=" : Bytes) ++ (statusText ok ++ r)) hat.bytes.symm)
    · cases ok <;> rfl
  · rintro ⟨parts, rfl, rfl⟩
    obtain ⟨hm, hd⟩ := parts.length_payloads_lt hlen
    refine ⟨decide (parts.status = ("OK" : Bytes)), _, parts.message, parts.data,
      parts.messageLength, parts.dataLength, parts.ending, ?_,
      ⟨parts.messageLength_denotes, hm, parts.dataLength_denotes, hd, parts.ending_mem, rfl⟩, rfl⟩
    rw [← parts.status_eq]
    exact parts.bytes_eq

/-- A length with leading zeros, and a payload that ends in a line feed in front of the one that
ends the frame. -/
theorem decodeResponseLine_accepts_zeros :
    decodeResponseLine "status=ERR message=002:no data=2:x\n\n" =
      .ok (.ok ⟨false, "no", some "x\n"⟩) := by
  have h002 : Denotes "002" 2 := ⟨by decide, List.all_eq_true.1 (by rfl), by rfl⟩
  have h2 : Denotes "2" 2 := ⟨by decide, List.all_eq_true.1 (by rfl), by rfl⟩
  refine ((decodeResponseLine_accepts (by decide)).2.1 _).2
    ⟨⟨"ERR", "002", "no", "2", "x\n", "\n", .inr rfl, h002, h2, .inr rfl⟩, by rfl, ?_⟩
  rfl

end TinyKv.protocol
