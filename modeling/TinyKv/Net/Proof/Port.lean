import Mathlib.Data.List.TakeWhile
import TinyKv.Api.Proof.Grammar
import TinyKv.Net.Port

/-!
# Which ports are read

`readPortFromEnv` takes a decimal number behind white space and a sign, and nothing behind it. A
number with a minus sign is taken as well, if it is large enough to come round to a port
(`PortText`).
-/

namespace TinyKv

open Bytes protocol

/-- A sign, or none. -/
def IsSign (sign : Bytes) : Prop := sign = [] ∨ sign = ("+" : Bytes) ∨ sign = ("-" : Bytes)

/-- The `unsigned long` that the digits of `n` behind a sign stand for. -/
def signed (sign : Bytes) (n : Nat) : UInt64 :=
  if sign = ("-" : Bytes) then -UInt64.ofNat n else UInt64.ofNat n

/-- A text for the number: white space, a sign and digits. -/
def NumberText (raw : Bytes) (parsed : UInt64) : Prop :=
  ∃ spaces sign digits n, raw = spaces ++ (sign ++ digits) ∧ (∀ b ∈ spaces, isSpace b = true) ∧
    IsSign sign ∧ Denotes digits n ∧ n < 2 ^ 64 ∧ parsed = signed sign n

/-! ## `strtoul` -/

theorem takeSign_eq (body : Bytes) :
    ∃ sign, IsSign sign ∧ body = sign ++ (takeSign body).2 ∧
      (takeSign body).1 = decide (sign = ("-" : Bytes)) := by
  unfold takeSign
  split
  · exact ⟨("-" : Bytes), .inr (.inr rfl), rfl, rfl⟩
  · exact ⟨("+" : Bytes), .inr (.inl rfl), rfl, rfl⟩
  · exact ⟨[], .inl rfl, rfl, rfl⟩

theorem takeSign_digits {sign digits : Bytes} {n : Nat} (hsign : IsSign sign) (hd : Denotes digits n) :
    takeSign (sign ++ digits) = (decide (sign = ("-" : Bytes)), digits) := by
  rcases hsign with rfl | rfl | rfl
  · -- a digit is no sign
    obtain ⟨b, bs, rfl⟩ := List.exists_cons_of_ne_nil hd.ne_nil
    have hb := hd.isDigit b List.mem_cons_self
    rw [List.nil_append, takeSign]
    · rfl
    · rintro rest ⟨⟩
      cases hb
    · rintro rest ⟨⟩
      cases hb
  · rfl
  · rfl

theorem dropWhile_isSpace {spaces sign digits : Bytes} {n : Nat} (hs : ∀ b ∈ spaces, isSpace b = true)
    (hsign : IsSign sign) (hd : Denotes digits n) :
    (spaces ++ (sign ++ digits)).dropWhile isSpace = sign ++ digits := by
  rw [List.dropWhile_append_of_pos hs]
  rcases hsign with rfl | rfl | rfl
  · obtain ⟨b, bs, rfl⟩ := List.exists_cons_of_ne_nil hd.ne_nil
    have hb := hd.isDigit b List.mem_cons_self
    have hspace : isSpace b = false := by
      simp only [isDigit, Bool.and_eq_true, decide_eq_true_eq] at hb
      simp only [isSpace, Bool.or_eq_false_iff, beq_eq_false_iff_ne, ne_eq]
      refine ⟨⟨⟨⟨⟨?_, ?_⟩, ?_⟩, ?_⟩, ?_⟩, ?_⟩ <;> rintro rfl <;> exact absurd hb.1 (by decide)
    rw [List.nil_append, List.dropWhile_cons, hspace]
    rfl
  · rfl
  · rfl

theorem strtoul_text {spaces sign digits : Bytes} {n : Nat} (hs : ∀ b ∈ spaces, isSpace b = true)
    (hsign : IsSign sign) (hd : Denotes digits n) (hn : n < 2 ^ 64) :
    strtoul (spaces ++ (sign ++ digits)) = { parsed := signed sign n, rest := [] } := by
  have htake : digits.takeWhile isDigit = digits := List.takeWhile_eq_self_iff.2 hd.isDigit
  have hdrop : digits.dropWhile isDigit = [] := List.dropWhile_eq_nil_iff.2 hd.isDigit
  simp only [strtoul, dropWhile_isSpace hs hsign hd, takeSign_digits hsign hd, htake, hdrop, hd.ne_nil,
    ↓reduceIte, stoull_eq_some_iff.2 ⟨hd.value, hn⟩, signed, decide_eq_true_eq]

/-- **What `strtoul` reads as a whole** and in range. -/
theorem strtoul_iff {raw : Bytes} {parsed : UInt64} :
    ((strtoul raw).erange = false ∧ (strtoul raw).rest ≠ raw ∧ (strtoul raw).rest = [] ∧
      (strtoul raw).parsed = parsed) ↔ NumberText raw parsed := by
  constructor
  · rintro ⟨hrange, hend, hrest, rfl⟩
    obtain ⟨sign, hsign, hbody, hminus⟩ := takeSign_eq (raw.dropWhile isSpace)
    unfold strtoul at hrange hend hrest ⊢
    dsimp only at hrange hend hrest ⊢
    split at hrest
    · exact absurd rfl (by rename_i h; rw [if_pos h] at hend; exact hend)
    · rename_i hne
      rw [if_neg hne] at hrange hend ⊢
      cases hstoull : stoull ((takeSign (raw.dropWhile isSpace)).2.takeWhile isDigit) with
      | none =>
        rw [hstoull] at hrange
        cases hrange
      | some n =>
        obtain ⟨hvalue, hn⟩ := stoull_eq_some_iff.1 hstoull
        rw [hstoull] at hrest
        have hall : (takeSign (raw.dropWhile isSpace)).2.takeWhile isDigit =
            (takeSign (raw.dropWhile isSpace)).2 :=
          List.takeWhile_eq_self_iff.2 (List.dropWhile_eq_nil_iff.1 hrest)
        refine ⟨raw.takeWhile isSpace, sign, _, n, ?_, fun b hb => List.mem_takeWhile_imp hb, hsign,
          ⟨hne, fun b hb => List.mem_takeWhile_imp hb, hvalue⟩, hn, ?_⟩
        · rw [hall, ← hbody, List.takeWhile_append_dropWhile]
        · simp only [hminus, signed, decide_eq_true_eq]
  · rintro ⟨spaces, sign, digits, n, rfl, hs, hsign, hd, hn, rfl⟩
    rw [strtoul_text hs hsign hd hn]
    refine ⟨rfl, fun h => hd.ne_nil ?_, rfl, rfl⟩
    exact (List.append_eq_nil_iff.1 (List.append_eq_nil_iff.1 h.symm).2).2

/-! ## The port -/

/-- A text for the port. Behind a minus sign the digits stand for what is missing to `2 ^ 64`. -/
def PortText (raw : Bytes) (port : Nat) : Prop :=
  ∃ spaces sign digits n, raw = spaces ++ (sign ++ digits) ∧ (∀ b ∈ spaces, isSpace b = true) ∧
    Denotes digits n ∧
    ((sign = [] ∨ sign = ("+" : Bytes)) ∧ n = port ∨
      sign = ("-" : Bytes) ∧ (n = 0 ∧ port = 0 ∨ 0 < port ∧ n + port = 2 ^ 64))

theorem toNat_signed_minus {n : Nat} (hn : n < 2 ^ 64) :
    (signed "-" n).toNat = if n = 0 then 0 else 2 ^ 64 - n := by
  have hsize : UInt64.size = 2 ^ 64 := rfl
  rw [signed, if_pos rfl, UInt64.toNat_neg, UInt64.toNat_ofNat_of_lt' hn, hsize]
  split
  · rename_i h
    rw [h]
    rfl
  · exact Nat.mod_eq_of_lt (by omega)

theorem toNat_signed_plus {sign : Bytes} (hsign : sign = [] ∨ sign = ("+" : Bytes)) {n : Nat}
    (hn : n < 2 ^ 64) : (signed sign n).toNat = n := by
  have hplus : ¬ sign = ("-" : Bytes) := by
    rcases hsign with rfl | rfl <;> decide
  rw [signed, if_neg hplus, UInt64.toNat_ofNat_of_lt' hn]

theorem portText_iff {raw : Bytes} {port : Nat} (hport : port < 2 ^ 16) :
    PortText raw port ↔ ∃ parsed, NumberText raw parsed ∧ parsed.toNat = port := by
  constructor
  · rintro ⟨spaces, sign, digits, n, hraw, hs, hd, ⟨hsign, rfl⟩ | ⟨rfl, hn⟩⟩
    · have hn : n < 2 ^ 64 := by omega
      exact ⟨_, ⟨spaces, sign, digits, n, hraw, hs, hsign.imp id .inl, hd, hn, rfl⟩,
        toNat_signed_plus hsign hn⟩
    · have hlt : n < 2 ^ 64 := by omega
      refine ⟨_, ⟨spaces, _, digits, n, hraw, hs, .inr (.inr rfl), hd, hlt, rfl⟩, ?_⟩
      rw [toNat_signed_minus hlt]
      split <;> omega
  · rintro ⟨_, ⟨spaces, sign, digits, n, hraw, hs, hsign, hd, hn, rfl⟩, rfl⟩
    refine ⟨spaces, sign, digits, n, hraw, hs, hd, ?_⟩
    rcases hsign with rfl | rfl | rfl
    · exact .inl ⟨.inl rfl, (toNat_signed_plus (.inl rfl) hn).symm⟩
    · exact .inl ⟨.inr rfl, (toNat_signed_plus (.inr rfl) hn).symm⟩
    · refine .inr ⟨rfl, ?_⟩
      rw [toNat_signed_minus hn]
      split <;> omega

theorem strtoul_port_iff {raw : Bytes} {port : UInt16} :
    (¬ ((strtoul raw).erange ∨ (strtoul raw).rest = raw ∨ (strtoul raw).rest ≠ [] ∨
        (strtoul raw).parsed > 65535) ∧ (strtoul raw).parsed.toUInt16 = port) ↔
      PortText raw port.toNat := by
  have hmax : (65535 : UInt64).toNat = 65535 := rfl
  rw [portText_iff (UInt16.toNat_lt port)]
  constructor
  · rintro ⟨hgood, rfl⟩
    simp only [not_or, Bool.not_eq_true, ne_eq, not_not] at hgood
    obtain ⟨hrange, hend, hrest, hle⟩ := hgood
    rw [gt_iff_lt, UInt64.lt_iff_toNat_lt, hmax] at hle
    refine ⟨_, strtoul_iff.1 ⟨hrange, hend, hrest, rfl⟩, ?_⟩
    rw [UInt64.toNat_toUInt16]
    exact (Nat.mod_eq_of_lt (by omega)).symm
  · rintro ⟨parsed, hnumber, hport⟩
    obtain ⟨hrange, hend, hrest, rfl⟩ := strtoul_iff.2 hnumber
    have hlt := port.toNat_lt
    refine ⟨?_, ?_⟩
    · rw [gt_iff_lt, UInt64.lt_iff_toNat_lt, hmax, hrange]
      rintro (h | h | h | h)
      · cases h
      · exact hend h
      · exact h hrest
      · omega
    · apply UInt16.toNat_inj.1
      rw [UInt64.toNat_toUInt16, hport]
      exact Nat.mod_eq_of_lt hlt

theorem not_portText_nil (port : Nat) : ¬ PortText [] port := by
  rintro ⟨spaces, sign, digits, n, hraw, -, hd, -⟩
  exact hd.ne_nil (List.append_eq_nil_iff.1 (List.append_eq_nil_iff.1 hraw.symm).2).2

/-- **What is read from the variable**: exactly the texts for a port. -/
theorem readPort_eq_some_iff {complaint : Bytes} {rawPort : Option Bytes} {port : UInt16} :
    (readPort complaint rawPort).1 = some port ↔ ∃ raw, rawPort = some raw ∧ PortText raw port.toNat := by
  unfold readPort
  split
  · simp
  · simp [not_portText_nil]
  · rename_i raw _
    simp only [Option.some.injEq, exists_eq_left', ← strtoul_port_iff]
    split <;> rename_i hbad
    · simp [hbad]
    · simp [hbad]

/-- What is refused is complained about, unless it is empty. -/
theorem readPort_silent_iff {complaint : Bytes} {rawPort : Option Bytes} :
    (readPort complaint rawPort).2 = [] ↔
      rawPort = none ∨ rawPort = some [] ∨ (readPort complaint rawPort).1 ≠ none := by
  unfold readPort
  split
  · simp
  · simp
  · rename_i raw hne
    have hraw : raw ≠ [] := hne
    dsimp only
    split <;> simp [hraw]

/-- **Server and client read the same port**, and exactly the texts for a port are read: a number with
white space and a sign in front, or one that comes round to the port behind a minus sign. They
complain about any other text, unless it is empty. -/
theorem readPortFromEnv_reads (rawPort : Option Bytes) :
    (∀ port, (ServerMain.readPortFromEnv rawPort).1 = some port ↔
      ∃ raw, rawPort = some raw ∧ PortText raw port.toNat) ∧
    (CliMain.readPortFromEnv rawPort).1 = (ServerMain.readPortFromEnv rawPort).1 ∧
    ((ServerMain.readPortFromEnv rawPort).2 = [] ↔
      rawPort = none ∨ rawPort = some [] ∨ (ServerMain.readPortFromEnv rawPort).1 ≠ none) :=
  ⟨fun _ => readPort_eq_some_iff,
    Option.ext fun _ => readPort_eq_some_iff.trans readPort_eq_some_iff.symm, readPort_silent_iff⟩

/-- A number that comes round to the port 1. -/
example : (ServerMain.readPortFromEnv (some " -18446744073709551615")).1 = some 1 := by decide +kernel

end TinyKv
