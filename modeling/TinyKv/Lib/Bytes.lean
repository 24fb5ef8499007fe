import Mathlib.Data.List.Sort
import Mathlib.Order.Lex
import Mathlib.Data.Nat.Digits.Lemmas
import Mathlib.Tactic.Ring

/-!
# Byte strings

Byte strings ordered as `memcmp` orders them, fixed-width integers in both byte orders, and
segments of a byte string at a position.

* `beBytes`/`beNat` and `leBytes`/`leNat`: the `w` bytes of a natural, most or least significant
  byte first, and the natural they stand for (`beNat_beBytes`, `leNat_leBytes`: modulo `256 ^ w`).
* `decimal`/`decimalVal`: the decimal digits of a natural and the natural they stand for.
* `At file pos seg`: the bytes of `file` from position `pos` on begin with `seg`. `at_append`
  splits a segment, so a reader that walks over an encoding follows its parts one by one.
-/

/-- A byte string. -/
abbrev Bytes := List UInt8

instance instLinearOrderUInt8 : LinearOrder UInt8 :=
  LinearOrder.lift' UInt8.toNat fun _ _ h => UInt8.toNat_inj.1 h

namespace Bytes

/-- The bytes of an ASCII text. -/
def ofString (s : String) : Bytes := s.toList.map fun c => UInt8.ofNat c.toNat

instance : Coe String Bytes := ⟨ofString⟩

/-! ## Fixed-width integers -/

/-- The `w` bytes of `n`, most significant first. -/
def beBytes : Nat → Nat → Bytes
  | 0, _ => []
  | w + 1, n => beBytes w (n / 256) ++ [UInt8.ofNat n]

/-- The natural with the given bytes, most significant first. -/
def beNat (bs : Bytes) : Nat := bs.foldl (fun v b => v * 256 + b.toNat) 0

/-- The `w` bytes of `n`, least significant first. -/
def leBytes : Nat → Nat → Bytes
  | 0, _ => []
  | w + 1, n => UInt8.ofNat n :: leBytes w (n / 256)

/-- The natural with the given bytes, least significant first. -/
def leNat : Bytes → Nat
  | [] => 0
  | b :: bs => b.toNat + 256 * leNat bs

@[simp] theorem length_beBytes (w n : Nat) : (beBytes w n).length = w := by
  induction w generalizing n with
  | zero => rfl
  | succ w ih => simp [beBytes, ih]

@[simp] theorem length_leBytes (w n : Nat) : (leBytes w n).length = w := by
  induction w generalizing n with
  | zero => rfl
  | succ w ih => simp [leBytes, ih]

theorem mod_succ_width (n w : Nat) : n % 256 ^ (w + 1) = n % 256 + 256 * (n / 256 % 256 ^ w) := by
  rw [pow_succ', Nat.mod_mul]

theorem beNat_beBytes (w n : Nat) : beNat (beBytes w n) = n % 256 ^ w := by
  induction w generalizing n with
  | zero => simp [beBytes, beNat, Nat.mod_one]
  | succ w ih =>
    have h := ih (n / 256)
    simp only [beNat] at h
    simp only [beBytes, beNat, List.foldl_append, h, List.foldl_cons, List.foldl_nil]
    rw [mod_succ_width, UInt8.toNat_ofNat']
    omega

theorem beNat_snoc (bs : Bytes) (b : UInt8) : beNat (bs ++ [b]) = beNat bs * 256 + b.toNat := by
  simp [beNat]

theorem beNat_append_zeros (bs : Bytes) (w : Nat) :
    beNat (bs ++ List.replicate w 0) = beNat bs * 256 ^ w := by
  induction w with
  | zero => simp
  | succ w ih =>
    rw [List.replicate_succ', ← List.append_assoc, beNat_snoc, ih, Nat.pow_succ, Nat.mul_assoc]
    rfl

/-- The high bytes of a small number. -/
theorem leBytes_small {k n : Nat} (h : n < 256 ^ k) (w : Nat) :
    leBytes (k + w) n = leBytes k n ++ List.replicate w 0 := by
  induction k generalizing n with
  | zero =>
    obtain rfl : n = 0 := by omega
    rw [Nat.zero_add, leBytes, List.nil_append]
    induction w with
    | zero => rfl
    | succ w ih => exact congrArg (0 :: ·) ih
  | succ k ih =>
    rw [Nat.pow_succ] at h
    rw [Nat.add_right_comm, leBytes, leBytes, ih (by omega), List.cons_append]

/-- Nothing but zeros stands in front of what a small number needs. -/
theorem beBytes_small {k n : Nat} (h : n < 256 ^ k) (w : Nat) :
    beBytes (k + w) n = List.replicate w 0 ++ beBytes k n := by
  induction k generalizing n with
  | zero =>
    obtain rfl : n = 0 := by omega
    rw [Nat.zero_add, beBytes, List.append_nil]
    induction w with
    | zero => rfl
    | succ w ih =>
      rw [beBytes, Nat.zero_div, ih, List.replicate_succ']
      rfl
  | succ k ih =>
    rw [Nat.pow_succ] at h
    rw [Nat.add_right_comm, beBytes, beBytes, ih (by omega), List.append_assoc]

theorem beNat_lt (bs : Bytes) : beNat bs < 256 ^ bs.length := by
  induction bs using List.reverseRecOn with
  | nil => simp [beNat]
  | append_singleton bs b ih =>
    have := b.toNat_lt
    rw [beNat_snoc, List.length_append, List.length_singleton, Nat.pow_succ]
    omega

theorem beBytes_beNat (bs : Bytes) : beBytes bs.length (beNat bs) = bs := by
  induction bs using List.reverseRecOn with
  | nil => rfl
  | append_singleton bs b ih =>
    have hb := b.toNat_lt
    have hdiv : (beNat bs * 256 + b.toNat) / 256 = beNat bs := by omega
    have hlow : UInt8.ofNat (beNat bs * 256 + b.toNat) = b := by
      apply UInt8.toNat_inj.1
      rw [UInt8.toNat_ofNat']
      omega
    rw [beNat_snoc, List.length_append, List.length_singleton, beBytes, hdiv, hlow, ih]

theorem leNat_leBytes (w n : Nat) : leNat (leBytes w n) = n % 256 ^ w := by
  induction w generalizing n with
  | zero => simp [leBytes, leNat, Nat.mod_one]
  | succ w ih => simp only [leBytes, leNat, ih, mod_succ_width, UInt8.toNat_ofNat']

theorem leNat_lt (bs : Bytes) : leNat bs < 256 ^ bs.length := by
  induction bs with
  | nil => exact Nat.one_pos
  | cons b bs ih =>
    have := b.toNat_lt
    rw [List.length_cons, Nat.pow_succ, leNat]
    omega

theorem leBytes_leNat (bs : Bytes) : leBytes bs.length (leNat bs) = bs := by
  induction bs with
  | nil => rfl
  | cons b bs ih =>
    have hb := b.toNat_lt
    have hhead : UInt8.ofNat (b.toNat + 256 * leNat bs) = b := by
      apply UInt8.toNat_inj.1
      rw [UInt8.toNat_ofNat']
      omega
    have htail : (b.toNat + 256 * leNat bs) / 256 = leNat bs := by omega
    rw [List.length_cons, leNat, leBytes, hhead, htail, ih]

theorem ofNat_beNat_beBytes_uint64 (x : UInt64) : UInt64.ofNat (beNat (beBytes 8 x.toNat)) = x := by
  rw [beNat_beBytes, Nat.mod_eq_of_lt (by simpa using x.toNat_lt), UInt64.ofNat_toNat]

theorem ofNat_beNat_beBytes_uint32 (x : UInt32) : UInt32.ofNat (beNat (beBytes 4 x.toNat)) = x := by
  rw [beNat_beBytes, Nat.mod_eq_of_lt (by simpa using x.toNat_lt), UInt32.ofNat_toNat]

theorem ofNat_leNat_leBytes_uint64 (x : UInt64) : UInt64.ofNat (leNat (leBytes 8 x.toNat)) = x := by
  rw [leNat_leBytes, Nat.mod_eq_of_lt (by simpa using x.toNat_lt), UInt64.ofNat_toNat]

theorem toNat_ofNat_uint32 {n : Nat} (h : n < 2 ^ 32) : (UInt32.ofNat n).toNat = n := by
  rw [UInt32.toNat_ofNat', Nat.mod_eq_of_lt h]

theorem toNat_ofNat_uint64 {n : Nat} (h : n < 2 ^ 64) : (UInt64.ofNat n).toNat = n := by
  rw [UInt64.toNat_ofNat', Nat.mod_eq_of_lt h]

/-! ## Decimal numbers -/

/-- The decimal digits of `n`, without leading zeros. -/
def decimal (n : Nat) : Bytes :=
  if n = 0 then [48] else (Nat.digits 10 n).reverse.map fun d => UInt8.ofNat (48 + d)

/-- An ASCII digit. -/
def isDigit (b : UInt8) : Bool := decide (48 ≤ b.toNat) && decide (b.toNat ≤ 57)

/-- The natural that a string of digits stands for. -/
def decimalVal (bs : Bytes) : Nat := bs.foldl (fun v b => v * 10 + (b.toNat - 48)) 0

theorem decimal_ne_nil (n : Nat) : decimal n ≠ [] := by
  unfold decimal
  split
  · simp
  · rename_i h
    simp [Nat.digits_ne_nil_iff_ne_zero.2 h, h]

theorem isDigit_of_mem_decimal {n : Nat} {b : UInt8} (h : b ∈ decimal n) : isDigit b = true := by
  unfold decimal at h
  split at h
  · obtain rfl := List.mem_singleton.1 h
    rfl
  · simp only [List.mem_map, List.mem_reverse] at h
    obtain ⟨d, hd, rfl⟩ := h
    have := Nat.digits_lt_base (by decide) hd
    simp only [isDigit, UInt8.toNat_ofNat', Bool.and_eq_true, decide_eq_true_eq]
    omega

theorem decimalVal_decimal (n : Nat) : decimalVal (decimal n) = n := by
  unfold decimal
  split
  · rename_i h
    subst h
    rfl
  · have key : ∀ l : List Nat, (∀ d ∈ l, d < 10) →
        decimalVal (l.reverse.map fun d => UInt8.ofNat (48 + d)) = Nat.ofDigits 10 l := by
      intro l hl
      induction l with
      | nil => rfl
      | cons d l ih =>
        have hd := hl d List.mem_cons_self
        have ih := ih fun x hx => hl x (List.mem_cons_of_mem _ hx)
        simp only [decimalVal] at ih
        simp only [decimalVal, List.reverse_cons, List.map_append, List.foldl_append, ih,
          List.map_cons, List.map_nil, List.foldl_cons, List.foldl_nil, Nat.ofDigits_cons,
          UInt8.toNat_ofNat']
        omega
    rw [key _ fun d hd => Nat.digits_lt_base (by decide) hd, Nat.ofDigits_digits]

theorem decimal_injective : Function.Injective decimal :=
  Function.LeftInverse.injective decimalVal_decimal

/-! ## Segments -/

theorem append_prefix_drop {a b l : Bytes} {pos : Nat} :
    a ++ b <+: l.drop pos ↔ a <+: l.drop pos ∧ b <+: l.drop (pos + a.length) := by
  rw [← List.drop_drop]
  constructor
  · rintro ⟨t, ht⟩
    refine ⟨⟨b ++ t, by rw [← ht, List.append_assoc]⟩, t, ?_⟩
    rw [← ht, List.append_assoc, List.drop_left]
  · rintro ⟨⟨t, ht⟩, t', ht'⟩
    refine ⟨t', ?_⟩
    rw [← ht, List.drop_left] at ht'
    rw [List.append_assoc, ht', ht]

/-- The bytes of `file` from `pos` on begin with `seg`. -/
def At (file : Bytes) (pos : Nat) (seg : Bytes) : Prop :=
  pos ≤ file.length ∧ seg <+: file.drop pos

theorem at_append {file a b : Bytes} {pos : Nat} :
    At file pos (a ++ b) ↔ At file pos a ∧ At file (pos + a.length) b := by
  simp only [At, append_prefix_drop]
  constructor
  · rintro ⟨hp, ha, hb⟩
    have hle := ha.length_le
    rw [List.length_drop] at hle
    exact ⟨⟨hp, ha⟩, by omega, hb⟩
  · rintro ⟨⟨hp, ha⟩, -, hb⟩
    exact ⟨hp, ha, hb⟩

theorem at_here (pre seg post : Bytes) : At (pre ++ seg ++ post) pre.length seg :=
  ⟨by simp, post, by simp⟩

theorem At.take {file seg : Bytes} {pos : Nat} (h : At file pos seg) :
    (file.drop pos).take seg.length = seg := List.prefix_iff_eq_take.1 h.2 |>.symm

theorem At.le {file seg : Bytes} {pos : Nat} (h : At file pos seg) :
    pos + seg.length ≤ file.length := by
  have := h.2.length_le
  have := h.1
  simp only [List.length_drop] at *
  omega

theorem length_flatMap_le {α : Type} {f : α → Bytes} {l : List α} {n : Nat}
    (h : ∀ a ∈ l, (f a).length ≤ n) : (l.flatMap f).length ≤ l.length * n := by
  induction l with
  | nil => simp
  | cons a l ih =>
    have ha := h a List.mem_cons_self
    have hl := ih fun b hb => h b (List.mem_cons_of_mem _ hb)
    rw [List.flatMap_cons, List.length_append, List.length_cons, Nat.succ_mul]
    omega

end Bytes
