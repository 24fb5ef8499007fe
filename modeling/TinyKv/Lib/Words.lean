import Mathlib.Data.Nat.Bitwise
import Mathlib.Data.Nat.ModEq

/-!
# Low bits of words

What xor, multiplication and shifts do to the low bits of a number, and so to a word that wraps.

* `xor_mod_inj`, `mul_mod_inj`: a step of xor with a number, or of multiplication by an odd one,
  loses nothing of the low bits.
* `shiftXor`: a number shifted by `k` bits in a word of `w` bits and mixed with a counter;
  `shiftXor_eq_iff`: which pairs give the same word.
-/

namespace Words

theorem xor_left_cancel_iff {a b c : Nat} : c ^^^ a = c ^^^ b ↔ a = b := by
  refine ⟨fun h => ?_, fun h => h ▸ rfl⟩
  have := congrArg (c ^^^ ·) h
  simpa only [Nat.xor_xor_cancel_left] using this

theorem xor_mod_inj {a b k : Nat} (c : Nat) :
    (a ^^^ c) % 2 ^ k = (b ^^^ c) % 2 ^ k ↔ a % 2 ^ k = b % 2 ^ k := by
  rw [Nat.xor_comm a, Nat.xor_comm b, Nat.xor_mod_two_pow, Nat.xor_mod_two_pow, xor_left_cancel_iff]

theorem mul_mod_inj {a b k c : Nat} (hc : c % 2 = 1) :
    a * c % 2 ^ k = b * c % 2 ^ k ↔ a % 2 ^ k = b % 2 ^ k := by
  have hcop : (2 ^ k).gcd c = 1 := by
    apply Nat.Coprime.pow_left
    rw [Nat.Coprime, Nat.gcd_rec, hc]
    rfl
  exact ⟨Nat.ModEq.cancel_right_of_coprime hcop, fun h => Nat.ModEq.mul_right c h⟩

/-! ## A shifted number mixed with a counter -/

/-- `(a << k) ^ c` in a word of `w` bits, for a `c` of that many bits. -/
def shiftXor (w k a c : Nat) : Nat := a * 2 ^ k % 2 ^ w ^^^ c

variable {w k a b c d : Nat}

theorem shiftXor_mod (hk : k ≤ w) : shiftXor w k a c % 2 ^ k = c % 2 ^ k := by
  rw [shiftXor, Nat.xor_mod_two_pow, Nat.mod_mod_of_dvd _ (Nat.pow_dvd_pow 2 hk),
    Nat.mul_mod_left, Nat.zero_xor]

theorem shiftXor_div (hk : k ≤ w) : shiftXor w k a c / 2 ^ k = a % 2 ^ (w - k) ^^^ c / 2 ^ k := by
  have hpow : 2 ^ w = 2 ^ (w - k) * 2 ^ k := by rw [← Nat.pow_add, Nat.sub_add_cancel hk]
  rw [shiftXor, Nat.xor_div_two_pow, hpow, Nat.mul_mod_mul_right,
    Nat.mul_div_cancel _ (Nat.two_pow_pos k)]

/-- **When two mixtures collide**: the counters agree in their low bits, and differ above them where
the low bits of the shifted numbers do. -/
theorem shiftXor_eq_iff (hk : k ≤ w) :
    shiftXor w k a c = shiftXor w k b d ↔
      c % 2 ^ k = d % 2 ^ k ∧ (a ^^^ b) % 2 ^ (w - k) = c / 2 ^ k ^^^ d / 2 ^ k := by
  rw [← @shiftXor_mod w k a c hk, ← @shiftXor_mod w k b d hk, Nat.xor_mod_two_pow]
  have hswap : a % 2 ^ (w - k) ^^^ b % 2 ^ (w - k) = c / 2 ^ k ^^^ d / 2 ^ k ↔
      shiftXor w k a c / 2 ^ k = shiftXor w k b d / 2 ^ k := by
    rw [shiftXor_div hk, shiftXor_div hk]
    generalize a % 2 ^ (w - k) = x, b % 2 ^ (w - k) = y, c / 2 ^ k = u, d / 2 ^ k = v
    have hl : (x ^^^ u) ^^^ (y ^^^ v) = (x ^^^ y) ^^^ (u ^^^ v) := by
      rw [Nat.xor_assoc, ← Nat.xor_assoc u, Nat.xor_comm u y, Nat.xor_assoc y, ← Nat.xor_assoc]
    rw [← @Nat.xor_eq_zero_iff (x ^^^ y), ← @Nat.xor_eq_zero_iff (x ^^^ u), hl]
  rw [hswap]
  refine ⟨fun h => ?_, fun h => ?_⟩
  · rw [h]
    exact ⟨rfl, rfl⟩
  · rw [← Nat.div_add_mod (shiftXor w k a c) (2 ^ k), h.1, h.2, Nat.div_add_mod]

end Words
