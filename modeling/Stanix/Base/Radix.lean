import Mathlib.Data.Nat.Bitwise

/-!
# Blocks of numbers in a base

In base `b`, the numbers with the same digits from position `k` on form a block: `j` is in the block
`q` of level `k` when `j / b ^ k = q`. A block of level `k + 1` is made of `b` blocks of level `k`,
one for each digit at position `k`. Trees that branch on the digits of their keys are laid out in
such blocks.
-/

namespace Radix

variable {b k p q i j : Nat}

/-- The block one level up. -/
theorem div_pow_succ (b k j : Nat) : j / b ^ (k + 1) = j / b ^ k / b := by
  rw [pow_succ, Nat.div_div_eq_div_mul]

/-- The block `d` levels up. -/
theorem div_pow_add (b k d j : Nat) : j / b ^ (k + d) = j / b ^ k / b ^ d := by
  rw [pow_add, Nat.div_div_eq_div_mul]

/-- The block one level up, of a block with a given last digit. -/
theorem mul_add_div_base (hi : i < b) : (b * p + i) / b = p := by
  rw [Nat.mul_add_div (Nat.zero_lt_of_lt hi), Nat.div_eq_of_lt hi, add_zero]

/-- A number of the block `i` of the block `p` is in the block `p` one level up. -/
theorem div_succ_of_div (hi : i < b) (h : j / b ^ k = b * p + i) : j / b ^ (k + 1) = p := by
  rw [div_pow_succ, h, mul_add_div_base hi]

/-- A number of a block is in the block below of its digit. -/
theorem div_of_div_succ (h : j / b ^ (k + 1) = p) : j / b ^ k = b * p + j / b ^ k % b := by
  rw [← h, div_pow_succ, Nat.div_add_mod]

/-- The bounds of a block. -/
theorem div_eq_iff (hb : 0 < b) : j / b ^ k = q ↔ q * b ^ k ≤ j ∧ j < (q + 1) * b ^ k := by
  rw [Nat.div_eq_iff (Nat.pow_pos hb), add_mul]
  have := Nat.pow_pos (n := k) hb
  omega

/-- Two blocks `b * p + i` with the same number have the same digits. -/
theorem mul_add_inj {i' p' : Nat} (hi : i < b) (hi' : i' < b) (h : b * p + i = b * p' + i') :
    p = p' ∧ i = i' := by
  have hp : p = p' := by rw [← mul_add_div_base (p := p) hi, h, mul_add_div_base hi']
  subst hp
  exact ⟨rfl, Nat.add_left_cancel h⟩

/-- Numbers that agree below a position have the same digits there. -/
theorem digit_congr {j' k' : Nat} (h : j % b ^ k = j' % b ^ k) (hk : k' < k) :
    j / b ^ k' % b = j' / b ^ k' % b := by
  have hdvd : b ^ k' * b ∣ b ^ k := by
    exact pow_dvd_pow b hk
  rw [← Nat.mod_mul_right_div_self, ← Nat.mod_mul_right_div_self, ← Nat.mod_mod_of_dvd j hdvd, h,
    Nat.mod_mod_of_dvd j' hdvd]

/-- A number below a block, split at its highest digit. -/
theorem mod_pow_succ (b k j : Nat) : j % b ^ (k + 1) = j / b ^ k % b * b ^ k + j % b ^ k := by
  rw [pow_succ, Nat.mod_mul, add_comm, mul_comm]

/-- The digit at a position, by shifting and masking. -/
theorem shiftRight_and_mask (w k j : Nat) :
    (j >>> (w * k)) &&& (2 ^ w - 1) = j / (2 ^ w) ^ k % 2 ^ w := by
  rw [Nat.and_two_pow_sub_one_eq_mod, Nat.shiftRight_eq_div_pow, pow_mul]

end Radix
