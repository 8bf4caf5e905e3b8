/-
# Truncated products with a binary64 constant

`int(n * x)` for a natural number `n` and a positive floating-point constant
`x = mant / 2 ^ e`: `n` and then the product are rounded to 53 significant bits,
ties to even, and the product is truncated. Rounding adds at most one part in
`2 ^ 52`, so that a constant well below one gives no more than `n`
(`truncMul_le`).
-/
import Mathlib.Data.Nat.Log
import Mathlib.Algebra.Ring.Nat
import Mathlib.Tactic.Ring

namespace Double

/-- `m / 2 ^ k` rounded to the nearest natural number, ties to even. -/
def roundHalfEven (m k : ℕ) : ℕ :=
  let q := m / 2 ^ k
  let r := m % 2 ^ k
  if 2 * r < 2 ^ k then q
  else if 2 ^ k < 2 * r then q + 1
  else if q % 2 = 0 then q else q + 1

/-- The double nearest to `n`. -/
def toDouble (n : ℕ) : ℕ :=
  let excess := n.log2 + 1 - 53
  roundHalfEven n excess * 2 ^ excess

/-- `int(n * x)` where `x` is the double `mant / 2 ^ e`. -/
def truncMul (mant e n : ℕ) : ℕ := toDouble (mant * toDouble n) / 2 ^ e

theorem roundHalfEven_le (m k : ℕ) : roundHalfEven m k ≤ m / 2 ^ k + 1 := by
  unfold roundHalfEven
  dsimp only
  split
  · omega
  · split
    · omega
    · split <;> omega

theorem roundHalfEven_zero (m : ℕ) : roundHalfEven m 0 = m := by
  unfold roundHalfEven
  simp [Nat.mod_one]

theorem toDouble_le (n : ℕ) : toDouble n * 2 ^ 52 ≤ n * (2 ^ 52 + 1) := by
  unfold toDouble
  dsimp only
  by_cases hsmall : n.log2 + 1 ≤ 53
  · rw [Nat.sub_eq_zero_of_le hsmall, roundHalfEven_zero]
    omega
  · obtain ⟨k, hk⟩ : ∃ k, n.log2 = k + 52 := ⟨n.log2 - 52, by omega⟩
    have hne : n ≠ 0 := by
      intro h
      rw [h, Nat.log2_zero] at hsmall
      omega
    have hexcess : n.log2 + 1 - 53 = k := by omega
    have hround := Nat.mul_le_mul_right (2 ^ k) (roundHalfEven_le n k)
    have hdiv : n / 2 ^ k * 2 ^ k ≤ n := Nat.div_mul_le_self n (2 ^ k)
    have hlog : 2 ^ k * 2 ^ 52 ≤ n := by
      rw [← Nat.pow_add, ← hk]
      exact Nat.log2_self_le hne
    rw [hexcess]
    have hsum : roundHalfEven n k * 2 ^ k ≤ n + 2 ^ k := by
      rw [Nat.add_mul, Nat.one_mul] at hround
      omega
    calc roundHalfEven n k * 2 ^ k * 2 ^ 52 ≤ (n + 2 ^ k) * 2 ^ 52 := Nat.mul_le_mul_right _ hsum
      _ = n * 2 ^ 52 + 2 ^ k * 2 ^ 52 := Nat.add_mul ..
      _ ≤ n * 2 ^ 52 + n := Nat.add_le_add_left hlog _
      _ = n * (2 ^ 52 + 1) := by ring

theorem truncMul_le {mant e : ℕ} (h : mant * (2 ^ 52 + 1) * (2 ^ 52 + 1) ≤ 2 ^ e * 2 ^ 52 * 2 ^ 52) (n : ℕ) :
    truncMul mant e n ≤ n := by
  have hpos : 0 < 2 ^ e * 2 ^ 52 * 2 ^ 52 := Nat.mul_pos (Nat.mul_pos (Nat.two_pow_pos e) (Nat.two_pow_pos 52)) (Nat.two_pow_pos 52)
  refine Nat.le_of_mul_le_mul_right ?_ hpos
  calc truncMul mant e n * (2 ^ e * 2 ^ 52 * 2 ^ 52) = truncMul mant e n * 2 ^ e * 2 ^ 52 * 2 ^ 52 := by ring
    _ ≤ toDouble (mant * toDouble n) * 2 ^ 52 * 2 ^ 52 :=
        Nat.mul_le_mul_right _ (Nat.mul_le_mul_right _ (Nat.div_mul_le_self _ _))
    _ ≤ mant * toDouble n * (2 ^ 52 + 1) * 2 ^ 52 := Nat.mul_le_mul_right _ (toDouble_le _)
    _ = mant * (2 ^ 52 + 1) * (toDouble n * 2 ^ 52) := by ring
    _ ≤ mant * (2 ^ 52 + 1) * (n * (2 ^ 52 + 1)) := Nat.mul_le_mul_left _ (toDouble_le n)
    _ = n * (mant * (2 ^ 52 + 1) * (2 ^ 52 + 1)) := by ring
    _ ≤ n * (2 ^ e * 2 ^ 52 * 2 ^ 52) := Nat.mul_le_mul_left _ h

end Double
