/-
# Numbers in big-endian bytes

`ofBigEndian` reads a number from bytes, the most significant first, and `toBigEndian`
writes one into a field of some width. Each undoes the other for the numbers that fit
the width (`ofBigEndian_toBigEndian`, `toBigEndian_ofBigEndian`).

Key definitions: `ofBigEndian`, `toBigEndian`.
-/
import Mathlib.Data.Nat.Notation
import Mathlib.Algebra.Ring.Nat
import Mathlib.Data.List.Induction

namespace Bytes

def ofBigEndian (bs : List UInt8) : ℕ := bs.foldl (fun n b => 256 * n + b.toNat) 0

def toBigEndian : ℕ → ℕ → List UInt8
  | 0, _ => []
  | width + 1, n => toBigEndian width (n / 256) ++ [UInt8.ofNat n]

theorem ofBigEndian_concat (bs : List UInt8) (b : UInt8) :
    ofBigEndian (bs ++ [b]) = 256 * ofBigEndian bs + b.toNat := by
  unfold ofBigEndian
  rw [List.foldl_append]
  rfl

@[simp] theorem length_toBigEndian : ∀ width n : ℕ, (toBigEndian width n).length = width
  | 0, _ => rfl
  | width + 1, n => by rw [toBigEndian, List.length_append, length_toBigEndian width, List.length_singleton]

theorem ofBigEndian_lt (bs : List UInt8) : ofBigEndian bs < 256 ^ bs.length := by
  induction bs using List.reverseRecOn with
  | nil => exact Nat.one_pos
  | append_singleton bs b ih =>
    have hb : b.toNat < 256 := b.toNat_lt
    rw [ofBigEndian_concat, List.length_append, List.length_singleton, Nat.pow_succ]
    omega

theorem ofBigEndian_toBigEndian : ∀ {width n : ℕ}, n < 256 ^ width → ofBigEndian (toBigEndian width n) = n
  | 0, n, h => by
    rw [Nat.pow_zero] at h
    rw [Nat.lt_one_iff.mp h]
    rfl
  | width + 1, n, h => by
    have hdiv : n / 256 < 256 ^ width := by
      rw [Nat.pow_succ] at h
      exact Nat.div_lt_of_lt_mul (Nat.mul_comm _ _ ▸ h)
    have hmod : (UInt8.ofNat n).toNat = n % 256 := UInt8.toNat_ofNat'
    rw [toBigEndian, ofBigEndian_concat, ofBigEndian_toBigEndian hdiv, hmod]
    omega

theorem toBigEndian_ofBigEndian (bs : List UInt8) : toBigEndian bs.length (ofBigEndian bs) = bs := by
  induction bs using List.reverseRecOn with
  | nil => rfl
  | append_singleton bs b ih =>
    have hb : b.toNat < 256 := b.toNat_lt
    have hdiv : (256 * ofBigEndian bs + b.toNat) / 256 = ofBigEndian bs := by omega
    have hlast : UInt8.ofNat (256 * ofBigEndian bs + b.toNat) = b := by
      apply UInt8.toNat_inj.mp
      rw [UInt8.toNat_ofNat']
      omega
    rw [ofBigEndian_concat, List.length_append, List.length_singleton, toBigEndian, hdiv, ih, hlast]

/-- A field of the right width holds a number iff it is that number's bytes. -/
theorem ofBigEndian_eq_iff {bs : List UInt8} {n width : ℕ} (hlength : bs.length = width) (hn : n < 256 ^ width) :
    ofBigEndian bs = n ↔ bs = toBigEndian width n := by
  constructor
  · intro h
    rw [← h, ← hlength, toBigEndian_ofBigEndian]
  · intro h
    rw [h, ofBigEndian_toBigEndian hn]

end Bytes
