import SigmaProtocol.Bytes.Limbs
import Mathlib

/-!
# The range of written numbers

How large a number is whose width is known, and what a fixed width keeps of a number.

* `bitLength_le_iff_lt`: `n` has at most `k` binary digits exactly if `n < 2 ^ k`.
* `Bytes.toNat_ofNat`: a fixed width of `len` bytes keeps a number modulo `256 ^ len`.
* `LimbNat.toNat_lt`: the value of limbs fits their width.
-/

namespace SigmaProtocol

/-- The same in terms of size. -/
theorem bitLength_le_iff_lt {n k : Nat} : bitLength n ≤ k ↔ n < 2 ^ k := by
  unfold bitLength
  split
  · next h => simp [h]
  · next h => exact Nat.log2_lt h

theorem lt_two_pow_bitLength (n : Nat) : n < 2 ^ bitLength n :=
  bitLength_le_iff_lt.mp le_rfl

theorem two_pow_le_of_lt_bitLength {n k : Nat} (h : k < bitLength n) : 2 ^ k ≤ n := by
  by_contra hlt
  exact absurd (bitLength_le_iff_lt.mpr (not_le.mp hlt)) (not_le.mpr h)

/-- A fixed width keeps the last digits. -/
theorem Bytes.toNat_ofNat (len n : Nat) : toNat (ofNat len n) = n % 256 ^ len := by
  induction len generalizing n with
  | zero => simp [ofNat, Nat.mod_one]
  | succ len ih =>
    have h : n % 256 ^ (len + 1) = n % 256 + 256 * (n / 256 % 256 ^ len) := by
      rw [pow_succ', Nat.mod_mul]
    simp only [ofNat, toNat_concat, ih, UInt8.toNat_ofNat']
    omega

namespace LimbNat

theorem valueOf_lt (limbs : List UInt64) : valueOf limbs < 2 ^ (64 * limbs.length) := by
  induction limbs with
  | nil => simp [valueOf]
  | cons l ls ih =>
    have hl := l.toNat_lt
    have h : 2 ^ (64 * (l :: ls).length) = 2 ^ 64 * 2 ^ (64 * ls.length) := by
      rw [← pow_add, List.length_cons]; congr 1; omega
    have hv : valueOf (l :: ls) = l.toNat + 2 ^ 64 * valueOf ls := rfl
    rw [h, hv]
    omega

theorem toNat_lt (n : LimbNat) : n.toNat < 2 ^ n.precision := valueOf_lt n.limbs

end LimbNat

end SigmaProtocol
