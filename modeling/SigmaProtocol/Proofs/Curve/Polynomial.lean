import SigmaProtocol.Bytes.Range
import SigmaProtocol.Curve.BinaryField
import Mathlib

/-!
# Numbers as polynomials over the field with two elements

Bit `i` of a number is the coefficient of `z ^ i`. Addition of polynomials is `^^^`, and `<<<`
multiplies by a power of `z`.

* `toPolynomial_injective`: a number is determined by its polynomial.
* `toPolynomial_xor`, `toPolynomial_shiftLeft`: the two operations.
* `degree_toPolynomial_lt_iff`: `v` has at most `k` binary digits exactly if its polynomial has
  degree below `k`.
* `BinaryField.polynomial_ofBasis_eq_modulus`: the modulus of a basis is the polynomial
  `z ^ m + … + 1`, whatever the middle exponents are.
-/

namespace SigmaProtocol

open Polynomial

/-! ## Coefficients -/

/-- The polynomial whose coefficients are the binary digits of `v`. -/
noncomputable def toPolynomial (v : Nat) : (ZMod 2)[X] :=
  ∑ i ∈ Finset.range (bitLength v), monomial i (if v.testBit i then 1 else 0)

theorem testBit_eq_false_of_bitLength_le {v i : Nat} (h : bitLength v ≤ i) :
    v.testBit i = false :=
  bitLength_le_iff.mp h i le_rfl

theorem lt_bitLength_of_testBit {v i : Nat} (h : v.testBit i = true) : i < bitLength v := by
  by_contra hi
  rw [testBit_eq_false_of_bitLength_le (by omega)] at h
  cases h

/-- Bit `i` is the coefficient of `z ^ i`, also beyond the leading term. -/
theorem coeff_toPolynomial (v i : Nat) :
    (toPolynomial v).coeff i = if v.testBit i then 1 else 0 := by
  simp only [toPolynomial, finsetSum_coeff, coeff_monomial, Finset.sum_ite_eq',
    Finset.mem_range]
  by_cases hi : i < bitLength v
  · rw [if_pos hi]
  · rw [if_neg hi, testBit_eq_false_of_bitLength_le (by omega)]
    rfl

/-- A number is determined by its binary digits, and these by the coefficients. -/
theorem toPolynomial_injective : Function.Injective toPolynomial := by
  intro u v h
  refine Nat.eq_of_testBit_eq fun i => ?_
  have hi := congrArg (fun p => p.coeff i) h
  simp only [coeff_toPolynomial] at hi
  cases hu : u.testBit i <;> cases hv : v.testBit i <;> simp_all

@[simp] theorem toPolynomial_zero : toPolynomial 0 = 0 := rfl

private theorem testBit_one (i : Nat) : Nat.testBit 1 i = decide (i = 0) := by
  have h := @Nat.testBit_one_eq_true_iff_self_eq_zero i
  cases hb : Nat.testBit 1 i <;> simp_all

@[simp] theorem toPolynomial_one : toPolynomial 1 = 1 := by
  ext i
  rw [coeff_toPolynomial, testBit_one, coeff_one]
  simp

theorem toPolynomial_eq_zero_iff {v : Nat} : toPolynomial v = 0 ↔ v = 0 :=
  ⟨fun h => toPolynomial_injective (h.trans toPolynomial_zero.symm), fun h => by simp [h]⟩

theorem toPolynomial_eq_one_iff {v : Nat} : toPolynomial v = 1 ↔ v = 1 :=
  ⟨fun h => toPolynomial_injective (h.trans toPolynomial_one.symm), fun h => by simp [h]⟩

/-- Digits are added without a carry, as coefficients modulo two are. -/
theorem toPolynomial_xor (u v : Nat) :
    toPolynomial (u ^^^ v) = toPolynomial u + toPolynomial v := by
  ext i
  rw [coeff_add, coeff_toPolynomial, coeff_toPolynomial, coeff_toPolynomial, Nat.testBit_xor]
  cases u.testBit i <;> cases v.testBit i <;> decide

theorem toPolynomial_shiftLeft (v k : Nat) :
    toPolynomial (v <<< k) = X ^ k * toPolynomial v := by
  ext i
  rw [coeff_X_pow_mul', coeff_toPolynomial, coeff_toPolynomial, Nat.testBit_shiftLeft]
  by_cases hi : k ≤ i <;> simp [hi]

/-- The lowest coefficient apart from the others. -/
theorem toPolynomial_eq_add_shiftRight (v : Nat) :
    toPolynomial v = C (if v % 2 = 1 then (1 : ZMod 2) else 0) + X * toPolynomial (v >>> 1) := by
  ext i
  cases i with
  | zero =>
    rw [coeff_add, coeff_toPolynomial, coeff_C_zero, coeff_X_mul_zero, add_zero, Nat.testBit_zero]
    simp
  | succ i =>
    -- Bit `i` of `v >>> 1` is bit `i + 1` of `v`.
    rw [coeff_add, coeff_C_succ, zero_add, coeff_X_mul, coeff_toPolynomial, coeff_toPolynomial,
      Nat.testBit_shiftRight, Nat.add_comm 1 i]

/-! ## Degrees -/

/-- The degree is bounded by the number of digits; zero has none and degree `⊥`. -/
theorem degree_toPolynomial_lt_iff {v k : Nat} :
    (toPolynomial v).degree < k ↔ bitLength v ≤ k := by
  rw [degree_lt_iff_coeff_zero, bitLength_le_iff]
  refine forall_congr' fun i => imp_congr_right fun _ => ?_
  rw [coeff_toPolynomial]
  cases v.testBit i <;> simp

theorem bitLength_xor_le {u v k : Nat} (hu : bitLength u ≤ k) (hv : bitLength v ≤ k) :
    bitLength (u ^^^ v) ≤ k := by
  refine bitLength_le_iff.mpr fun i hi => ?_
  rw [Nat.testBit_xor, bitLength_le_iff.mp hu i hi, bitLength_le_iff.mp hv i hi]
  rfl

/-- The leading digit is the leading coefficient. -/
theorem natDegree_toPolynomial {v m : Nat} (h : bitLength v = m + 1) :
    (toPolynomial v).natDegree = m := by
  refine natDegree_eq_of_degree_eq_some (le_antisymm ?_ ?_)
  · exact Order.lt_succ_iff.mp (degree_toPolynomial_lt_iff.mpr h.le)
  · by_contra hlt
    have := degree_toPolynomial_lt_iff.mp (not_le.mp hlt)
    omega

/-! ## Moduli -/

/-- The polynomial `z ^ m + … + 1`, each middle exponent taken once. -/
noncomputable def Basis.polynomial (m : Nat) (basis : Basis) : (ZMod 2)[X] :=
  X ^ m + ∑ k ∈ basis.exponents.toFinset, X ^ k + 1

/-- The modulus `z ^ m + … + 1` with each of its exponents taken once, also where a middle exponent
is `0` or `m`. -/
noncomputable def Basis.modulus (m : Nat) (basis : Basis) : (ZMod 2)[X] :=
  ∑ i ∈ insert m (insert 0 basis.exponents.toFinset), X ^ i

/-- The modulus `z³ + z + 1` makes a field with eight elements. -/
theorem Basis.irreducible_polynomial_three : Irreducible ((trinomial 1).polynomial 3) := by
  have h : (trinomial 1).polynomial 3 = X ^ 3 + X + 1 := by simp [polynomial, exponents]
  have hdegree : natDegree (X ^ 3 + X + 1 : (ZMod 2)[X]) = 3 := by compute_degree!
  have hroot : ∀ x : ZMod 2, x ^ 3 + x + 1 ≠ 0 := by decide
  rw [h]
  refine irreducible_of_degree_le_three_of_not_isRoot (by simp [hdegree]) fun x hx => ?_
  exact hroot x (by simpa [IsRoot] using hx)

namespace BinaryField

/-- The modulus as a polynomial. -/
noncomputable def polynomial (f : BinaryField) : (ZMod 2)[X] := toPolynomial f.modulus

private theorem testBit_foldl_or (ks : List Nat) (v i : Nat) :
    (ks.foldl (fun f k => f ||| 1 <<< k) v).testBit i = (v.testBit i || decide (i ∈ ks)) := by
  induction ks generalizing v with
  | nil => simp
  | cons k ks ih =>
    rw [List.foldl_cons, ih, Nat.testBit_or, Nat.one_shiftLeft, Nat.testBit_two_pow]
    by_cases hk : i = k
    · simp [hk]
    · simp [hk, Ne.symm hk]

/-- An exponent that is named twice is still one digit, as `|||` sets it. -/
theorem testBit_modulus_ofBasis (m : Nat) (basis : Basis) (i : Nat) :
    (ofBasis m basis).modulus.testBit i = decide (i = m ∨ i = 0 ∨ i ∈ basis.exponents) := by
  rw [ofBasis, testBit_foldl_or, Nat.testBit_or, Nat.one_shiftLeft, Nat.testBit_two_pow,
    testBit_one]
  simp only [eq_comm (a := m), Bool.decide_or, Bool.or_assoc]

/-- The leading term is `z ^ m` if no middle exponent is above it. -/
theorem proper_ofBasis {m : Nat} {basis : Basis} (h : ∀ k ∈ basis.exponents, k ≤ m) :
    (ofBasis m basis).Proper := by
  have hlt : m < bitLength (ofBasis m basis).modulus :=
    lt_bitLength_of_testBit (by simp [testBit_modulus_ofBasis])
  refine le_antisymm (bitLength_le_iff.mpr fun i hi => ?_) hlt
  rw [testBit_modulus_ofBasis, decide_eq_false_iff_not]
  have hi : m + 1 ≤ i := hi
  rintro (rfl | rfl | hk)
  · omega
  · omega
  · have := h i hk
    omega

/-- The modulus has degree `m` exactly if no middle exponent is above `m`. -/
theorem proper_ofBasis_iff {m : Nat} {basis : Basis} :
    (ofBasis m basis).Proper ↔ ∀ k ∈ basis.exponents, k ≤ m := by
  refine ⟨fun h k hk => ?_, proper_ofBasis⟩
  have hbit : (ofBasis m basis).modulus.testBit k = true := by simp [testBit_modulus_ofBasis, hk]
  exact Nat.le_of_lt_succ ((lt_bitLength_of_testBit hbit).trans_eq h)

theorem polynomial_ofBasis_eq_modulus (m : Nat) (basis : Basis) :
    (ofBasis m basis).polynomial = basis.modulus m := by
  ext i
  rw [polynomial, Basis.modulus, coeff_toPolynomial, testBit_modulus_ofBasis]
  simp only [finsetSum_coeff, coeff_X_pow, Finset.sum_ite_eq, Finset.mem_insert, List.mem_toFinset,
    decide_eq_true_eq]

/-- The exponents of a valid basis are different from `0` and from `m`, so that the terms add up
without overlap. -/
theorem polynomial_ofBasis {m : Nat} {basis : Basis} (hm : 0 < m)
    (h : ∀ k ∈ basis.exponents, 0 < k ∧ k < m) :
    (ofBasis m basis).polynomial = basis.polynomial m := by
  ext i
  rw [polynomial, Basis.polynomial, coeff_toPolynomial, testBit_modulus_ofBasis]
  simp only [coeff_add, coeff_X_pow, coeff_one, finsetSum_coeff, Finset.sum_ite_eq,
    List.mem_toFinset, decide_eq_true_eq]
  -- At each `i` at most one of the three terms has a coefficient.
  by_cases hk : i ∈ basis.exponents
  · have := h i hk
    have h0 : i ≠ 0 := by omega
    have hm : i ≠ m := by omega
    simp [hk, h0, hm]
  · by_cases h0 : i = 0
    · subst h0
      simp [hk, hm.ne]
    · simp [hk, h0]

end BinaryField

end SigmaProtocol
