import SigmaProtocol.Proofs.Curve.Polynomial

/-!
# Residues modulo the modulus of a binary field

Every number stands for a residue class of polynomials modulo the modulus, irreducible or not. The
operations of the field are the operations of the ring of residue classes, and a class has at most
one representative of degree below `m`.

* `BinaryField.residue_reduce`, `BinaryField.residue_mul`: reduction keeps the class, and
  multiplication multiplies classes.
* `BinaryField.eq_reduce_iff`: a remainder is the representative of degree below `m`.
* `BinaryField.bitLength_mul_le`: a product has degree below `m`.
* `BinaryField.residue_injective`: representatives of degree below `m` are determined by their
  classes.
-/

namespace SigmaProtocol.BinaryField

open Polynomial

/-- The residue class of the polynomial that `v` stands for. -/
noncomputable def residue (f : BinaryField) (v : Nat) : AdjoinRoot f.polynomial :=
  AdjoinRoot.mk f.polynomial (toPolynomial v)

variable {f : BinaryField}

theorem contains_iff {v : Nat} : f.contains v = true ↔ bitLength v ≤ f.degree :=
  decide_eq_true_iff

@[simp] theorem residue_zero : f.residue 0 = 0 := by
  rw [residue, toPolynomial_zero, map_zero]

@[simp] theorem residue_one : f.residue 1 = 1 := by
  rw [residue, toPolynomial_one, map_one]

theorem residue_xor (u v : Nat) : f.residue (u ^^^ v) = f.residue u + f.residue v := by
  rw [residue, toPolynomial_xor, map_add]
  rfl

theorem two_eq_zero : (2 : AdjoinRoot f.polynomial) = 0 := by
  have h : f.residue (1 ^^^ 1) = f.residue 1 + f.residue 1 := residue_xor 1 1
  rwa [Nat.xor_self, residue_zero, residue_one, one_add_one_eq_two, eq_comm] at h

theorem residue_shiftLeft (v k : Nat) :
    f.residue (v <<< k) = AdjoinRoot.root f.polynomial ^ k * f.residue v := by
  rw [residue, toPolynomial_shiftLeft, map_mul, map_pow, AdjoinRoot.mk_X]
  rfl

theorem residue_modulus : f.residue f.modulus = 0 := AdjoinRoot.mk_self

/-- Two numbers are in one class if the modulus divides their difference. -/
theorem residue_eq_iff {u v : Nat} :
    f.residue u = f.residue v ↔ f.polynomial ∣ toPolynomial u - toPolynomial v :=
  AdjoinRoot.mk_eq_mk

/-! ## Representatives -/

theorem Proper.natDegree_polynomial (hf : f.Proper) : f.polynomial.natDegree = f.degree :=
  natDegree_toPolynomial hf

theorem Proper.polynomial_ne_zero (hf : f.Proper) : f.polynomial ≠ 0 := by
  intro h
  have h0 : f.modulus = 0 := toPolynomial_eq_zero_iff.mp h
  rw [Proper, h0, bitLength_zero] at hf
  omega

/-- A class has at most one representative of degree below `m`. -/
theorem residue_injective (hf : f.Proper) {u v : Nat} (hu : bitLength u ≤ f.degree)
    (hv : bitLength v ≤ f.degree) (h : f.residue u = f.residue v) : u = v := by
  have hdvd := residue_eq_iff.mp h
  -- A multiple of the modulus that has lower degree than the modulus is zero.
  have hlt : (toPolynomial u - toPolynomial v).degree < f.polynomial.degree := by
    rw [degree_eq_natDegree hf.polynomial_ne_zero, hf.natDegree_polynomial]
    exact (degree_sub_le _ _).trans_lt
      (max_lt (degree_toPolynomial_lt_iff.mpr hu) (degree_toPolynomial_lt_iff.mpr hv))
  exact toPolynomial_injective (sub_eq_zero.mp (eq_zero_of_dvd_of_degree_lt hdvd hlt))

/-! ## Reduction -/

/-- A step takes a multiple of the modulus away. -/
theorem residue_reduceStep (v : Nat) : f.residue (f.reduceStep v) = f.residue v := by
  rw [reduceStep, residue_xor, residue_shiftLeft, residue_modulus, mul_zero, add_zero]

/-- Reduction stays in the class. Where the division does not end there is nothing to show, because
`v` stands for the remainder. -/
theorem residue_reduce (v : Nat) : f.residue (f.reduce v) = f.residue v := by
  fun_induction reduce f v with
  | case1 v _ _ ih => rw [ih, residue_reduceStep]
  | case2 v _ _ => rw [(f.divideForever v).property]
  | case3 v _ => rfl

/-- The remainder is the one polynomial of degree below `m` in its class. -/
theorem eq_reduce_iff (hf : f.Proper) {v w : Nat} :
    w = f.reduce v ↔ bitLength w ≤ f.degree ∧ f.polynomial ∣ toPolynomial w - toPolynomial v := by
  rw [← residue_eq_iff]
  constructor
  · rintro rfl
    exact ⟨bitLength_reduce_le hf v, residue_reduce v⟩
  · rintro ⟨hw, h⟩
    exact residue_injective hf hw (bitLength_reduce_le hf v) (h.trans (residue_reduce v).symm)

/-! ## Products -/

/-- The next multiple `z * v`, which may have a term for `z ^ m`, has none after the correction. -/
private theorem bitLength_next_le (hf : f.Proper) {v : Nat} (hv : bitLength v ≤ f.degree) :
    bitLength (if (v <<< 1).testBit f.degree then v <<< 1 ^^^ f.modulus else v <<< 1)
      ≤ f.degree := by
  have hshift : bitLength (v <<< 1) ≤ f.degree + 1 := by
    by_cases h0 : v = 0
    · simp [h0]
    · rw [bitLength_shiftLeft h0]
      omega
  split
  · next hbit =>
    have := lt_bitLength_of_testBit hbit
    have := bitLength_xor_lt (u := v <<< 1) (v := f.modulus) (n := f.degree + 1) (by omega) hf
      (by omega)
    omega
  · next hbit =>
    refine bitLength_le_iff.mpr fun i hi => ?_
    rcases Nat.lt_or_eq_of_le hi with hlt | rfl
    · exact bitLength_le_iff.mp hshift i hlt
    · simpa using hbit

/-- The correction takes the modulus away, so that the class is that of `z * v`. -/
private theorem residue_next (v : Nat) :
    f.residue (if (v <<< 1).testBit f.degree then v <<< 1 ^^^ f.modulus else v <<< 1)
      = AdjoinRoot.root f.polynomial * f.residue v := by
  split
  · rw [residue_xor, residue_modulus, add_zero, residue_shiftLeft, pow_one]
  · rw [residue_shiftLeft, pow_one]

private theorem bitLength_shiftRight_one_le {v k : Nat} (h : bitLength v ≤ k + 1) :
    bitLength (v >>> 1) ≤ k := by
  refine bitLength_le_iff.mpr fun i hi => ?_
  rw [Nat.testBit_shiftRight]
  exact bitLength_le_iff.mp h (1 + i) (by omega)

/-- The lowest digit apart from the others. -/
private theorem residue_eq_add_shiftRight (v : Nat) :
    f.residue v = (if v % 2 = 1 then 1 else 0)
      + AdjoinRoot.root f.polynomial * f.residue (v >>> 1) := by
  rw [residue, toPolynomial_eq_add_shiftRight, map_add, map_mul, AdjoinRoot.mk_X]
  split <;> simp [residue]

/-- What is accumulated is `sum + rest * shifted`, for the digits of `rest` that are left. -/
theorem residue_mulLoop {count rest : Nat} (hrest : bitLength rest ≤ count) (shifted sum : Nat) :
    f.residue (f.mulLoop count rest shifted sum)
      = f.residue sum + f.residue rest * f.residue shifted := by
  induction count generalizing rest shifted sum with
  | zero =>
    rw [bitLength_eq_zero_iff.mp (Nat.le_zero.mp hrest)]
    simp [mulLoop]
  | succ count ih =>
    -- One digit of `rest` is `d + z * rest'`: `d * shifted` goes into the sum and `z` into
    -- `shifted`.
    rw [mulLoop, ih (bitLength_shiftRight_one_le hrest), residue_next,
      residue_eq_add_shiftRight rest]
    split
    · rw [residue_xor]
      ring
    · ring

theorem bitLength_mulLoop_le (hf : f.Proper) (count rest : Nat) {shifted sum : Nat}
    (hshifted : bitLength shifted ≤ f.degree) (hsum : bitLength sum ≤ f.degree) :
    bitLength (f.mulLoop count rest shifted sum) ≤ f.degree := by
  induction count generalizing rest shifted sum with
  | zero => exact hsum
  | succ count ih =>
    refine ih _ (bitLength_next_le hf hshifted) ?_
    split
    · exact bitLength_xor_le hsum hshifted
    · exact hsum

/-- Multiplication multiplies classes, whatever the degrees of the factors are. -/
theorem residue_mul (u v : Nat) : f.residue (f.mul u v) = f.residue u * f.residue v := by
  rw [mul, residue_mulLoop le_rfl, residue_zero, zero_add, residue_reduce, residue_reduce,
    mul_comm]

theorem bitLength_mul_le (hf : f.Proper) (u v : Nat) : bitLength (f.mul u v) ≤ f.degree :=
  bitLength_mulLoop_le hf _ _ (bitLength_reduce_le hf u) (by simp)

theorem residue_square (v : Nat) : f.residue (f.square v) = f.residue v * f.residue v :=
  residue_mul v v

end SigmaProtocol.BinaryField
