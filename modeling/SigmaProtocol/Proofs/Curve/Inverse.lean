import SigmaProtocol.Proofs.Curve.Residue

/-!
# Inverses modulo the modulus of a binary field

Euclid's algorithm keeps two facts: its two remainders are multiples of the argument with known
factors, and taking one of them away from the other changes no common divisor. The second
remainder is never `1`, so that a run that ends at zero has found a common divisor that is no unit.

* `BinaryField.residue_of_inverse?`: what is found is an inverse.
* `BinaryField.inverse?_isSome_iff`: an inverse is found exactly for the polynomials that have no
  factor in common with the modulus.
* `BinaryField.inverse?_eq_none_iff`: over an irreducible modulus only zero has none.
-/

namespace SigmaProtocol.BinaryField

open Polynomial

variable {f : BinaryField}

/-- The only polynomial with an inverse polynomial is `1`. -/
theorem isUnit_toPolynomial_iff {v : Nat} : IsUnit (toPolynomial v) ↔ v = 1 := by
  rw [← toPolynomial_eq_one_iff]
  refine ⟨fun h => ?_, fun h => h ▸ isUnit_one⟩
  obtain ⟨r, hr, hv⟩ := Polynomial.isUnit_iff.mp h
  have h1 : ∀ r : ZMod 2, r ≠ 0 → r = 1 := by decide
  rw [← hv, h1 r hr.ne_zero, C_1]

/-! ## Euclid's algorithm -/

/-- What the loop keeps: the remainders are `g * a` and `h * a` in the ring of residue classes. -/
theorem residue_of_inverseLoop {u v g h r : Nat} {a : AdjoinRoot f.polynomial}
    (hu : f.residue u = f.residue g * a) (hv : f.residue v = f.residue h * a)
    (hr : inverseLoop u v g h = some r) : f.residue r * a = 1 := by
  fun_induction inverseLoop u v g h with
  | case1 v g h =>
    cases hr
    rw [← hu, residue_one]
  | case2 => cases hr
  | case3 u v g h _ _ _ shift ih =>
    refine ih ?_ hu hr
    rw [residue_xor, residue_xor, residue_shiftLeft, residue_shiftLeft, hu, hv]
    ring
  | case4 u v g h _ _ _ shift ih =>
    refine ih ?_ hv hr
    rw [residue_xor, residue_xor, residue_shiftLeft, residue_shiftLeft, hu, hv]
    ring

/-- What the loop keeps as well: the common factors of the remainders. It comes down to `1` if there
are none. -/
theorem inverseLoop_isSome_iff {u v : Nat} (hv : v ≠ 1) (g h : Nat) :
    (inverseLoop u v g h).isSome ↔ IsCoprime (toPolynomial u) (toPolynomial v) := by
  fun_induction inverseLoop u v g h with
  | case1 v g h => simpa using isCoprime_one_left
  | case2 u v g h hu h0 =>
    -- A remainder is zero: the other one is the greatest common divisor, and is not `1`.
    rcases h0 with rfl | rfl
    · simp [isCoprime_zero_left, isUnit_toPolynomial_iff, hv]
    · simp [isCoprime_zero_right, isUnit_toPolynomial_iff, hu]
  | case3 u v g h hu _ _ shift ih =>
    rw [ih hu, toPolynomial_xor, toPolynomial_shiftLeft, IsCoprime.add_mul_right_left_iff,
      isCoprime_comm]
  | case4 u v g h _ _ _ shift ih =>
    rw [ih hv, toPolynomial_xor, toPolynomial_shiftLeft, IsCoprime.add_mul_right_left_iff]

/-! ## Inverses and quotients -/

theorem residue_of_inverse? {a r : Nat} (h : f.inverse? a = some r) :
    f.residue r * f.residue a = 1 := by
  obtain ⟨s, hs, rfl⟩ := Option.map_eq_some_iff.mp h
  rw [residue_reduce]
  refine residue_of_inverseLoop ?_ ?_ hs
  · rw [residue_one, one_mul, residue_reduce]
  · rw [residue_modulus, residue_zero, zero_mul]

/-- What is found as a quotient is the product with an inverse of the divisor. -/
theorem residue_of_div? {u v w : Nat} (h : f.div? u v = some w) :
    ∃ r, f.inverse? v = some r ∧ f.residue r * f.residue v = 1 ∧
      f.residue w * f.residue v = f.residue u := by
  obtain ⟨r, hr, rfl⟩ := Option.map_eq_some_iff.mp h
  have hinverse := residue_of_inverse? hr
  exact ⟨r, hr, hinverse, by rw [residue_mul, mul_assoc, hinverse, mul_one]⟩

/-- Reduction changes the argument by a multiple of the modulus, and so no common factor. -/
theorem inverse?_isSome_iff (hf : f.modulus ≠ 1) (a : Nat) :
    (f.inverse? a).isSome ↔ IsCoprime (toPolynomial a) f.polynomial := by
  obtain ⟨k, hk⟩ : f.polynomial ∣ toPolynomial (f.reduce a) - toPolynomial a :=
    residue_eq_iff.mp (residue_reduce a)
  rw [inverse?, Option.isSome_map, inverseLoop_isSome_iff hf, sub_eq_iff_eq_add'.mp hk]
  exact IsCoprime.add_mul_left_left_iff

section Irreducible

variable [hf : Fact (Irreducible f.polynomial)]

theorem inverse?_eq_none_iff (a : Nat) : f.inverse? a = none ↔ f.residue a = 0 := by
  have hm : f.modulus ≠ 1 := fun h => hf.out.not_isUnit (isUnit_toPolynomial_iff.mpr h)
  rw [← Option.not_isSome_iff_eq_none, inverse?_isSome_iff hm, isCoprime_comm,
    hf.out.coprime_iff_not_dvd, not_not]
  exact AdjoinRoot.mk_eq_zero.symm

/-- Division fails by zero alone, and is the division of residue classes otherwise. -/
theorem div?_cases (u v : Nat) :
    (f.residue v = 0 ∧ f.div? u v = none) ∨
      ∃ w, f.residue v ≠ 0 ∧ f.div? u v = some w ∧ f.residue w = f.residue u / f.residue v := by
  cases h : f.div? u v with
  | none => exact .inl ⟨(inverse?_eq_none_iff v).mp (Option.map_eq_none_iff.mp h), rfl⟩
  | some w =>
    obtain ⟨r, -, hr, hw⟩ := residue_of_div? h
    have hv : f.residue v ≠ 0 := right_ne_zero_of_mul_eq_one hr
    exact .inr ⟨w, hv, rfl, (eq_div_iff hv).mpr hw⟩

end Irreducible

theorem bitLength_div?_le (hf : f.Proper) {u v w : Nat} (h : f.div? u v = some w) :
    bitLength w ≤ f.degree := by
  obtain ⟨r, -, rfl⟩ := Option.map_eq_some_iff.mp h
  exact bitLength_mul_le hf u r

end SigmaProtocol.BinaryField
