import SigmaProtocol.Proofs.Curve.Residue

/-!
# Products modulo the modulus of a binary field

The product of two polynomials over the field with two elements adds up shifted copies of one of
them, without carries (`carrylessProduct`). Multiplication in a binary field keeps the shifted copy
reduced from one digit to the next instead of reducing once, at the end. Both give the same, whether
the factors are reduced or not and whatever divides the modulus.

* `toPolynomial_carrylessProduct`: the product without carries is the product of polynomials.
* `BinaryField.mul_eq_reduce`: multiplication is the product without carries, reduced.
* `BinaryField.mul_assoc`, `BinaryField.mul_xor`, `BinaryField.square_xor`: the laws it obeys.
-/

namespace SigmaProtocol

open Polynomial

/-! ## Without reduction -/

/-- The product of two polynomials: the sum of `a * z ^ i` over the terms `z ^ i` of `b`. -/
def carrylessProduct (a b : Nat) : Nat :=
  (List.range (bitLength b)).foldl (fun sum i => if b.testBit i then sum ^^^ a <<< i else sum) 0

/-- The fold over the digits of `b` is the product of the two polynomials. -/
theorem toPolynomial_carrylessProduct (a b : Nat) :
    toPolynomial (carrylessProduct a b) = toPolynomial a * toPolynomial b := by
  -- After `n` rounds the sum is the product with the last `n` terms of `b`.
  have hpartial (n : Nat) :
      toPolynomial ((List.range n).foldl
          (fun sum i => if b.testBit i then sum ^^^ a <<< i else sum) 0)
        = toPolynomial a * ∑ i ∈ Finset.range n, monomial i (if b.testBit i then 1 else 0) := by
    induction n with
    | zero => simp
    | succ n ih =>
      rw [List.range_succ, List.foldl_concat, Finset.sum_range_succ, mul_add, ← ih]
      split
      · rw [toPolynomial_xor, toPolynomial_shiftLeft, monomial_one_right_eq_X_pow, mul_comm (X ^ n)]
      · rw [monomial_zero_right, mul_zero, add_zero]
  exact hpartial (bitLength b)

namespace BinaryField

variable {f : BinaryField}

theorem residue_carrylessProduct (u v : Nat) :
    f.residue (carrylessProduct u v) = f.residue u * f.residue v := by
  rw [residue, toPolynomial_carrylessProduct, map_mul]
  rfl

/-! ## Laws -/

/-- Reducing digit by digit gives what reducing once, at the end, gives. -/
theorem mul_eq_reduce (hf : f.Proper) (u v : Nat) :
    f.mul u v = f.reduce (carrylessProduct u v) := by
  refine residue_injective hf (bitLength_mul_le hf u v) (bitLength_reduce_le hf _) ?_
  rw [residue_mul, residue_reduce, residue_carrylessProduct]

/-- Both products have degree below `m` and are in one class. -/
protected theorem mul_comm (hf : f.Proper) (u v : Nat) : f.mul u v = f.mul v u := by
  refine residue_injective hf (bitLength_mul_le hf u v) (bitLength_mul_le hf v u) ?_
  rw [residue_mul, residue_mul, mul_comm]

protected theorem mul_assoc (hf : f.Proper) (u v w : Nat) :
    f.mul (f.mul u v) w = f.mul u (f.mul v w) := by
  refine residue_injective hf (bitLength_mul_le hf _ _) (bitLength_mul_le hf _ _) ?_
  rw [residue_mul, residue_mul, residue_mul, residue_mul, mul_assoc]

theorem mul_xor (hf : f.Proper) (u v w : Nat) :
    f.mul u (v ^^^ w) = f.mul u v ^^^ f.mul u w := by
  have hle := bitLength_xor_le (bitLength_mul_le hf u v) (bitLength_mul_le hf u w)
  refine residue_injective hf (bitLength_mul_le hf _ _) hle ?_
  rw [residue_mul, residue_xor, residue_xor, residue_mul, residue_mul, mul_add]

/-- In characteristic two the mixed terms of a square cancel. -/
theorem square_xor (hf : f.Proper) (u v : Nat) :
    f.square (u ^^^ v) = f.square u ^^^ f.square v := by
  have hle := bitLength_xor_le (bitLength_mul_le hf u u) (bitLength_mul_le hf v v)
  refine residue_injective hf (bitLength_mul_le hf _ _) hle ?_
  rw [residue_xor, residue_square, residue_square, residue_square, residue_xor]
  linear_combination f.residue u * f.residue v * two_eq_zero (f := f)

/-- Multiplication in the field is multiplication of polynomials modulo `p`. The factors may have
any degree. -/
structure MultipliesModulo (f : BinaryField) (p : (ZMod 2)[X]) : Prop where
  /-- The product is the one polynomial of degree below `m` that is congruent to the product without
  carries. -/
  eq_mul_iff : ∀ l r v, v = f.mul l r ↔
    bitLength v ≤ f.degree ∧ p ∣ toPolynomial v - toPolynomial (carrylessProduct l r)
  mul_eq_reduce : ∀ l r, f.mul l r = f.reduce (carrylessProduct l r)
  mul_comm : ∀ l r, f.mul l r = f.mul r l
  mul_assoc : ∀ l r s, f.mul (f.mul l r) s = f.mul l (f.mul r s)
  mul_xor : ∀ l r s, f.mul l (r ^^^ s) = f.mul l r ^^^ f.mul l s
  square_eq_mul : ∀ l, f.square l = f.mul l l
  square_xor : ∀ l r, f.square (l ^^^ r) = f.square l ^^^ f.square r

/-- **Multiplication.** If no middle exponent is above `m`, multiplication in the field is
multiplication of polynomials modulo the modulus, irreducible or not. -/
theorem multipliesModulo {m : Nat} {basis : Basis} (hbasis : ∀ k ∈ basis.exponents, k ≤ m) :
    (ofBasis m basis).MultipliesModulo (basis.modulus m) := by
  have hproper := proper_ofBasis hbasis
  refine ⟨fun l r v => ?_, mul_eq_reduce hproper, BinaryField.mul_comm hproper,
    BinaryField.mul_assoc hproper, mul_xor hproper, fun _ => rfl, square_xor hproper⟩
  rw [mul_eq_reduce hproper, eq_reduce_iff hproper, polynomial_ofBasis_eq_modulus]

/-- Factors of more than four digits, modulo `z⁴ + 1 = (z + 1)⁴`. -/
theorem multipliesModulo_fourthPower :
    let f := ofBasis 4 (.trinomial 4)
    (∀ k ∈ (Basis.trinomial 4).exponents, k ≤ 4) ∧ carrylessProduct 205 78 = 14214 ∧
      f.mul 205 78 = f.reduce 14214 ∧ f.mul 205 78 = 10 ∧
      f.square (205 ^^^ 78) = f.square 205 ^^^ f.square 78 := by
  have hbasis : ∀ k ∈ (Basis.trinomial 4).exponents, k ≤ 4 := by decide
  have hproduct : carrylessProduct 205 78 = 14214 := by decide +kernel
  have hf := multipliesModulo hbasis
  refine ⟨hbasis, hproduct, ?_, by decide +kernel, hf.square_xor 205 78⟩
  rw [hf.mul_eq_reduce, hproduct]

end BinaryField

end SigmaProtocol
