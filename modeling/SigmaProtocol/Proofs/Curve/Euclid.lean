import SigmaProtocol.Proofs.Curve.Inverse
import SigmaProtocol.Proofs.Curve.Division

/-!
# Exact inverses

Euclid's algorithm as a machine: in every round the remainder of higher degree loses its leading
term, so that the two remainders together have fewer digits than before. The algorithm is over after
at most as many rounds as the remainders have digits, and what it then holds says whether there is
an inverse.

* `BinaryField.Euclid.exists_rounds`: the algorithm is over after that many rounds at most.
* `BinaryField.mul_inverse?`, `BinaryField.exists_inverse?_iff`: what is found is an inverse, and
  when one is found.
* `BinaryField.mul_div?`: what division finds is a quotient.
-/

namespace SigmaProtocol.BinaryField

open Polynomial

/-! ## Rounds -/

/-- What Euclid's algorithm holds between two rounds: the remainders `u` and `v` with their
factors. -/
structure Euclid where
  u : Nat
  v : Nat
  g : Nat
  h : Nat

namespace Euclid

/-- One round: the remainder of lower degree is lined up with the other and taken away from it. -/
def round (s : Euclid) : Euclid :=
  if bitLength s.u < bitLength s.v then
    let shift := bitLength s.v - bitLength s.u
    ⟨s.v ^^^ s.u <<< shift, s.u, s.h ^^^ s.g <<< shift, s.g⟩
  else
    let shift := bitLength s.u - bitLength s.v
    ⟨s.u ^^^ s.v <<< shift, s.v, s.g ^^^ s.h <<< shift, s.h⟩

/-- No further round is taken. -/
def Over (s : Euclid) : Prop := s.u = 1 ∨ s.u = 0 ∨ s.v = 0

/-- The factor of the remainder `1`, if the algorithm has come down to it. -/
def factor? (s : Euclid) : Option Nat := if s.u = 1 then some s.g else none

/-- The digits of both remainders. -/
def size (s : Euclid) : Nat := bitLength s.u + bitLength s.v

/-- A round that is taken cancels a leading term. -/
theorem size_round_lt {s : Euclid} (hs : ¬ s.Over) : s.round.size < s.size := by
  simp only [Over, not_or] at hs
  obtain ⟨-, hu, hv⟩ := hs
  unfold round
  split
  · next hlt =>
    have := bitLength_xor_shift_lt hu hlt.le
    simp only [size]
    omega
  · next hle =>
    have := bitLength_xor_shift_lt hv (Nat.not_lt.mp hle)
    simp only [size]
    omega

/-- Where no further round is taken, the result is what the state holds. -/
theorem inverseLoop_of_over {s : Euclid} (hs : s.Over) :
    inverseLoop s.u s.v s.g s.h = s.factor? := by
  rw [inverseLoop, factor?]
  by_cases hu : s.u = 1
  · rw [if_pos hu, if_pos hu]
  · rw [if_neg hu, if_neg hu, dif_pos (hs.resolve_left hu)]

theorem inverseLoop_round {s : Euclid} (hs : ¬ s.Over) :
    inverseLoop s.round.u s.round.v s.round.g s.round.h = inverseLoop s.u s.v s.g s.h := by
  simp only [Over, not_or] at hs
  rw [inverseLoop.eq_def s.u, if_neg hs.1, dif_neg (not_or.mpr hs.2), round]
  split <;> rfl

/-- The algorithm is over after at most as many rounds as the remainders have digits. -/
theorem exists_rounds (s : Euclid) :
    ∃ n ≤ s.size, (∀ i < n, ¬ (round^[i] s).Over) ∧ (round^[n] s).Over ∧
      inverseLoop s.u s.v s.g s.h = (round^[n] s).factor? := by
  -- On the number of digits that are left, which every round lowers.
  induction hsize : s.size using Nat.strong_induction_on generalizing s with
  | _ size ih =>
    by_cases hs : s.Over
    · exact ⟨0, Nat.zero_le _, by simp, hs, inverseLoop_of_over hs⟩
    · have hlt := size_round_lt hs
      obtain ⟨n, hn, hrunning, hover, hfactor⟩ := ih _ (hsize ▸ hlt) s.round rfl
      refine ⟨n + 1, by omega, fun i hi => ?_, ?_⟩
      · cases i with
        | zero => exact hs
        | succ i =>
          rw [Function.iterate_succ_apply]
          exact hrunning i (by omega)
      · rw [Function.iterate_succ_apply, ← inverseLoop_round hs]
        exact ⟨hover, hfactor⟩

/-- The state in which the search for an inverse of `a` begins. -/
def start (f : BinaryField) (a : Nat) : Euclid := ⟨f.reduce a, f.modulus, 1, 0⟩

theorem size_start_le {f : BinaryField} (hf : f.Proper) (a : Nat) :
    (start f a).size ≤ 2 * f.degree + 1 := by
  have hu := bitLength_reduce_le hf a
  have hv : bitLength f.modulus = f.degree + 1 := hf
  simp only [size, start]
  omega

end Euclid

/-! ## Inverses -/

variable {f : BinaryField}

/-- The search for an inverse is over after at most `2 m + 1` rounds. -/
theorem exists_inverse?_rounds (hf : f.Proper) (a : Nat) :
    ∃ n ≤ 2 * f.degree + 1, (∀ i < n, ¬ (Euclid.round^[i] (.start f a)).Over) ∧
      (Euclid.round^[n] (.start f a)).Over ∧
      f.inverse? a = (Euclid.round^[n] (.start f a)).factor?.map f.reduce := by
  obtain ⟨n, hn, hrunning, hover, hfactor⟩ := (Euclid.start f a).exists_rounds
  exact ⟨n, hn.trans (Euclid.size_start_le hf a), hrunning, hover,
    congrArg (Option.map f.reduce) hfactor⟩

theorem bitLength_inverse?_le (hf : f.Proper) {a r : Nat} (h : f.inverse? a = some r) :
    bitLength r ≤ f.degree := by
  obtain ⟨g, -, rfl⟩ := Option.map_eq_some_iff.mp h
  exact bitLength_reduce_le hf g

/-- Division by `a` fails exactly where inversion does, whatever is divided. -/
theorem exists_div?_iff (l a : Nat) : (∃ x, f.div? l a = some x) ↔ ∃ r, f.inverse? a = some r := by
  rw [← Option.isSome_iff_exists, ← Option.isSome_iff_exists, div?, Option.isSome_map]

/-- What is found is an inverse, provided that `1` is itself reduced. -/
theorem mul_inverse? (hf : f.Proper) (hm : 1 ≤ f.degree) {a r : Nat} (h : f.inverse? a = some r) :
    f.mul a r = 1 := by
  have hone : bitLength 1 ≤ f.degree := hm
  refine residue_injective hf (bitLength_mul_le hf a r) hone ?_
  rw [residue_mul, mul_comm, residue_of_inverse? h, residue_one]

theorem mul_div? (hf : f.Proper) {l a x : Nat} (h : f.div? l a = some x) :
    f.mul x a = f.reduce l := by
  obtain ⟨-, -, -, hx⟩ := residue_of_div? h
  refine residue_injective hf (bitLength_mul_le hf x a) (bitLength_reduce_le hf l) ?_
  rw [residue_mul, hx, residue_reduce]

theorem exists_inverse?_iff (hf : f.Proper) (hm : 1 ≤ f.degree) (a : Nat) :
    (∃ r, f.inverse? a = some r) ↔ IsCoprime (toPolynomial a) f.polynomial := by
  have hmodulus : f.modulus ≠ 1 := by
    intro h
    rw [Proper, h] at hf
    have hone : bitLength 1 = 1 := rfl
    omega
  rw [← inverse?_isSome_iff hmodulus, Option.isSome_iff_exists]

/-- Inversion and division in the field are those of the polynomials modulo `p`. The arguments may
have any degree. -/
structure InvertsModulo (f : BinaryField) (p : (ZMod 2)[X]) : Prop where
  /-- The divisions by the modulus end. -/
  dividesTo_reduce : ∀ v, f.DividesTo v (f.reduce v)
  /-- So does Euclid's algorithm, and the result is read off what it then holds. -/
  inverse?_rounds : ∀ a, ∃ n ≤ 2 * f.degree + 1,
    (∀ i < n, ¬ (Euclid.round^[i] (.start f a)).Over) ∧ (Euclid.round^[n] (.start f a)).Over ∧
      f.inverse? a = (Euclid.round^[n] (.start f a)).factor?.map f.reduce
  /-- An inverse is found exactly for the polynomials that have no factor in common with `p`. -/
  exists_inverse?_iff : ∀ a, (∃ r, f.inverse? a = some r) ↔ IsCoprime (toPolynomial a) p
  mul_inverse? : ∀ {a r}, f.inverse? a = some r → bitLength r ≤ f.degree ∧ f.mul a r = 1
  exists_div?_iff : ∀ l a, (∃ x, f.div? l a = some x) ↔ IsCoprime (toPolynomial a) p
  mul_div? : ∀ {l a x}, f.div? l a = some x → f.mul x a = f.reduce l
  /-- If `p` is irreducible, then only its multiples have no inverse. -/
  inverse?_eq_none_iff : Irreducible p → ∀ a, f.inverse? a = none ↔ p ∣ toPolynomial a

/-- **Inversion.** If no middle exponent is above `m` and `m` is not zero, inversion and division
are those of the polynomials modulo the modulus, irreducible or not. -/
theorem invertsModulo {m : Nat} {basis : Basis} (hm : 1 ≤ m)
    (hbasis : ∀ k ∈ basis.exponents, k ≤ m) :
    (ofBasis m basis).InvertsModulo (basis.modulus m) := by
  have hproper := proper_ofBasis hbasis
  rw [← polynomial_ofBasis_eq_modulus]
  exact {
    dividesTo_reduce := dividesTo_reduce hproper
    inverse?_rounds := exists_inverse?_rounds hproper
    exists_inverse?_iff := exists_inverse?_iff hproper hm
    mul_inverse? := fun h => ⟨bitLength_inverse?_le hproper h, mul_inverse? hproper hm h⟩
    exists_div?_iff := fun l a => (exists_div?_iff l a).trans (exists_inverse?_iff hproper hm a)
    mul_div? := mul_div? hproper
    inverse?_eq_none_iff := fun hirreducible a => by
      have : Fact (Irreducible (ofBasis m basis).polynomial) := ⟨hirreducible⟩
      rw [inverse?_eq_none_iff]
      exact AdjoinRoot.mk_eq_zero }

/-- Modulo `z⁴ + 1 = (z + 1)⁴` the polynomial `z⁵` has the inverse `z³`, and `z⁴ + z` has none;
modulo `z³ + z + 1` its multiple `z⁴ + z² + z` has none. -/
theorem invertsModulo_fourthPower :
    let f := ofBasis 4 (.trinomial 4)
    let p := (Basis.trinomial 4).modulus 4
    let q := (Basis.trinomial 1).modulus 3
    (1 ≤ 4 ∧ ∀ k ∈ (Basis.trinomial 4).exponents, k ≤ 4) ∧
      (IsCoprime (toPolynomial 32) p ∧ f.inverse? 32 = some 8 ∧ f.mul 32 8 = 1) ∧
      (¬ IsCoprime (toPolynomial 18) p ∧ f.inverse? 18 = none) ∧
      Irreducible q ∧ q ∣ toPolynomial 22 := by
  intro f p q
  have hbasis : ∀ k ∈ (Basis.trinomial 4).exponents, k ≤ 4 := by decide
  have hf : f.InvertsModulo p := invertsModulo (by decide) hbasis
  have hsome : f.inverse? 32 = some 8 := by decide +kernel
  have hnone : f.inverse? 18 = none := by decide +kernel
  have hirreducible : Irreducible q := by
    show Irreducible ((Basis.trinomial 1).modulus 3)
    rw [← polynomial_ofBasis_eq_modulus, polynomial_ofBasis (by decide) (by decide)]
    exact Basis.irreducible_polynomial_three
  have hq : (ofBasis 3 (.trinomial 1)).InvertsModulo q := invertsModulo (by decide) (by decide)
  refine ⟨⟨by decide, hbasis⟩, ⟨(hf.exists_inverse?_iff 32).mp ⟨8, hsome⟩, hsome,
    (hf.mul_inverse? hsome).2⟩, ⟨fun h => ?_, hnone⟩, hirreducible,
    (hq.inverse?_eq_none_iff hirreducible 22).mp (by decide +kernel)⟩
  obtain ⟨r, hr⟩ := (hf.exists_inverse?_iff 18).mpr h
  rw [hnone] at hr
  cases hr

end SigmaProtocol.BinaryField
