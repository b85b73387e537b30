import SigmaProtocol.Curve.Binary
import SigmaProtocol.Proofs.Curve.Residue

/-!
# Divisions that end

A division by the modulus takes a step as long as the degree is `m` or more; nothing bounds the
number of steps. `DividesTo` holds of the divisions that end. If no middle exponent is above `m`,
every step lowers the degree and every division ends. If one is, no step does, so that a division
that takes a first step takes another one after each.

* `BinaryField.dividesTo_iff`: which divisions end, and that they end with `reduce`.
* `BinaryCurve.builds_iff`: which constructions of a curve end, and that they end with `ofBasis`.
-/

namespace SigmaProtocol

theorem bitLength_xor_of_lt {u v : Nat} (h : bitLength v < bitLength u) :
    bitLength (u ^^^ v) = bitLength u := by
  refine le_antisymm (bitLength_xor_le le_rfl h.le) ?_
  obtain ⟨k, hk⟩ : ∃ k, bitLength u = k + 1 := ⟨bitLength u - 1, by omega⟩
  rw [hk]
  refine lt_bitLength_of_testBit ?_
  rw [Nat.testBit_xor, testBit_of_bitLength hk, testBit_eq_false_of_bitLength_le (by omega)]
  rfl

namespace BinaryField

variable {f : BinaryField} {v w : Nat}

/-- The division of a polynomial by the modulus ends, with the given remainder. -/
inductive DividesTo (f : BinaryField) : Nat → Nat → Prop
  | done {v : Nat} (h : bitLength v ≤ f.degree) : f.DividesTo v v
  | step {v w : Nat} (h : f.degree < bitLength v) (rest : f.DividesTo (f.reduceStep v) w) :
    f.DividesTo v w

/-- What a division ends with has degree below `m`, whether the modulus has degree `m` or not. -/
theorem DividesTo.bitLength_le (h : f.DividesTo v w) : bitLength w ≤ f.degree := by
  induction h with
  | done h => exact h
  | step _ _ ih => exact ih

/-- A modulus of degree `m` cancels the leading term in each step, and the division ends. -/
theorem dividesTo_reduce (hf : f.Proper) (v : Nat) : f.DividesTo v (f.reduce v) := by
  fun_induction reduce f v with
  | case1 v hlt _ ih => exact .step hlt ih
  | case2 v _ h => exact absurd hf h
  | case3 v h => exact .done (Nat.le_of_not_lt h)

/-- The terms that meet at the top do not cancel: the multiple of the modulus is too long or too
short. -/
theorem le_bitLength_reduceStep (hf : ¬ f.Proper) (hv : f.degree < bitLength v) :
    bitLength v ≤ bitLength (f.reduceStep v) := by
  rw [reduceStep]
  by_cases h0 : f.modulus = 0
  · simp [h0]
  · have hshift := bitLength_shiftLeft h0 (bitLength v - (f.degree + 1))
    rw [Proper] at hf
    rcases lt_or_gt_of_ne hf with hlt | hgt
    · exact (bitLength_xor_of_lt (by omega)).ge
    · rw [Nat.xor_comm, bitLength_xor_of_lt (by omega)]
      omega

/-- A division that does not start below `m` stays above: no step lowers the degree. -/
theorem not_dividesTo (hf : ¬ f.Proper) (hv : f.degree < bitLength v) (w : Nat) :
    ¬ f.DividesTo v w := by
  intro h
  induction h with
  | done h => omega
  | step _ _ ih => exact ih (hv.trans_le (le_bitLength_reduceStep hf hv))

theorem DividesTo.eq_reduce (h : f.DividesTo v w) : w = f.reduce v := by
  induction h with
  | done h => exact (reduce_eq_self h).symm
  | step h rest ih =>
    by_cases hf : f.Proper
    · rw [ih, reduce_reduceStep hf h]
    · exact absurd rest (not_dividesTo hf (h.trans_le (le_bitLength_reduceStep hf h)) _)

theorem dividesTo_iff :
    f.DividesTo v w ↔ (f.Proper ∨ bitLength v ≤ f.degree) ∧ w = f.reduce v := by
  constructor
  · intro h
    refine ⟨?_, h.eq_reduce⟩
    by_contra hends
    rw [not_or, not_le] at hends
    exact not_dividesTo hends.1 hends.2 w h
  · rintro ⟨hf | hv, rfl⟩
    · exact dividesTo_reduce hf v
    · rw [reduce_eq_self hv]
      exact .done hv

/-- Every division ends exactly if no middle exponent is above `m`. -/
theorem forall_exists_dividesTo_iff {m : Nat} {basis : Basis} :
    (∀ v, ∃ w, (ofBasis m basis).DividesTo v w) ↔ ∀ k ∈ basis.exponents, k ≤ m := by
  rw [← proper_ofBasis_iff]
  refine ⟨fun h => ?_, fun hf v => ⟨_, dividesTo_reduce hf v⟩⟩
  -- The division of `z ^ m` takes at least one step.
  obtain ⟨w, hw⟩ := h (1 <<< m)
  refine (dividesTo_iff.mp hw).1.resolve_right fun hle => ?_
  rw [bitLength_shiftLeft one_ne_zero] at hle
  have hone : bitLength 1 = 1 := rfl
  have hdegree : (ofBasis m basis).degree = m := rfl
  omega

end BinaryField

namespace BinaryCurve

variable {m a b : Nat} {basis : Basis} {c : BinaryCurve}

/-- The construction of the curve with the given basis and coefficients ends, with the curve `c`. -/
structure Builds (m : Nat) (basis : Basis) (a b : Nat) (c : BinaryCurve) : Prop where
  field_eq : c.field = BinaryField.ofBasis m basis
  divides_a : c.field.DividesTo a c.a
  divides_b : c.field.DividesTo b c.b

/-- The two coefficients are all that is divided when a curve is built. -/
theorem builds_iff : Builds m basis a b c ↔
    ((∀ k ∈ basis.exponents, k ≤ m) ∨ bitLength a ≤ m ∧ bitLength b ≤ m) ∧
      c = ofBasis m basis a b := by
  rw [← BinaryField.proper_ofBasis_iff, or_and_left]
  constructor
  · rintro ⟨hfield, ha, hb⟩
    rw [hfield, BinaryField.dividesTo_iff] at ha hb
    refine ⟨⟨ha.1, hb.1⟩, ?_⟩
    rw [ofBasis, ← ha.2, ← hb.2, ← hfield]
  · rintro ⟨⟨ha, hb⟩, rfl⟩
    exact ⟨rfl, BinaryField.dividesTo_iff.mpr ⟨ha, rfl⟩, BinaryField.dividesTo_iff.mpr ⟨hb, rfl⟩⟩

/-- What a division ends with is congruent to what it began with. -/
theorem modulus_dvd_of_dividesTo {v w : Nat} (h : (BinaryField.ofBasis m basis).DividesTo v w) :
    basis.modulus m ∣ toPolynomial w - toPolynomial v := by
  rw [h.eq_reduce, ← BinaryField.polynomial_ofBasis_eq_modulus]
  exact BinaryField.residue_eq_iff.mp (BinaryField.residue_reduce v)

/-- **Construction.** The construction of a curve ends exactly if no middle exponent is above `m` or
both coefficients have degree below `m` as they are given; every division ends exactly in the first
case. A curve that is built holds the coefficients modulo the modulus. -/
theorem construction_ends (m : Nat) (basis : Basis) (a b : Nat) :
    ((∃ c, Builds m basis a b c) ↔
      (∀ k ∈ basis.exponents, k ≤ m) ∨ bitLength a ≤ m ∧ bitLength b ≤ m) ∧
    ((∀ v, ∃ w, (BinaryField.ofBasis m basis).DividesTo v w) ↔ ∀ k ∈ basis.exponents, k ≤ m) ∧
    ∀ c, Builds m basis a b c → c = ofBasis m basis a b ∧
      (bitLength c.a ≤ m ∧ basis.modulus m ∣ toPolynomial c.a - toPolynomial a) ∧
      (bitLength c.b ≤ m ∧ basis.modulus m ∣ toPolynomial c.b - toPolynomial b) := by
  refine ⟨?_, BinaryField.forall_exists_dividesTo_iff, fun c hc => ?_⟩
  · simp only [builds_iff, exists_and_left, exists_eq, and_true]
  · obtain ⟨hfield, ha, hb⟩ := hc
    have hcurve := (builds_iff.mp ⟨hfield, ha, hb⟩).2
    rw [hfield] at ha hb
    exact ⟨hcurve, ⟨ha.bitLength_le, modulus_dvd_of_dividesTo ha⟩,
      hb.bitLength_le, modulus_dvd_of_dividesTo hb⟩

theorem construction_ends_middle_three :
    let c := ofBasis 3 (.trinomial 3) 200 1
    Builds 3 (.trinomial 3) 200 1 c ∧ c.a = 2 ∧ bitLength c.a ≤ 3 ∧
      (Basis.trinomial 3).modulus 3 ∣ toPolynomial c.a - toPolynomial 200 := by
  obtain ⟨hends, -, hbuilt⟩ := construction_ends 3 (.trinomial 3) 200 1
  obtain ⟨c, hc⟩ := hends.mpr (.inl (by decide))
  obtain ⟨rfl, ha, -⟩ := hbuilt c hc
  exact ⟨hc, by decide +kernel, ha⟩

/-- The modulus `z⁵ + z³ + 1`, taken for one of degree three, never reduces `z³`. -/
theorem construction_endless : ¬ ∃ c, Builds 3 (.trinomial 5) 8 1 c := by
  rintro ⟨c, hc⟩
  exact absurd (builds_iff.mp hc).1 (by decide)

end BinaryCurve

end SigmaProtocol
