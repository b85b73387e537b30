import SigmaProtocol.Proofs.Group.Lawful

/-!
# What a membership check lets in

Where the index of the parameters is not 1, a member is infinity or a point of the curve that the
order kills, so that nothing of the wrong order enters a group. Where the index is 1 every point of
the curve is taken for a member. That is right if the order kills the whole curve, but the order is
not checked when parameters are read, and a curve over a binary field has a point of order two: with
an odd order it enters.

* `BinaryCurveParams.contains_iff_hasPoint`: the points of a curve by its equation.
* `BinaryCurve.exists_order_two`: the point of order two.
* `CurveGroup.admitsMembers`: what enters a group, and when the order kills all of it.
* `CurveGroup.admits_wrong_order`: a point of the wrong order that enters.
-/

namespace SigmaProtocol

open Polynomial WeierstrassCurve

/-! ## Points by their equation -/

/-- The coordinates are polynomials of degree below `m` that satisfy the equation of the curve
modulo the polynomial of the basis. -/
def BinaryCurveParams.HasPoint (params : BinaryCurveParams) (x y : Nat) : Prop :=
  (toPolynomial x).degree < params.m ∧ (toPolynomial y).degree < params.m ∧
    params.basis.polynomial params.m ∣
      (toPolynomial y ^ 2 + toPolynomial x * toPolynomial y) -
        (toPolynomial x ^ 3 + toPolynomial params.a * toPolynomial x ^ 2 + toPolynomial params.b)

theorem BinaryCurveParams.contains_iff_hasPoint {params : BinaryCurveParams} {x y : Nat} :
    params.toCurve.contains x y = true ↔ params.HasPoint x y := by
  have hbasis (k : Nat) (hk : k ∈ params.basis.exponents) : k ≤ params.m :=
    (params.basis_valid.exponents_lt k hk).2.le
  have hmodulus : params.basis.modulus params.m = params.basis.polynomial params.m :=
    (BinaryField.polynomial_ofBasis_eq_modulus _ _).symm.trans params.polynomial_toCurve
  rw [HasPoint, ← hmodulus]
  exact BinaryCurve.onCurve_ofBasis_iff hbasis (p := .affine x y)

/-! ## The point of order two -/

namespace BinaryField

variable {f : BinaryField} [Fact (Irreducible f.polynomial)]

/-- Elements with one square are the same, because `(u - v)²` is `u² - v²`. -/
theorem square_injOn (hf : f.Proper) : Set.InjOn f.square {u | bitLength u ≤ f.degree} := by
  intro u hu v hv h
  have hsquare := congrArg f.residue h
  rw [residue_square, residue_square] at hsquare
  -- The cross terms are even, so that they vanish.
  have hzero : (f.residue u - f.residue v) ^ 2 = 0 := by
    linear_combination
      hsquare + (f.residue v ^ 2 - f.residue u * f.residue v) * two_eq_zero (f := f)
  exact residue_injective hf hu hv (sub_eq_zero.mp ((pow_eq_zero_iff two_ne_zero).mp hzero))

/-- In a finite field of characteristic two every element is a square. -/
theorem square_surjOn (hf : f.Proper) :
    Set.SurjOn f.square {u | bitLength u ≤ f.degree} {u | bitLength u ≤ f.degree} := by
  have hmaps : Set.MapsTo f.square {u | bitLength u ≤ f.degree} {u | bitLength u ≤ f.degree} :=
    fun u _ => bitLength_mul_le hf u u
  have : Finite {u | bitLength u ≤ f.degree} :=
    ((Set.finite_Iio (2 ^ f.degree)).subset fun _ => bitLength_le_iff_lt.mp).to_subtype
  rw [← hmaps.restrict_surjective_iff]
  exact Finite.surjective_of_injective (hmaps.restrict_inj.mpr (square_injOn hf))

end BinaryField

namespace BinaryCurve

variable {c : BinaryCurve} [Fact (Irreducible c.field.polynomial)]

/-- The point with the abscissa zero is its own opposite. -/
theorem exists_order_two (hc : c.Smooth) :
    ∃ y, (embedding hc).On (.affine 0 y) ∧ 2 • (embedding hc).image (.affine 0 y) = 0 := by
  obtain ⟨y, hy, hsquare⟩ := BinaryField.square_surjOn hc.proper hc.b_le
  have hon : (embedding hc).On (.affine 0 y) := by
    refine ⟨Nat.zero_le _, hy, ?_⟩
    show c.weierstrass.Equation (c.field.residue 0) (c.field.residue y)
    have hresidue := BinaryField.residue_square (f := c.field) y
    rw [hsquare] at hresidue
    rw [Affine.equation_iff, BinaryField.residue_zero]
    simp only [weierstrass, hresidue]
    ring
  obtain ⟨-, hopposite⟩ := negate_spec hc hon
  rw [negate, Nat.zero_xor, eq_neg_iff_add_eq_zero] at hopposite
  exact ⟨y, hon, (two_nsmul _).trans hopposite⟩

/-- An odd multiple of the point of order two is that point again. -/
theorem exists_multiply_odd (hc : c.Smooth) :
    ∃ y, c.contains 0 y = true ∧
      ∀ k, Odd k → c.multiply (.affine 0 y) k = .affine 0 y := by
  obtain ⟨y, hon, htwo⟩ := exists_order_two hc
  refine ⟨y, (embedding_on_affine hc).mp hon, ?_⟩
  rintro k ⟨j, rfl⟩
  obtain ⟨hmon, hmul⟩ := image_multiply hc hon (2 * j + 1)
  refine (embedding hc).image_injective hmon hon ?_
  rw [hmul, add_nsmul, mul_comm, mul_nsmul', htwo, nsmul_zero, zero_add, one_nsmul]

end BinaryCurve

/-! ## What enters a group -/

namespace CurveGroup

/-- A point enters a group if it passes the check or is given by a function that checks. -/
inductive Admitted (g : CurveGroup) (p : Point) : Prop
  | isMember (h : g.isMember p = true)
  | ofCoordinates {x y : Nat} (h : g.ofCoordinates x y = .ok p)
  | ofBytes {bs : Bytes} (h : g.ofBytes bs = .ok p)

theorem Canonical.admitted_iff {g : CurveGroup} (hg : g.Canonical) {p : Point} :
    g.Admitted p ↔ g.isMember p = true := by
  refine ⟨fun h => ?_, .isMember⟩
  cases h with
  | isMember h => exact h
  | ofCoordinates h => exact hg.isMember_of_ofCoordinates h
  | ofBytes h => exact hg.isMember_of_ofBytes h

/-- What enters a group over a binary curve. -/
structure AdmitsMembers (g : CurveGroup) (params : BinaryCurveParams) : Prop where
  /-- A member is infinity or a point of the curve, which the order kills if the index is not 1. -/
  isMember_iff : ∀ {p : Point}, g.isMember p = true ↔ p = .infinity ∨ ∃ x y, p = .affine x y ∧
    params.HasPoint x y ∧
      (params.cofactor = 1 ∨ params.toCurve.multiply p params.order = .infinity)
  /-- Coordinates are accepted exactly if they are those of a member. -/
  ofCoordinates_eq_ok_iff : ∀ {x y : Nat} {p : Point},
    g.ofCoordinates x y = .ok p ↔ g.isMember (.affine x y) = true ∧ p = .affine x y
  /-- For any other index than 1 the order kills all that enters. -/
  killed : params.cofactor ≠ 1 → ∀ {p : Point}, g.Admitted p →
    params.toCurve.multiply p params.order = .infinity
  /-- For the index 1 it does so exactly if it kills all points of the curve. -/
  killed_iff : params.cofactor = 1 →
    ((∀ {p : Point}, g.Admitted p → params.toCurve.multiply p params.order = .infinity) ↔
      ∀ {x y : Nat}, params.HasPoint x y →
        params.toCurve.multiply (.affine x y) params.order = .infinity)
  /-- An odd order does not: a point enters that it leaves in place. -/
  exists_not_killed : params.cofactor = 1 → Odd params.order →
    ∃ y, g.Admitted (.affine 0 y) ∧
      params.toCurve.multiply (.affine 0 y) params.order = .affine 0 y

theorem isMember_binary_iff_hasPoint {params : BinaryGroupParams} {p : Point} :
    (binary params).isMember p = true ↔ p = .infinity ∨ ∃ x y, p = .affine x y ∧
      params.curve.HasPoint x y ∧ (params.curve.cofactor = 1 ∨
        params.curve.toCurve.multiply p params.curve.order = .infinity) := by
  cases p with
  | infinity => exact iff_of_true rfl (.inl rfl)
  | affine x y =>
    rw [isMember_affine_iff, BinaryCurveParams.contains_iff_hasPoint]
    constructor
    · intro h
      exact .inr ⟨x, y, rfl, h⟩
    · rintro (hp | ⟨_, _, hp, h⟩)
      · cases hp
      · cases hp
        exact h

section Irreducible

variable {params : BinaryGroupParams} [Fact (Irreducible params.curve.toCurve.field.polynomial)]

theorem multiply_order_of_isMember (hcofactor : params.curve.cofactor ≠ 1) {p : Point}
    (hp : (binary params).isMember p = true) :
    params.curve.toCurve.multiply p params.curve.order = .infinity := by
  obtain ⟨hon, hkilled⟩ := isMember_binary_iff.mp hp
  rw [BinaryCurve.multiply_eq_infinity_iff params.curve.smooth hon]
  exact hkilled.resolve_left hcofactor

/-- With the index 1 the members are the points of the curve. -/
theorem isMember_iff_on (hcofactor : params.curve.cofactor = 1) {p : Point} :
    (binary params).isMember p = true ↔ (BinaryCurve.embedding params.curve.smooth).On p := by
  rw [isMember_binary_iff, and_iff_left (.inl hcofactor)]

theorem multiply_order_iff (hcofactor : params.curve.cofactor = 1) :
    (∀ {p : Point}, (binary params).isMember p = true →
      params.curve.toCurve.multiply p params.curve.order = .infinity) ↔
    ∀ {x y : Nat}, params.curve.HasPoint x y →
      params.curve.toCurve.multiply (.affine x y) params.curve.order = .infinity := by
  constructor
  · intro h x y hxy
    refine h ((isMember_iff_on hcofactor).mpr ?_)
    rwa [BinaryCurve.embedding_on_affine, BinaryCurveParams.contains_iff_hasPoint]
  · intro h p hp
    cases p with
    | infinity =>
      have hon := (isMember_iff_on hcofactor).mp hp
      rw [BinaryCurve.multiply_eq_infinity_iff params.curve.smooth hon,
        PointEmbedding.image_infinity, nsmul_zero]
    | affine x y =>
      rw [isMember_iff_on hcofactor, BinaryCurve.embedding_on_affine,
        BinaryCurveParams.contains_iff_hasPoint] at hp
      exact h hp

theorem exists_isMember_multiply_odd (hcofactor : params.curve.cofactor = 1)
    (hodd : Odd params.curve.order) : ∃ y, (binary params).isMember (.affine 0 y) = true ∧
      params.curve.toCurve.multiply (.affine 0 y) params.curve.order = .affine 0 y := by
  obtain ⟨y, hcontains, hmultiply⟩ := BinaryCurve.exists_multiply_odd params.curve.smooth
  refine ⟨y, ?_, hmultiply _ hodd⟩
  rwa [isMember_iff_on hcofactor, BinaryCurve.embedding_on_affine]

end Irreducible

/-- **Membership.** What enters a group over a binary curve with an irreducible modulus. -/
theorem admitsMembers {params : BinaryGroupParams} {options : GroupOptions} {g : CurveGroup}
    (built : binaryChecked params options = .ok g)
    (irreducible : Irreducible (params.curve.basis.polynomial params.curve.m)) :
    g.AdmitsMembers params.curve := by
  obtain rfl := eq_binary_of_binaryChecked built
  have := BinaryCurveParams.fact_irreducible irreducible
  have hadmitted {p : Point} := (canonical_binary params).admitted_iff (p := p)
  exact {
    isMember_iff := isMember_binary_iff_hasPoint
    ofCoordinates_eq_ok_iff := (canonical_binary params).ofCoordinates_eq_ok_iff
    killed := fun hcofactor _ hp => multiply_order_of_isMember hcofactor (hadmitted.mp hp)
    killed_iff := by
      intro hcofactor
      simp only [hadmitted]
      exact multiply_order_iff hcofactor
    exists_not_killed := by
      intro hcofactor hodd
      simp only [hadmitted]
      exact exists_isMember_multiply_odd hcofactor hodd }

/-- The point of order two does not enter the subgroup of the seven points of odd order. -/
theorem admitsMembers_sevenPoints :
    let g := binary sevenPoints
    g.Admitted (.affine 3 0) ∧ ¬ g.Admitted (.affine 0 1) := by
  intro g
  have hg : g.AdmitsMembers sevenPoints.curve := admitsMembers
    (rfl : binaryChecked sevenPoints ⟨false⟩ = .ok g) Basis.irreducible_polynomial_three
  have hmember : g.isMember (.affine 3 0) = true := by decide +kernel
  have hwrong : sevenPoints.curve.toCurve.multiply (.affine 0 1) 7 ≠ .infinity := by
    decide +kernel
  exact ⟨.ofCoordinates (hg.ofCoordinates_eq_ok_iff.mpr ⟨hmember, rfl⟩),
    fun hp => hwrong (hg.killed (by decide) hp)⟩

/-- The same points with the whole curve declared as the group. -/
def declaredWhole : BinaryGroupParams where
  curve := { sevenPoints.curve with cofactor := 1, cofactor_ne_zero := Nat.one_ne_zero }
  koblitz := false
  koblitz_coefficients := nofun

/-- A table with these parameters. -/
def declaredWholeTable : CurveTable := ⟨[("seven points", {
  field := "F2m", m := some 3, k1 := some 1
  a := some "1"
  b := some "1"
  gx := some "3"
  gy := some "0"
  order := some "7"
  cofactor := some "1" })]⟩

/-- The point of order two enters, although the order does not kill it. -/
theorem admits_wrong_order :
    declaredWholeTable.params "seven points" = .ok (.binary declaredWhole) ∧
      Irreducible (declaredWhole.curve.basis.polynomial declaredWhole.curve.m) ∧
      (binary declaredWhole).isMember (.affine 0 1) = true ∧
      (binary declaredWhole).ofCoordinates 0 1 = .ok (.affine 0 1) ∧
      (binary declaredWhole).ofBytes [0, 1] = .ok (.affine 0 1) ∧
      declaredWhole.curve.toCurve.multiply (.affine 0 1) declaredWhole.curve.order ≠ .infinity :=
  ⟨by decide +kernel, Basis.irreducible_polynomial_three, by decide +kernel, by decide +kernel,
    by decide +kernel, by decide +kernel⟩

end CurveGroup

end SigmaProtocol
