import SigmaProtocol.Proofs.Curve.Points
import SigmaProtocol.Proofs.Curve.Weierstrass

/-!
# The group of a curve over a binary field

Over an irreducible modulus the numbers of at most `m` binary digits are a field of characteristic
two, and `y² + xy = x³ + ax² + b` with `b ≠ 0` is a Weierstrass curve without singular points. The
formulas of addition and doubling are those of chord and tangent, written for characteristic two.

* `BinaryCurve.embedding`: the points of the curve as a commutative group.
* `BinaryCurve.image_multiply`: double-and-add computes a multiple.
* `BinaryCurve.negate_spec`: negation is the opposite.
-/

namespace SigmaProtocol.BinaryCurve

open WeierstrassCurve

/-- The coefficients are field elements, and the curve has no singular point. -/
structure Smooth (c : BinaryCurve) : Prop where
  proper : c.field.Proper
  a_le : bitLength c.a ≤ c.field.degree
  b_le : bitLength c.b ≤ c.field.degree
  b_ne_zero : c.b ≠ 0

/-- The curve over the ring of residue classes. -/
noncomputable def weierstrass (c : BinaryCurve) : Affine (AdjoinRoot c.field.polynomial) :=
  ⟨1, c.field.residue c.a, 0, 0, c.field.residue c.b⟩

variable {c : BinaryCurve}

theorem Smooth.reduced (hc : c.Smooth) : c.Reduced := ⟨hc.proper, hc.a_le, hc.b_le⟩

theorem contains_iff (hc : c.Reduced) {x y : Nat} :
    c.contains x y = true ↔ bitLength x ≤ c.field.degree ∧ bitLength y ≤ c.field.degree ∧
      c.weierstrass.Equation (c.field.residue x) (c.field.residue y) := by
  rw [contains_iff_residue hc, Affine.equation_iff]
  simp only [weierstrass]
  ring_nf

/-- In characteristic two the discriminant is `b`. -/
theorem discriminant_ne_zero (hc : c.Smooth) : c.weierstrass.Δ ≠ 0 := by
  have h2 : (2 : AdjoinRoot c.field.polynomial) = 0 := BinaryField.two_eq_zero
  have hΔ : c.weierstrass.Δ = c.field.residue c.b := by
    simp only [WeierstrassCurve.Δ, WeierstrassCurve.b₂, WeierstrassCurve.b₄,
      WeierstrassCurve.b₆, WeierstrassCurve.b₈, weierstrass]
    generalize c.field.residue c.a = a, c.field.residue c.b = b
    linear_combination
      -(b + 6 * a * b + 24 * a ^ 2 * b + 32 * a ^ 3 * b + 216 * b ^ 2) * h2
  rw [hΔ]
  intro h
  exact hc.b_ne_zero (BinaryField.residue_injective hc.proper hc.b_le (by simp)
    (h.trans BinaryField.residue_zero.symm))

/-! ## Chord and tangent in characteristic two -/

section Formulas

variable {F : Type} [Field F] {a b x y l x₁ x₂ y₁ y₂ : F}

/-- The slope of the tangent to a Weierstrass curve, as it is computed here. -/
private theorem tangent_slope (h2 : (2 : F) = 0) (hx : x ≠ 0) :
    (3 * x ^ 2 + 2 * a * x + 0 - 1 * y) / (y - (-y - 1 * x - 0)) = x + y / x := by
  have hden : y - (-y - 1 * x - 0) = x := by linear_combination y * h2
  rw [hden]
  field_simp
  linear_combination (x ^ 2 + a * x - y) * h2

private theorem tangent_ordinate (h2 : (2 : F) = 0) (hl : l * x = x ^ 2 + y) :
    x ^ 2 + l * (l ^ 2 + l + a) + (l ^ 2 + l + a) =
      -(l * (l ^ 2 + 1 * l - a - x - x - x) + y) - 1 * (l ^ 2 + 1 * l - a - x - x) - 0 := by
  linear_combination (l ^ 3 + 2 * l ^ 2 + l - x - 2 * l * x + x ^ 2 + y) * h2 + hl

private theorem chord_slope (h2 : (2 : F) = 0) :
    (y₁ - y₂) / (x₁ - x₂) = (y₁ + y₂) / (x₁ + x₂) := by
  have hneg (u v : F) : u - v = u + v := by linear_combination -v * h2
  rw [hneg, hneg]

private theorem chord_ordinate (h2 : (2 : F) = 0) :
    l * (x₁ + (l ^ 2 + l + a + (x₁ + x₂))) + (l ^ 2 + l + a + (x₁ + x₂)) + y₁ =
      -(l * (l ^ 2 + 1 * l - a - x₁ - x₂ - x₁) + y₁) - 1 * (l ^ 2 + 1 * l - a - x₁ - x₂) - 0 := by
  linear_combination (l ^ 3 + 2 * l ^ 2 + l + y₁) * h2

end Formulas

noncomputable instance : DecidableEq (AdjoinRoot c.field.polynomial) := Classical.decEq _

theorem double_eq_add (p : Point) : c.double p = c.add p p := by
  cases p with
  | infinity => rfl
  | affine x y => simp only [add, if_true]

section Group

variable [hf : Fact (Irreducible c.field.polynomial)]

/-- Coordinates are the numbers of at most `m` binary digits. -/
noncomputable def chart (hc : c.Smooth) : Chart (AdjoinRoot c.field.polynomial) where
  Coordinate v := bitLength v ≤ c.field.degree
  value := c.field.residue
  value_injective := BinaryField.residue_injective hc.proper

/-- The points that the chart embeds are the points of the curve. -/
theorem on_iff (hc : c.Smooth) {p : Point} : (chart hc).On c.weierstrass p ↔ c.OnCurve p := by
  cases p with
  | infinity => exact Iff.rfl
  | affine x y => exact (contains_iff hc.reduced).symm

/-- The slope of the tangent, at a point that is not its own opposite. -/
theorem slope_tangent {x y w : Nat} (hx : c.field.residue x ≠ 0)
    (hw : c.field.residue w = c.field.residue y / c.field.residue x) :
    c.field.residue y ≠ c.weierstrass.negY (c.field.residue x) (c.field.residue y) ∧
      c.weierstrass.slope (c.field.residue x) (c.field.residue x) (c.field.residue y)
        (c.field.residue y) = c.field.residue x + c.field.residue w := by
  have h2 : (2 : AdjoinRoot c.field.polynomial) = 0 := BinaryField.two_eq_zero
  have hne : c.field.residue y ≠ c.weierstrass.negY (c.field.residue x) (c.field.residue y) := by
    intro h
    simp only [weierstrass, Affine.negY] at h
    exact hx (by linear_combination h - c.field.residue y * h2)
  refine ⟨hne, ?_⟩
  rw [Affine.slope_of_Y_ne rfl hne, hw]
  exact tangent_slope h2 hx

/-- The slope of the chord. -/
theorem slope_chord {x₁ y₁ x₂ y₂ w : Nat} (hx : c.field.residue x₁ ≠ c.field.residue x₂)
    (hw : c.field.residue w = c.field.residue (y₁ ^^^ y₂) / c.field.residue (x₁ ^^^ x₂)) :
    c.weierstrass.slope (c.field.residue x₁) (c.field.residue x₂) (c.field.residue y₁)
      (c.field.residue y₂) = c.field.residue w := by
  rw [Affine.slope_of_X_ne hx, hw, BinaryField.residue_xor, BinaryField.residue_xor]
  exact chord_slope BinaryField.two_eq_zero

/-- A point with the residues that the addition law of Weierstrass curves asks for is the sum. -/
theorem isSum_of_hasResidues (hc : c.Smooth) {x₁ y₁ x₂ y₂ : Nat} {r : Point}
    {l X Y : AdjoinRoot c.field.polynomial} (hr : c.HasResidues X Y r)
    (hopposite : ¬ (chart hc).Opposite c.weierstrass x₁ y₁ x₂ y₂)
    (hslope : c.weierstrass.slope (c.field.residue x₁) (c.field.residue x₂) (c.field.residue y₁)
      (c.field.residue y₂) = l)
    (hX : X = c.weierstrass.addX (c.field.residue x₁) (c.field.residue x₂) l)
    (hY : Y = c.weierstrass.addY (c.field.residue x₁) (c.field.residue x₂) (c.field.residue y₁) l) :
    (chart hc).IsSum c.weierstrass x₁ y₁ x₂ y₂ r := by
  subst hslope
  cases r with
  | infinity => exact hr.elim
  | affine x y =>
    obtain ⟨hx, hy, rfl, rfl⟩ := hr
    exact ⟨hopposite, hx, hy, hX, hY⟩

/-- Doubling follows the addition law. The slope is missing only where `x` is zero, and there the
point is its own opposite. -/
theorem isSum_double (hc : c.Smooth) {x y : Nat} (hx : bitLength x ≤ c.field.degree) :
    (chart hc).IsSum c.weierstrass x y x y (c.double (.affine x y)) := by
  have h2 : (2 : AdjoinRoot c.field.polynomial) = 0 := BinaryField.two_eq_zero
  rcases BinaryField.div?_cases (f := c.field) y x with ⟨hx0, hdiv⟩ | ⟨w, hx0, hdiv, hw⟩
  · simp only [double, hdiv]
    refine ⟨rfl, ?_⟩
    simp only [chart, weierstrass, Affine.negY, hx0]
    linear_combination c.field.residue y * h2
  · obtain ⟨hne, hslope⟩ := slope_tangent hx0 hw
    have hmulx : (c.field.residue x + c.field.residue w) * c.field.residue x
        = c.field.residue x ^ 2 + c.field.residue y := by
      rw [hw]
      field_simp
    refine isSum_of_hasResidues hc (hasResidues_double hc.reduced hx hdiv rfl rfl)
      (fun h => hne h.2) hslope ?_ ?_
    · simp only [Affine.addX, weierstrass]
      linear_combination (c.field.residue c.a + c.field.residue x) * h2
    · simp only [Affine.addY, Affine.negAddY, Affine.addX, Affine.negY, weierstrass]
      exact tangent_ordinate h2 hmulx

/-- Addition follows the addition law: for equal points, for opposite points, and along a chord. -/
theorem isSum_add (hc : c.Smooth) {x₁ y₁ x₂ y₂ : Nat}
    (h₁ : (chart hc).On c.weierstrass (.affine x₁ y₁))
    (h₂ : (chart hc).On c.weierstrass (.affine x₂ y₂)) :
    (chart hc).IsSum c.weierstrass x₁ y₁ x₂ y₂ (c.add (.affine x₁ y₁) (.affine x₂ y₂)) := by
  have h2 : (2 : AdjoinRoot c.field.polynomial) = 0 := BinaryField.two_eq_zero
  by_cases hx : x₁ = x₂
  · subst hx
    by_cases hy : y₁ = y₂
    · subst hy
      simp only [add, if_true]
      exact isSum_double hc h₁.1
    · simp only [add, if_true, if_neg hy]
      refine ⟨rfl, ?_⟩
      have hne : c.field.residue y₁ ≠ c.field.residue y₂ := fun h =>
        hy (BinaryField.residue_injective hc.proper h₁.2.1 h₂.2.1 h)
      -- At most two points have one abscissa, and they are opposite.
      exact (Affine.Y_eq_of_X_eq h₁.2.2 h₂.2.2 rfl).resolve_left hne
  · have hne : c.field.residue x₁ ≠ c.field.residue x₂ := fun h =>
      hx (BinaryField.residue_injective hc.proper h₁.1 h₂.1 h)
    -- Different abscissas have different residues, so that the division does not fail.
    have hsum : c.field.residue (x₁ ^^^ x₂) ≠ 0 := by
      rw [BinaryField.residue_xor]
      exact fun h => hne (by linear_combination h - c.field.residue x₂ * h2)
    obtain ⟨hzero, -⟩ | ⟨w, -, hdiv, hw⟩ :=
      BinaryField.div?_cases (f := c.field) (y₁ ^^^ y₂) (x₁ ^^^ x₂)
    · exact absurd hzero hsum
    · refine isSum_of_hasResidues hc
        (hasResidues_add hc.reduced h₁.1 h₁.2.1 h₂.1 hx hdiv rfl rfl)
        (fun h => hne h.1) (slope_chord hne hw) ?_ ?_
      · simp only [Affine.addX, weierstrass]
        linear_combination
          (c.field.residue c.a + c.field.residue x₁ + c.field.residue x₂) * h2
      · simp only [Affine.addY, Affine.negAddY, Affine.addX, Affine.negY, weierstrass]
        exact chord_ordinate h2

/-- The points of the curve as a commutative group. -/
noncomputable def embedding (hc : c.Smooth) : PointEmbedding c.weierstrass.Point :=
  Chart.embedding (C := chart hc) (discriminant_ne_zero hc) c.add (fun _ => rfl)
    (fun p => by cases p <;> rfl) (isSum_add hc)

theorem embedding_on_affine (hc : c.Smooth) {x y : Nat} :
    (embedding hc).On (.affine x y) ↔ c.contains x y = true :=
  (contains_iff hc.reduced).symm

theorem image_multiply (hc : c.Smooth) {p : Point} (hon : (embedding hc).On p) (k : Nat) :
    (embedding hc).On (c.multiply p k) ∧
      (embedding hc).image (c.multiply p k) = k • (embedding hc).image p :=
  (embedding hc).image_of_halving hon (fun _ => double_eq_add _) (by rw [multiply, if_pos rfl])
    (fun k hk => by rw [multiply, if_neg hk]; rfl) k

theorem multiply_eq_infinity_iff (hc : c.Smooth) {p : Point} (hon : (embedding hc).On p)
    (k : Nat) : c.multiply p k = .infinity ↔ k • (embedding hc).image p = 0 := by
  obtain ⟨hmon, hmul⟩ := image_multiply hc hon k
  rw [(embedding hc).eq_infinity_iff hmon, hmul]

/-- Negation keeps the curve and takes the opposite in the group. -/
theorem negate_spec (hc : c.Smooth) {p : Point} (hp : (embedding hc).On p) :
    (embedding hc).On (negate p) ∧ (embedding hc).image (negate p) = -(embedding hc).image p := by
  cases p with
  | infinity => exact ⟨trivial, neg_zero.symm⟩
  | affine x y =>
    have h2 : (2 : AdjoinRoot c.field.polynomial) = 0 := BinaryField.two_eq_zero
    have hy : c.weierstrass.negY (c.field.residue x) (c.field.residue y)
        = c.field.residue (x ^^^ y) := by
      simp only [weierstrass, Affine.negY, BinaryField.residue_xor]
      linear_combination -(c.field.residue x + c.field.residue y) * h2
    have hns := Chart.nonsingular (C := chart hc) (discriminant_ne_zero hc) hp
    have hon : (chart hc).On c.weierstrass (negate (.affine x y)) :=
      (on_iff hc).mpr (onCurve_negate hc.reduced ((on_iff hc).mp hp))
    refine ⟨hon, ?_⟩
    have hns' := Chart.nonsingular (C := chart hc) (discriminant_ne_zero hc) hon
    show (chart hc).toPoint c.weierstrass (negate (.affine x y))
      = -(chart hc).toPoint c.weierstrass (.affine x y)
    rw [negate, Chart.toPoint_affine hns', Chart.toPoint_affine hns, Affine.Point.neg_some,
      Affine.Point.some.injEq]
    exact ⟨rfl, hy.symm⟩

end Group

/-! ## The laws -/

/-- The curve is smooth if the modulus does not divide `b`, however large `b` is. -/
theorem smooth_ofBasis {m : Nat} {basis : Basis} (a : Nat) {b : Nat}
    (hbasis : ∀ k ∈ basis.exponents, k ≤ m)
    (hb : ¬ (BinaryField.ofBasis m basis).polynomial ∣ toPolynomial b) :
    (ofBasis m basis a b).Smooth where
  proper := (reduced_ofBasis hbasis a b).proper
  a_le := (reduced_ofBasis hbasis a b).a_le
  b_le := (reduced_ofBasis hbasis a b).b_le
  b_ne_zero := by
    intro h
    refine hb (AdjoinRoot.mk_eq_zero.mp ?_)
    have hres := BinaryField.residue_reduce (f := BinaryField.ofBasis m basis) b
    have h0 : (BinaryField.ofBasis m basis).reduce b = 0 := h
    rw [h0, BinaryField.residue_zero] at hres
    exact hres.symm

/-- **Group law.** Over an irreducible modulus the points of a curve with `b ≠ 0` are an abelian
group under addition, with infinity as zero, negation as opposite and doubling as the sum of a
point with itself. -/
theorem abelian_group_laws {m : Nat} {basis : Basis} {a b : Nat} (hm : 2 ≤ m)
    (hbasis : ∀ k ∈ basis.exponents, 0 < k ∧ k < m)
    (hirreducible : Irreducible (basis.polynomial m))
    (hb : ¬ basis.polynomial m ∣ toPolynomial b) {c : BinaryCurve} (hc : c = ofBasis m basis a b)
    {p q r : Point} (hp : c.OnCurve p) (hq : c.OnCurve q) (hr : c.OnCurve r) :
    c.add p .infinity = p ∧ c.add .infinity p = p ∧ c.add p q = c.add q p ∧
      c.add p (negate p) = .infinity ∧ c.double p = c.add p p ∧
      c.add (c.add p q) r = c.add p (c.add q r) := by
  have hpolynomial := BinaryField.polynomial_ofBasis (by omega : 0 < m) hbasis
  have hsmooth : c.Smooth := by
    rw [← hpolynomial] at hb
    exact hc ▸ smooth_ofBasis a (fun k hk => (hbasis k hk).2.le) hb
  have : Fact (Irreducible c.field.polynomial) := by
    subst hc
    exact ⟨hpolynomial ▸ hirreducible⟩
  have hp := (on_iff hsmooth).mpr hp
  have hq := (on_iff hsmooth).mpr hq
  have hr := (on_iff hsmooth).mpr hr
  let E := embedding hsmooth
  have hopposite : E.mul p (negate p) = .infinity := by
    obtain ⟨hon, himage⟩ := negate_spec hsmooth hp
    rw [E.eq_infinity_iff (E.on_mul hp hon), E.image_mul hp hon, himage, add_neg_cancel]
  exact ⟨E.mul_infinity hp, E.infinity_mul hp, E.mul_comm hp hq, hopposite, double_eq_add p,
    E.mul_assoc hp hq hr⟩

theorem abelian_group_laws_eight :
    let c := ofBasis 3 (.trinomial 1) 1 1
    let p := Point.affine 2 5
    let q := Point.affine 3 0
    let r := Point.affine 0 1
    c.add p .infinity = p ∧ c.add .infinity p = p ∧ c.add p q = c.add q p ∧
      c.add p (negate p) = .infinity ∧ c.double p = c.add p p ∧
      c.add (c.add p q) r = c.add p (c.add q r) := by
  have hon (x y : Nat) (h : (ofBasis 3 (.trinomial 1) 1 1).contains x y = true) :
      (ofBasis 3 (.trinomial 1) 1 1).OnCurve (.affine x y) := h
  refine abelian_group_laws (by decide) (by decide) Basis.irreducible_polynomial_three ?_ rfl
    (hon 2 5 (by decide +kernel)) (hon 3 0 (by decide +kernel)) (hon 0 1 (by decide +kernel))
  rw [toPolynomial_one]
  exact Basis.irreducible_polynomial_three.not_dvd_one

end SigmaProtocol.BinaryCurve
