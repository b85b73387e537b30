import SigmaProtocol.Curve.Binary
import SigmaProtocol.Proofs.Curve.Inverse

/-!
# Points over any modulus

Over a modulus that is not irreducible the numbers of at most `m` binary digits are a ring in which
some elements other than zero have no inverse. Addition and doubling still lead from points of the
curve to points of the curve. A slope is there only if the denominator has an inverse, and no more
is needed of it: the line of that slope meets the curve where a cubic is zero, and the denominator
can be divided out of what the two points say about that cubic.

* `BinaryCurve.contains_iff_residue`: the check of the equation is the equation in the ring.
* `BinaryCurve.hasResidues_double`, `BinaryCurve.hasResidues_add`: the residues of what the formulas
  give.
* `BinaryCurve.onCurve_add`, `BinaryCurve.onCurve_multiply`: no operation leaves the curve.
-/

namespace SigmaProtocol.BinaryCurve

/-- The point is infinity, or its coordinates are field elements that satisfy the equation. -/
def OnCurve (c : BinaryCurve) : Point → Prop
  | .infinity => True
  | .affine x y => c.contains x y = true

/-- The modulus has the degree of the field, and the coefficients are field elements. -/
structure Reduced (c : BinaryCurve) : Prop where
  proper : c.field.Proper
  a_le : bitLength c.a ≤ c.field.degree
  b_le : bitLength c.b ≤ c.field.degree

/-- The coefficients are reduced when a curve is built. -/
theorem reduced_ofBasis {m : Nat} {basis : Basis} (hbasis : ∀ k ∈ basis.exponents, k ≤ m)
    (a b : Nat) : (ofBasis m basis a b).Reduced where
  proper := BinaryField.proper_ofBasis hbasis
  a_le := BinaryField.bitLength_reduce_le (BinaryField.proper_ofBasis hbasis) a
  b_le := BinaryField.bitLength_reduce_le (BinaryField.proper_ofBasis hbasis) b

variable {c : BinaryCurve}

/-- Both sides of the equation have degree below `m`, so that they are equal as numbers if they are
in one class. -/
theorem contains_iff_residue (hc : c.Reduced) {x y : Nat} :
    c.contains x y = true ↔ bitLength x ≤ c.field.degree ∧ bitLength y ≤ c.field.degree ∧
      c.field.residue y ^ 2 + c.field.residue x * c.field.residue y
        = c.field.residue x ^ 3 + c.field.residue c.a * c.field.residue x ^ 2
          + c.field.residue c.b := by
  have hle (u v : Nat) := BinaryField.bitLength_mul_le hc.proper u v
  have heq (u v : Nat) (hu : bitLength u ≤ c.field.degree) (hv : bitLength v ≤ c.field.degree) :
      u = v ↔ c.field.residue u = c.field.residue v :=
    ⟨fun h => h ▸ rfl, BinaryField.residue_injective hc.proper hu hv⟩
  simp only [contains, BinaryField.square, Bool.and_eq_true, beq_iff_eq, and_assoc,
    BinaryField.contains_iff]
  refine and_congr_right fun _ => and_congr_right fun _ => ?_
  rw [heq _ _ (bitLength_xor_le (hle _ _) (hle _ _))
    (bitLength_xor_le (bitLength_xor_le (hle _ _) (hle _ _)) hc.b_le)]
  simp only [BinaryField.residue_xor, BinaryField.residue_mul]
  ring_nf

/-! ## Sums and doubles -/

/-- The abscissa that a line with the given slope leads to, up to the abscissas of the two
points. -/
theorem residue_slopeAbscissa (slope : Nat) :
    c.field.residue (c.slopeAbscissa slope)
      = c.field.residue slope ^ 2 + c.field.residue slope + c.field.residue c.a := by
  rw [slopeAbscissa, BinaryField.residue_xor, BinaryField.residue_xor, BinaryField.residue_square,
    sq]

theorem bitLength_slopeAbscissa_le (hc : c.Reduced) {slope : Nat}
    (h : bitLength slope ≤ c.field.degree) :
    bitLength (c.slopeAbscissa slope) ≤ c.field.degree :=
  bitLength_xor_le (bitLength_xor_le (BinaryField.bitLength_mul_le hc.proper _ _) h) hc.a_le

/-- The coordinates of the point are the field elements with the residues `X` and `Y`. -/
def HasResidues (c : BinaryCurve) (X Y : AdjoinRoot c.field.polynomial) : Point → Prop
  | .infinity => False
  | .affine x y => bitLength x ≤ c.field.degree ∧ bitLength y ≤ c.field.degree ∧
      c.field.residue x = X ∧ c.field.residue y = Y

theorem HasResidues.onCurve (hc : c.Reduced) {X Y : AdjoinRoot c.field.polynomial} {p : Point}
    (hp : c.HasResidues X Y p)
    (h : Y ^ 2 + X * Y = X ^ 3 + c.field.residue c.a * X ^ 2 + c.field.residue c.b) :
    c.OnCurve p := by
  cases p with
  | infinity => trivial
  | affine x y =>
    obtain ⟨hx, hy, rfl, rfl⟩ := hp
    exact (contains_iff_residue hc).mpr ⟨hx, hy, h⟩

/-- The double by the slope `l`. -/
theorem hasResidues_double (hc : c.Reduced) {x y w : Nat} (hx : bitLength x ≤ c.field.degree)
    (hdiv : c.field.div? y x = some w) {l X : AdjoinRoot c.field.polynomial}
    (hl : l = c.field.residue x + c.field.residue w) (hX : X = l ^ 2 + l + c.field.residue c.a) :
    c.HasResidues X (c.field.residue x ^ 2 + l * X + X) (c.double (.affine x y)) := by
  have hmul (u v : Nat) := BinaryField.bitLength_mul_le hc.proper u v
  have hslope : bitLength (x ^^^ w) ≤ c.field.degree :=
    bitLength_xor_le hx (BinaryField.bitLength_div?_le hc.proper hdiv)
  have habscissa := bitLength_slopeAbscissa_le hc hslope
  rw [← BinaryField.residue_xor] at hl
  rw [hl, ← residue_slopeAbscissa] at hX
  simp only [double, hdiv]
  refine ⟨habscissa, bitLength_xor_le (bitLength_xor_le (hmul _ _) (hmul _ _)) habscissa,
    hX.symm, ?_⟩
  rw [BinaryField.residue_xor, BinaryField.residue_xor, BinaryField.residue_square,
    BinaryField.residue_mul, hl, hX, sq]

/-- The sum by the slope `w`. -/
theorem hasResidues_add (hc : c.Reduced) {x₁ y₁ x₂ y₂ w : Nat}
    (hx₁ : bitLength x₁ ≤ c.field.degree) (hy₁ : bitLength y₁ ≤ c.field.degree)
    (hx₂ : bitLength x₂ ≤ c.field.degree) (hne : x₁ ≠ x₂)
    (hdiv : c.field.div? (y₁ ^^^ y₂) (x₁ ^^^ x₂) = some w)
    {l X : AdjoinRoot c.field.polynomial} (hl : l = c.field.residue w)
    (hX : X = l ^ 2 + l + c.field.residue c.a + (c.field.residue x₁ + c.field.residue x₂)) :
    c.HasResidues X (l * (c.field.residue x₁ + X) + X + c.field.residue y₁)
      (c.add (.affine x₁ y₁) (.affine x₂ y₂)) := by
  have hslope := BinaryField.bitLength_div?_le hc.proper hdiv
  have habscissa : bitLength (c.slopeAbscissa w ^^^ (x₁ ^^^ x₂)) ≤ c.field.degree :=
    bitLength_xor_le (bitLength_slopeAbscissa_le hc hslope) (bitLength_xor_le hx₁ hx₂)
  rw [hl, ← residue_slopeAbscissa, ← BinaryField.residue_xor, ← BinaryField.residue_xor] at hX
  simp only [add, if_neg hne, hdiv]
  refine ⟨habscissa, bitLength_xor_le (bitLength_xor_le
    (BinaryField.bitLength_mul_le hc.proper _ _) habscissa) hy₁, hX.symm, ?_⟩
  rw [BinaryField.residue_xor, BinaryField.residue_xor, BinaryField.residue_mul,
    BinaryField.residue_xor x₁, hl, hX]

/-! ## Lines in characteristic two -/

section Lines

variable {R : Type} [CommRing R] {a b l x y x₁ y₁ x₂ y₂ x₃ y₃ : R}

/-- The third point of a tangent satisfies the equation. Nothing is divided by, so any ring of
characteristic two will do. -/
theorem equation_tangent (h2 : (2 : R) = 0) (h : y ^ 2 + x * y = x ^ 3 + a * x ^ 2 + b)
    (hl : l * x = x ^ 2 + y) (hx₃ : x₃ = l ^ 2 + l + a) (hy₃ : y₃ = x ^ 2 + l * x₃ + x₃) :
    y₃ ^ 2 + x₃ * y₃ = x₃ ^ 3 + a * x₃ ^ 2 + b := by
  -- The point itself determines `b`, and then the equation is an identity in `l`, `x` and `a`.
  have hb : b = x ^ 4 + x ^ 2 * x₃ := by
    subst hx₃
    grind
  subst hy₃ hb hx₃
  grind

/-- The third point of a chord satisfies the equation, if the difference of the abscissas is a
unit. -/
theorem equation_chord (h2 : (2 : R) = 0) (h₁ : y₁ ^ 2 + x₁ * y₁ = x₁ ^ 3 + a * x₁ ^ 2 + b)
    (h₂ : y₂ ^ 2 + x₂ * y₂ = x₂ ^ 3 + a * x₂ ^ 2 + b) (hunit : IsUnit (x₁ + x₂))
    (hl : l * (x₁ + x₂) = y₁ + y₂) (hx₃ : x₃ = l ^ 2 + l + a + (x₁ + x₂))
    (hy₃ : y₃ = l * (x₁ + x₃) + x₃ + y₁) :
    y₃ ^ 2 + x₃ * y₃ = x₃ ^ 3 + a * x₃ ^ 2 + b := by
  have hy₂ : y₂ = l * (x₁ + x₂) + y₁ := by linear_combination -hl - y₁ * h2
  -- Both abscissas are zeros of the cubic of the line, so that its difference quotient vanishes.
  have hquotient : x₁ ^ 2 + x₁ * x₂ + x₂ ^ 2 + (l ^ 2 + l + a) * (x₁ + x₂) + (l * x₁ + y₁) = 0 := by
    refine hunit.mul_left_cancel ?_
    subst hy₂
    clear hl hx₃ hy₃ hunit
    grind
  subst hy₃ hx₃
  clear hl hunit h₂ hy₂
  grind

end Lines

/-! ## Operations -/

theorem onCurve_double (hc : c.Reduced) {p : Point} (hp : c.OnCurve p) :
    c.OnCurve (c.double p) := by
  cases p with
  | infinity => trivial
  | affine x y =>
    obtain ⟨hx, -, h⟩ := (contains_iff_residue hc).mp hp
    cases hdiv : c.field.div? y x with
    | none => simp only [double, hdiv, OnCurve]
    | some w =>
      obtain ⟨-, -, -, hw⟩ := BinaryField.residue_of_div? hdiv
      refine (hasResidues_double hc hx hdiv rfl rfl).onCurve hc ?_
      refine equation_tangent BinaryField.two_eq_zero h ?_ rfl rfl
      rw [add_mul, hw, sq]

/-- A sum is on the curve; it is infinity for opposite points and where the slope cannot be
computed. -/
theorem onCurve_add (hc : c.Reduced) {p q : Point} (hp : c.OnCurve p) (hq : c.OnCurve q) :
    c.OnCurve (c.add p q) := by
  cases p with
  | infinity => exact hq
  | affine x₁ y₁ =>
    cases q with
    | infinity => exact hp
    | affine x₂ y₂ =>
      obtain ⟨hx₁, hy₁, h₁⟩ := (contains_iff_residue hc).mp hp
      obtain ⟨hx₂, -, h₂⟩ := (contains_iff_residue hc).mp hq
      by_cases hx : x₁ = x₂
      · simp only [add, if_pos hx]
        split
        · exact onCurve_double hc hp
        · trivial
      · cases hdiv : c.field.div? (y₁ ^^^ y₂) (x₁ ^^^ x₂) with
        | none => simp only [add, if_neg hx, hdiv, OnCurve]
        | some w =>
          obtain ⟨r, -, hr, hw⟩ := BinaryField.residue_of_div? hdiv
          rw [BinaryField.residue_xor x₁] at hr hw
          rw [BinaryField.residue_xor] at hw
          -- The slope was found, so its denominator has an inverse.
          refine (hasResidues_add hc hx₁ hy₁ hx₂ hx hdiv rfl rfl).onCurve hc ?_
          exact equation_chord BinaryField.two_eq_zero h₁ h₂ (.of_mul_eq_one_right _ hr) hw rfl rfl

theorem onCurve_negate (hc : c.Reduced) {p : Point} (hp : c.OnCurve p) :
    c.OnCurve (negate p) := by
  cases p with
  | infinity => trivial
  | affine x y =>
    obtain ⟨hx, hy, h⟩ := (contains_iff_residue hc).mp hp
    refine (contains_iff_residue hc).mpr ⟨hx, bitLength_xor_le hx hy, ?_⟩
    rw [← h, BinaryField.residue_xor]
    linear_combination (c.field.residue x ^ 2 + c.field.residue x * c.field.residue y)
      * BinaryField.two_eq_zero (f := c.field)

theorem onCurve_multiply (hc : c.Reduced) {p : Point} (hp : c.OnCurve p) (k : Nat) :
    c.OnCurve (c.multiply p k) := by
  fun_induction multiply c p k with
  | case1 => trivial
  | case2 k _ doubled _ ih => exact onCurve_add hc (onCurve_double hc ih) hp
  | case3 k _ doubled _ ih => exact onCurve_double hc ih

/-! ## The equation of the curve -/

/-- The point is infinity, or its coordinates are polynomials of degree below `m` that satisfy the
equation with the coefficients `a` and `b` modulo the modulus. -/
def SolvesEquation (m : Nat) (basis : Basis) (a b : Nat) : Point → Prop
  | .infinity => True
  | .affine x y => (toPolynomial x).degree < m ∧ (toPolynomial y).degree < m ∧
      basis.modulus m ∣ (toPolynomial y ^ 2 + toPolynomial x * toPolynomial y) -
        (toPolynomial x ^ 3 + toPolynomial a * toPolynomial x ^ 2 + toPolynomial b)

/-- A curve that was built from any coefficients is the curve of these coefficients modulo the
modulus. -/
theorem onCurve_ofBasis_iff {m : Nat} {basis : Basis} (hbasis : ∀ k ∈ basis.exponents, k ≤ m)
    {a b : Nat} {p : Point} :
    (ofBasis m basis a b).OnCurve p ↔ SolvesEquation m basis a b p := by
  cases p with
  | infinity => exact Iff.rfl
  | affine x y =>
    have ha := BinaryField.residue_reduce (f := BinaryField.ofBasis m basis) a
    have hb := BinaryField.residue_reduce (f := BinaryField.ofBasis m basis) b
    rw [OnCurve, contains_iff_residue (reduced_ofBasis hbasis a b), SolvesEquation,
      degree_toPolynomial_lt_iff, degree_toPolynomial_lt_iff,
      ← BinaryField.polynomial_ofBasis_eq_modulus, ← AdjoinRoot.mk_eq_zero]
    refine and_congr_right fun _ => and_congr_right fun _ => ?_
    simp only [ofBasis, ha, hb]
    simp only [map_sub, map_add, map_mul, map_pow]
    exact sub_eq_zero.symm

/-- **Closure.** No operation leads from points of the curve to anything but a point of the curve,
whether the modulus is irreducible or not. -/
theorem solvesEquation_operations {m : Nat} {basis : Basis}
    (hbasis : ∀ k ∈ basis.exponents, k ≤ m) {a b : Nat} {p q : Point}
    (hp : SolvesEquation m basis a b p) (hq : SolvesEquation m basis a b q) :
    let c := ofBasis m basis a b
    SolvesEquation m basis a b (c.add p q) ∧ SolvesEquation m basis a b (c.double p) ∧
      SolvesEquation m basis a b (negate p) ∧ ∀ k, SolvesEquation m basis a b (c.multiply p k) := by
  have hc := reduced_ofBasis hbasis a b
  simp only [← onCurve_ofBasis_iff hbasis] at hp hq ⊢
  exact ⟨onCurve_add hc hp hq, onCurve_double hc hp, onCurve_negate hc hp, onCurve_multiply hc hp⟩

/-- Points over `z⁴ + 1 = (z + 1)⁴`, where they are no group: `4 * (1, 6)` is infinity, but
`7 * (1, 6)` is not `3 * (1, 6)`. -/
theorem solvesEquation_operations_fourthPower :
    let c := ofBasis 4 (.trinomial 4) 17 19
    let Solves := SolvesEquation 4 (.trinomial 4) 17 19
    (Solves (.affine 1 6) ∧ Solves (.affine 3 4)) ∧
      (c.add (.affine 1 6) (.affine 3 4) = .affine 2 7 ∧ Solves (.affine 2 7)) ∧
      (c.multiply (.affine 1 6) 4 = .infinity ∧ c.multiply (.affine 1 6) 3 = .affine 13 7) ∧
      c.multiply (.affine 1 6) 7 = .affine 4 8 ∧ Solves (.affine 4 8) := by
  intro c Solves
  have hbasis : ∀ k ∈ (Basis.trinomial 4).exponents, k ≤ 4 := by decide
  have hon (x y : Nat) (h : c.contains x y = true) : Solves (.affine x y) :=
    (onCurve_ofBasis_iff hbasis).mp h
  have hp := hon 1 6 (by decide +kernel)
  have hq := hon 3 4 (by decide +kernel)
  have hsum : c.add (.affine 1 6) (.affine 3 4) = .affine 2 7 := by decide +kernel
  have hseven : c.multiply (.affine 1 6) 7 = .affine 4 8 := by decide +kernel
  obtain ⟨hadd, -, -, hmultiply⟩ := solvesEquation_operations hbasis hp hq
  exact ⟨⟨hp, hq⟩, ⟨hsum, hsum ▸ hadd⟩, by decide +kernel, hseven, hseven ▸ hmultiply 7⟩

end SigmaProtocol.BinaryCurve
