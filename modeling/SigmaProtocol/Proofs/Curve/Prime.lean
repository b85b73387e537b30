import SigmaProtocol.Curve.Prime
import SigmaProtocol.Proofs.Curve.Weierstrass
import SigmaProtocol.Proofs.Modular

/-!
# The group of a curve over a prime field

The residues modulo an odd prime are a field, and `y² = x³ + ax + b` is a Weierstrass curve, without
singular points if `4a³ + 27b²` is not zero. The formulas of addition and doubling are those of
chord and tangent.

* `PrimeCurve.embedding`: the points of the curve as a commutative group.
* `PrimeCurve.image_multiply`: double-and-add computes a multiple.
* `PrimeCurve.natCard_point_le`: there are at most two points for each abscissa, and infinity.
-/

namespace SigmaProtocol.PrimeCurve

open WeierstrassCurve

/-- The modulus is an odd prime, and the curve has no singular point. -/
structure Smooth (c : PrimeCurve) : Prop where
  prime : c.p.Prime
  two_lt_p : 2 < c.p
  not_dvd : ¬ c.p ∣ 4 * c.a ^ 3 + 27 * c.b ^ 2

/-- The curve over the residues. -/
noncomputable def weierstrass (c : PrimeCurve) : Affine (ZMod c.p) := ⟨0, 0, 0, c.a, c.b⟩

variable {c : PrimeCurve}

theorem contains_iff {x y : Nat} :
    c.contains x y = true ↔
      x < c.p ∧ y < c.p ∧ c.weierstrass.Equation (x : ZMod c.p) (y : ZMod c.p) := by
  simp only [contains, rightSide, Bool.and_eq_true, decide_eq_true_eq, beq_iff_eq, and_assoc]
  refine and_congr_right fun _ => and_congr_right fun _ => ?_
  rw [← ZMod.natCast_eq_natCast_iff', Affine.equation_iff]
  simp only [weierstrass, Nat.cast_add, Nat.cast_mul, ZMod.natCast_mod]
  ring_nf

theorem negY_eq_neg (x y : ZMod c.p) : c.weierstrass.negY x y = -y := by
  simp [weierstrass, Affine.negY]

theorem two_ne_zero (hc : c.Smooth) : (2 : ZMod c.p) ≠ 0 := by
  intro h
  have hdvd : c.p ∣ 2 := (ZMod.natCast_eq_zero_iff 2 c.p).mp (by exact_mod_cast h)
  exact absurd (Nat.le_of_dvd two_pos hdvd) (by have := hc.two_lt_p; omega)

/-- Up to a power of two and a sign the discriminant is `4 a³ + 27 b²`. -/
theorem discriminant_ne_zero [Fact c.p.Prime] (hc : c.Smooth) : c.weierstrass.Δ ≠ 0 := by
  have hΔ : c.weierstrass.Δ = -(2 ^ 4 * (4 * c.a ^ 3 + 27 * c.b ^ 2)) := by
    simp only [WeierstrassCurve.Δ, WeierstrassCurve.b₂, WeierstrassCurve.b₄,
      WeierstrassCurve.b₆, WeierstrassCurve.b₈, weierstrass]
    ring
  rw [hΔ, neg_ne_zero]
  refine mul_ne_zero (pow_ne_zero 4 (two_ne_zero hc)) fun h => hc.not_dvd ?_
  rw [← ZMod.natCast_eq_zero_iff]
  exact_mod_cast h

theorem double_eq_add (p : Point) : c.double p = c.add p p := by
  cases p with
  | infinity => rfl
  | affine x y => simp only [add, if_true]

section Group

variable [hp : Fact c.p.Prime]

/-- Coordinates are the residues. -/
def chart (c : PrimeCurve) [Fact c.p.Prime] : Chart (ZMod c.p) where
  Coordinate v := v < c.p
  value v := v
  value_injective := natCast_inj_of_lt

theorem on_iff {p : Point} : (chart c).On c.weierstrass p ↔ c.hasPoint p = true := by
  cases p with
  | infinity => exact iff_of_true trivial rfl
  | affine x y => exact contains_iff.symm

/-- The third point of a line with the right slope, reflected, is the sum. -/
theorem isSum_reflect {slope x₁ y₁ x₂ y₂ : Nat}
    (hopposite : ¬ (chart c).Opposite c.weierstrass x₁ y₁ x₂ y₂)
    (hslope : (slope : ZMod c.p) = c.weierstrass.slope (x₁ : ZMod c.p) x₂ y₁ y₂) :
    (chart c).IsSum c.weierstrass x₁ y₁ x₂ y₂ (c.reflect slope x₁ y₁ x₂) := by
  have hpos := hp.out.pos
  refine ⟨hopposite, subMod_lt hpos _ _, subMod_lt hpos _ _, ?_, ?_⟩
  · simp only [chart, natCast_subMod hpos, Affine.addX]
    rw [← hslope]
    simp only [weierstrass]
    push_cast
    ring
  · simp only [chart, natCast_subMod hpos, Affine.addY, Affine.negAddY, Affine.negY, Affine.addX,
      Nat.cast_mul]
    rw [← hslope]
    simp only [weierstrass]
    push_cast
    ring

/-- The slope of the tangent is missing only where `2 y` is zero, and there the point is its own
opposite. -/
theorem isSum_double (x y : Nat) :
    (chart c).IsSum c.weierstrass x y x y (c.double (.affine x y)) := by
  rcases inverse?_cases (2 * y) c.p with ⟨hzero, hinverse⟩ | ⟨v, hne, hinverse, hv⟩
  · simp only [double, hinverse]
    refine ⟨rfl, ?_⟩
    show (y : ZMod c.p) = c.weierstrass.negY (x : ZMod c.p) y
    rw [negY_eq_neg, eq_neg_iff_add_eq_zero, ← two_mul]
    exact_mod_cast hzero
  · have hy : (y : ZMod c.p) ≠ c.weierstrass.negY (x : ZMod c.p) y := by
      rw [negY_eq_neg, Ne, eq_neg_iff_add_eq_zero, ← two_mul]
      exact_mod_cast hne
    simp only [double, hinverse]
    refine isSum_reflect (fun h => hy h.2) ?_
    rw [Affine.slope_of_Y_ne rfl hy, negY_eq_neg, ZMod.natCast_mod, Nat.cast_mul, hv,
      div_eq_mul_inv]
    simp only [weierstrass]
    push_cast
    ring

/-- Addition follows the addition law, with the slope's sign taken off both differences. -/
theorem isSum_add {x₁ y₁ x₂ y₂ : Nat}
    (h₁ : (chart c).On c.weierstrass (.affine x₁ y₁))
    (h₂ : (chart c).On c.weierstrass (.affine x₂ y₂)) :
    (chart c).IsSum c.weierstrass x₁ y₁ x₂ y₂ (c.add (.affine x₁ y₁) (.affine x₂ y₂)) := by
  have hpos := hp.out.pos
  by_cases hx : x₁ = x₂
  · subst hx
    by_cases hy : y₁ = y₂
    · subst hy
      simp only [add, if_true]
      exact isSum_double x₁ y₁
    · simp only [add, if_true, if_neg hy]
      have hne : (y₁ : ZMod c.p) ≠ y₂ := fun h => hy (natCast_inj_of_lt h₁.2.1 h₂.2.1 h)
      exact ⟨rfl, (Affine.Y_eq_of_X_eq h₁.2.2 h₂.2.2 rfl).resolve_left hne⟩
  · have hne : (x₁ : ZMod c.p) ≠ x₂ := fun h => hx (natCast_inj_of_lt h₁.1 h₂.1 h)
    rcases inverse?_cases (subMod x₂ x₁ c.p) c.p with ⟨hzero, -⟩ | ⟨v, -, hinverse, hv⟩
    · rw [natCast_subMod hpos, sub_eq_zero] at hzero
      exact absurd hzero.symm hne
    · simp only [add, if_neg hx, hinverse]
      refine isSum_reflect (fun h => hne h.1) ?_
      rw [natCast_subMod hpos] at hv
      rw [Affine.slope_of_X_ne hne, ZMod.natCast_mod, Nat.cast_mul, hv, natCast_subMod hpos,
        ← div_eq_mul_inv, ← neg_sub (y₁ : ZMod c.p), ← neg_sub (x₁ : ZMod c.p), neg_div_neg_eq]

/-- The points of the curve as a commutative group. -/
noncomputable def embedding (hc : c.Smooth) : PointEmbedding c.weierstrass.Point :=
  Chart.embedding (C := chart c) (discriminant_ne_zero hc) c.add (fun _ => rfl)
    (fun p => by cases p <;> rfl) isSum_add

theorem image_multiply (hc : c.Smooth) {p : Point} (hon : (embedding hc).On p) (k : Nat) :
    (embedding hc).On (c.multiply p k) ∧
      (embedding hc).image (c.multiply p k) = k • (embedding hc).image p :=
  (embedding hc).image_of_halving hon (fun _ => double_eq_add _) (by rw [multiply, if_pos rfl])
    (fun k hk => by rw [multiply, if_neg hk]; rfl) k

/-! ## The number of points -/

/-- The abscissa of a point and the parity of its ordinate. -/
def compress : c.weierstrass.Point → Option (ZMod c.p × Bool)
  | .zero => none
  | .some x y _ => some (x, y.val % 2 == 1)

/-- Modulo an odd number opposite residues have different parities. -/
theorem eq_neg_of_parity (hodd : c.p % 2 = 1) {y : ZMod c.p}
    (h : (y.val % 2 == 1) = ((-y).val % 2 == 1)) : -y = y := by
  have : NeZero c.p := ⟨by omega⟩
  by_cases hy : y = 0
  · rw [hy, neg_zero]
  · have hlt := ZMod.val_lt y
    have hne : y.val ≠ 0 := (ZMod.val_ne_zero y).mpr hy
    rw [ZMod.neg_val, if_neg hy] at h
    grind

theorem compress_injective (hodd : c.p % 2 = 1) : Function.Injective (compress (c := c)) := by
  rintro (_ | ⟨x₁, y₁, h₁⟩) (_ | ⟨x₂, y₂, h₂⟩) h
  · rfl
  · cases h
  · cases h
  · simp only [compress, Option.some.injEq, Prod.mk.injEq] at h
    obtain ⟨rfl, hparity⟩ := h
    rcases Affine.Y_eq_of_X_eq h₁.1 h₂.1 rfl with rfl | hy
    · rfl
    · rw [negY_eq_neg] at hy
      subst hy
      congr 1
      exact eq_neg_of_parity hodd hparity.symm

/-- There are at most two points for each abscissa, and infinity. That is a crude bound, but it is
enough to pin down a group order that is a prime of about the size of `p`. -/
theorem natCard_point_le (hodd : c.p % 2 = 1) :
    Finite c.weierstrass.Point ∧ Nat.card c.weierstrass.Point ≤ 2 * c.p + 1 := by
  have : NeZero c.p := ⟨by omega⟩
  refine ⟨Finite.of_injective _ (compress_injective hodd), ?_⟩
  have hle := Nat.card_le_card_of_injective _ (compress_injective hodd)
  have hcard : Nat.card (Option (ZMod c.p × Bool)) = 2 * c.p + 1 := by
    rw [Finite.card_option, Nat.card_prod, Nat.card_zmod, Nat.card_eq_fintype_card (α := Bool),
      Fintype.card_bool, Nat.mul_comm]
  rwa [hcard] at hle

end Group

end SigmaProtocol.PrimeCurve
