import SigmaProtocol.Proofs.Curve.Prime

/-!
# Multiples without divisions

The triple `(X, Y, Z)` with `Z ≠ 0` stands for the point `(X / Z², Y / Z³)`. Doubling a triple and
adding a point to it need no division, and a step that has no such result gives `Z = 0`, from which
no later step recovers. So a single look at the last triple shows that no step failed, and a
multiple of a point of a large curve can be computed in a proof.

* `Jacobian.order_smul_image`: one more than a multiple that comes out as the opposite of the point
  takes it to infinity.
-/

namespace SigmaProtocol.PrimeCurve

open WeierstrassCurve

/-- The coordinates of a point with a common denominator. -/
structure Jacobian where
  x : Nat
  y : Nat
  z : Nat

namespace Jacobian

/-- The double of a point. -/
def double (c : PrimeCurve) (t : Jacobian) : Jacobian :=
  let s := 4 * t.x * t.y ^ 2
  let m := 3 * t.x ^ 2 + c.a * t.z ^ 4
  let x := subMod (m * m) (2 * s) c.p
  ⟨x, subMod (m * subMod s x c.p) (8 * t.y ^ 4) c.p, 2 * t.y * t.z % c.p⟩

/-- The sum of a point and the affine point `(x, y)`. -/
def addAffine (c : PrimeCurve) (x y : Nat) (t : Jacobian) : Jacobian :=
  let h := subMod (x * t.z ^ 2) t.x c.p
  let r := subMod (y * t.z ^ 3) t.y c.p
  let v := t.x * h ^ 2
  let x' := subMod (r * r) (h ^ 3 + 2 * v) c.p
  ⟨x', subMod (r * subMod v x' c.p) (t.y * h ^ 3) c.p, t.z * h % c.p⟩

/-- Doubles for each of the low `count` binary digits of `exponent`, most significant one first, and
adds `(x, y)` where the digit is one. -/
def multiply (c : PrimeCurve) (x y exponent : Nat) : (count : Nat) → Jacobian → Jacobian
  | 0, t => t
  | count + 1, t =>
    let doubled := t.double c
    multiply c x y exponent count
      (if exponent.testBit count then doubled.addAffine c x y else doubled)

/-- Whether a triple is the opposite of the affine point `(x, y)`. -/
def isOpposite (c : PrimeCurve) (x y : Nat) (t : Jacobian) : Bool :=
  t.z % c.p != 0 && t.x % c.p == x * t.z ^ 2 % c.p && (t.y + y * t.z ^ 3) % c.p == 0

variable {c : PrimeCurve} [hp : Fact c.p.Prime]

/-- The triple stands for `P`, unless a step failed. -/
def Represents (t : Jacobian) (P : c.weierstrass.Point) : Prop :=
  (t.z : ZMod c.p) ≠ 0 → ∃ x y h, P = .some x y h ∧ (t.x : ZMod c.p) = x * t.z ^ 2 ∧
    (t.y : ZMod c.p) = y * t.z ^ 3

/-- Doubling a triple doubles its point. Where `2 y` is zero the new `Z` is zero, and nothing is
claimed. -/
theorem represents_double {t : Jacobian} {P : c.weierstrass.Point} (ht : t.Represents P) :
    (t.double c).Represents (P + P) := by
  have hpos := hp.out.pos
  intro hz
  simp only [double, ZMod.natCast_mod, Nat.cast_mul] at hz
  obtain ⟨x, y, h, rfl, hx, hy⟩ := ht (right_ne_zero_of_mul hz)
  have h2y : 2 * y ≠ 0 := by
    intro h0
    refine left_ne_zero_of_mul hz ?_
    rw [hy]
    linear_combination (t.z : ZMod c.p) ^ 3 * h0
  have hne : y ≠ c.weierstrass.negY x y := by
    rwa [negY_eq_neg, Ne, eq_neg_iff_add_eq_zero, ← two_mul]
  have hslope := Affine.slope_of_Y_ne (W := c.weierstrass) rfl hne
  refine ⟨_, _, _, Affine.Point.add_self_of_Y_ne hne, ?_⟩
  -- The coefficient `a` is eliminated by the slope: what is left holds in any commutative ring.
  generalize c.weierstrass.slope x x y y = l at hslope ⊢
  have ha : (c.a : ZMod c.p) = l * (2 * y) - 3 * x ^ 2 := by
    rw [negY_eq_neg, sub_neg_eq_add, ← two_mul, eq_div_iff h2y] at hslope
    rw [hslope]
    simp only [weierstrass]
    ring
  simp only [double, natCast_subMod hpos, ZMod.natCast_mod, Nat.cast_mul, Nat.cast_add,
    Nat.cast_pow, Nat.cast_ofNat, Affine.addX, Affine.addY, Affine.negAddY, negY_eq_neg, hx, hy, ha]
  simp only [weierstrass]
  exact ⟨by ring, by ring⟩

theorem represents_addAffine {x₂ y₂ : Nat} {t : Jacobian} {P : c.weierstrass.Point}
    (h₂ : c.weierstrass.Nonsingular (x₂ : ZMod c.p) y₂) (ht : t.Represents P) :
    (t.addAffine c x₂ y₂).Represents (P + .some _ _ h₂) := by
  have hpos := hp.out.pos
  intro hz
  simp only [addAffine, ZMod.natCast_mod, Nat.cast_mul] at hz
  obtain ⟨x, y, h, rfl, hx, hy⟩ := ht (left_ne_zero_of_mul hz)
  have hne : x ≠ x₂ := by
    rintro rfl
    refine right_ne_zero_of_mul hz ?_
    rw [natCast_subMod hpos, hx]
    push_cast
    ring
  have hslope : c.weierstrass.slope x x₂ y y₂ = (y - y₂) / (x - x₂) := Affine.slope_of_X_ne hne
  refine ⟨_, _, _, Affine.Point.add_of_X_ne hne, ?_⟩
  -- So is `y₂` here.
  generalize c.weierstrass.slope x x₂ y y₂ = l at hslope ⊢
  have hy₂ : (y₂ : ZMod c.p) = y - l * (x - x₂) := by
    rw [eq_div_iff (sub_ne_zero.mpr hne)] at hslope
    rw [hslope]
    ring
  simp only [addAffine, natCast_subMod hpos, ZMod.natCast_mod, Nat.cast_mul, Nat.cast_add,
    Nat.cast_pow, Nat.cast_ofNat, Affine.addX, Affine.addY, Affine.negAddY, negY_eq_neg, hx, hy,
    hy₂]
  simp only [weierstrass]
  exact ⟨by ring, by ring⟩

/-- Taking up the digits keeps a triple a multiple of the point. -/
theorem represents_multiply {x y : Nat} (h : c.weierstrass.Nonsingular (x : ZMod c.p) y)
    (exponent count : Nat) {k : Nat} {t : Jacobian} (ht : t.Represents (k • .some _ _ h)) :
    (multiply c x y exponent count t).Represents
      ((2 ^ count * k + exponent % 2 ^ count) • .some _ _ h) := by
  induction count generalizing k t with
  | zero => simpa [multiply, Nat.mod_one] using ht
  | succ count ih =>
    have hdouble := represents_double ht
    rw [← add_smul] at hdouble
    rw [multiply, mod_two_pow_succ]
    split
    · have hadd := represents_addAffine h hdouble
      rw [← succ_nsmul] at hadd
      convert ih hadd using 2
      ring
    · convert ih hdouble using 2
      ring

/-- The last triple has `Z ≠ 0`, so that no step has failed and the triple is a multiple; being the
opposite of the point, it says that one more takes it to infinity. -/
theorem order_smul_image (hc : c.Smooth) {x y : Nat} (hon : (embedding hc).On (.affine x y))
    {exponent count : Nat}
    (hopposite : isOpposite c x y (multiply c x y exponent count ⟨x, y, 1⟩) = true) :
    (2 ^ count + exponent % 2 ^ count + 1) • (embedding hc).image (.affine x y) = 0 := by
  have h : c.weierstrass.Nonsingular (x : ZMod c.p) y :=
    Chart.nonsingular (C := chart c) (discriminant_ne_zero hc) hon
  have himage : (embedding hc).image (.affine x y) = .some _ _ h :=
    Chart.toPoint_affine (C := chart c) h
  have hone : Represents ⟨x, y, 1⟩ (1 • Affine.Point.some _ _ h) := by
    intro _
    exact ⟨x, y, h, one_smul .., by simp, by simp⟩
  have ht := represents_multiply h exponent count hone
  generalize multiply c x y exponent count ⟨x, y, 1⟩ = t at ht hopposite
  simp only [isOpposite, Bool.and_eq_true, bne_iff_ne, beq_iff_eq, ← ZMod.natCast_eq_natCast_iff',
    ← Nat.dvd_iff_mod_eq_zero, ← ZMod.natCast_eq_zero_iff, ne_eq, Nat.cast_add, Nat.cast_mul,
    Nat.cast_pow] at hopposite
  obtain ⟨⟨hz, hx⟩, hy⟩ := hopposite
  obtain ⟨x', y', h', hP, hx', hy'⟩ := ht hz
  have hxx : x' = x := mul_right_cancel₀ (pow_ne_zero 2 hz) (hx'.symm.trans hx)
  have hyy : y' = -y := by
    refine mul_right_cancel₀ (pow_ne_zero 3 hz) ?_
    linear_combination hy - hy'
  rw [mul_one] at hP
  rw [himage, succ_nsmul, hP, ← eq_neg_iff_add_eq_zero, Affine.Point.neg_some,
    Affine.Point.some.injEq, negY_eq_neg]
  exact ⟨hxx, hyy⟩

end Jacobian

end SigmaProtocol.PrimeCurve
