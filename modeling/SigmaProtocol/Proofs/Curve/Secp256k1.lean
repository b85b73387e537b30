import SigmaProtocol.Group.Secp256k1
import SigmaProtocol.Proofs.Curve.Jacobian
import SigmaProtocol.Proofs.Primality

/-!
# The curve secp256k1

The modulus is prime, which a chain of Lucas tests shows down to factors that trial division
decides; `4a³ + 27b² = 1323` is not a multiple of it.

* `Secp256k1.smooth`: the points of the curve are a group.
* `Secp256k1.order_smul`: the order of the parameters takes every point to infinity.
-/

namespace SigmaProtocol.Secp256k1

open WeierstrassCurve

/-! ## The modulus -/

/-- The tests for the modulus. -/
def modulusTests : List PrimeTest := [
  ⟨curve.p, 3, [2, 3, 7, 13441,
    205115282021455665897114700593932402728804164701536103180137503955397371]⟩,
  ⟨205115282021455665897114700593932402728804164701536103180137503955397371, 10, [2, 3, 5, 29, 29,
    31, 7723, 132896956044521568488119, 255515944373312847190720520512484175977]⟩,
  ⟨132896956044521568488119, 6, [2, 3, 22149492674086928081353]⟩,
  ⟨22149492674086928081353, 5, [2, 2, 2, 3, 5323, 173378833005251801]⟩,
  ⟨173378833005251801, 6, [2, 2, 2, 5, 5, 2621, 24809, 13331831]⟩,
  ⟨13331831, 13, [2, 5, 971, 1373]⟩,
  ⟨255515944373312847190720520512484175977, 3, [2, 2, 2, 7, 7, 11, 1627, 2657, 4423, 41201, 96557,
    7240687, 107590001]⟩,
  ⟨96557, 2, [2, 2, 101, 239]⟩,
  ⟨7240687, 3, [2, 3, 1206781]⟩,
  ⟨1206781, 10, [2, 2, 3, 5, 20113]⟩,
  ⟨107590001, 3, [2, 2, 2, 2, 5, 5, 5, 5, 7, 29, 53]⟩]

/-- The modulus passes, and so do the factors that are too large for trial division. -/
theorem prime_modulus : curve.p.Prime :=
  have h : PrimeTest.chain modulusTests = true := by decide +kernel
  PrimeTest.prime_of_chain h _ (List.mem_cons_self ..)

instance : Fact curve.p.Prime := ⟨prime_modulus⟩

theorem smooth : curve.Smooth where
  prime := prime_modulus
  two_lt_p := by decide
  not_dvd := by decide +kernel

/-! ## The order -/

/-- The tests for the order. -/
def orderTests : List PrimeTest := [
  ⟨params.order, 7, [2, 2, 2, 2, 2, 2, 3, 149, 631, 107361793816595537, 174723607534414371449,
    341948486974166000522343609283189]⟩,
  ⟨341948486974166000522343609283189, 2, [2, 2, 3, 3, 3, 109, 29047611873442575647497758179]⟩,
  ⟨29047611873442575647497758179, 2, [2, 293, 305873, 545358713, 297159362677]⟩,
  ⟨297159362677, 2, [2, 2, 3, 3, 11, 461, 1627771]⟩,
  ⟨305873, 3, [2, 2, 2, 2, 7, 2731]⟩,
  ⟨1627771, 3, [2, 3, 5, 29, 1871]⟩,
  ⟨545358713, 5, [2, 2, 2, 41, 59, 28181]⟩,
  ⟨174723607534414371449, 3, [2, 2, 2, 17, 59, 4051, 120233, 44706919]⟩,
  ⟨120233, 3, [2, 2, 2, 7, 19, 113]⟩,
  ⟨44706919, 6, [2, 3, 797, 9349]⟩,
  ⟨107361793816595537, 3, [2, 2, 2, 2, 16699, 85831, 4681609]⟩,
  ⟨85831, 3, [2, 3, 5, 2861]⟩,
  ⟨4681609, 23, [2, 2, 2, 3, 97, 2011]⟩]

theorem prime_order : params.order.Prime :=
  have h : PrimeTest.chain orderTests = true := by decide +kernel
  PrimeTest.prime_of_chain h _ (List.mem_cons_self ..)

/-- The generator of the parameters. -/
def generator : Point := .affine params.generatorX params.generatorY

theorem hasPoint_generator : curve.hasPoint generator = true := by decide +kernel

theorem on_generator : (PrimeCurve.embedding smooth).On generator :=
  PrimeCurve.on_iff.mpr hasPoint_generator

/-- The multiple by one less than the order comes out as the opposite of the generator. -/
theorem order_smul_generator :
    params.order • (PrimeCurve.embedding smooth).image generator = 0 := by
  have hopposite : PrimeCurve.Jacobian.isOpposite curve params.generatorX params.generatorY
      (.multiply curve params.generatorX params.generatorY (params.order - 1) 255
        ⟨params.generatorX, params.generatorY, 1⟩) = true := by decide +kernel
  have horder : 2 ^ 255 + (params.order - 1) % 2 ^ 255 + 1 = params.order := by decide +kernel
  have hkilled := PrimeCurve.Jacobian.order_smul_image smooth on_generator hopposite
  rwa [horder] at hkilled

/-- No point is its own opposite: `-7` would be the cube of its abscissa. -/
theorem eq_zero_of_two_smul {P : curve.weierstrass.Point} (h : 2 • P = 0) : P = 0 := by
  have hcube : ((curve.p - 7 : Nat) : ZMod curve.p) ^ ((curve.p - 1) / 3) ≠ 1 := by
    rw [Ne, natCast_pow_eq_one_iff (by decide)]
    decide +kernel
  obtain _ | ⟨x, y, hxy⟩ := P
  · rfl
  · exfalso
    rw [two_nsmul, ← eq_neg_iff_add_eq_zero, Affine.Point.neg_some, Affine.Point.some.injEq,
      PrimeCurve.negY_eq_neg, eq_neg_iff_add_eq_zero, ← two_mul] at h
    have hy : y = 0 := (mul_eq_zero.mp h.2).resolve_left (PrimeCurve.two_ne_zero smooth)
    have heq := (Affine.equation_iff _ _).mp hxy.1
    have hseven : ((curve.p - 7 : Nat) : ZMod curve.p) = -7 := by
      rw [Nat.cast_sub (by decide), ZMod.natCast_self, zero_sub, Nat.cast_ofNat]
    -- A point with the ordinate zero has `x ^ 3 = -7`. As `3` divides `p - 1`, the power of `-7` to
    -- `(p - 1) / 3` would be `x ^ (p - 1) = 1`.
    have hx : x ^ 3 = -7 := by
      simp only [PrimeCurve.weierstrass, show curve.a = 0 from rfl, show curve.b = 7 from rfl, hy,
        Nat.cast_zero, Nat.cast_ofNat] at heq
      linear_combination -heq
    have hx0 : x ≠ 0 := by
      rintro rfl
      have hzero : ((7 : Nat) : ZMod curve.p) = 0 := by linear_combination hx
      exact absurd ((ZMod.natCast_eq_zero_iff 7 curve.p).mp hzero) (by decide)
    have hthird : 3 * ((curve.p - 1) / 3) = curve.p - 1 := by decide
    rw [hseven, ← hx, ← pow_mul, hthird] at hcube
    exact hcube (ZMod.pow_card_sub_one_eq_one hx0)

/-- Every point is killed by the order. -/
theorem order_smul (P : curve.weierstrass.Point) : params.order • P = 0 := by
  have : Fact params.order.Prime := ⟨prime_order⟩
  let E := PrimeCurve.embedding smooth
  obtain ⟨hfinite, hle⟩ := PrimeCurve.natCard_point_le (c := curve) (by decide)
  have hne : E.image generator ≠ 0 := by
    rw [Ne, ← E.eq_infinity_iff on_generator]
    exact Point.noConfusion
  -- The number of points is a multiple of the order, odd, and less than three times the order.
  have hdvd : params.order ∣ Nat.card curve.weierstrass.Point := by
    rw [← addOrderOf_eq_prime order_smul_generator hne]
    exact addOrderOf_dvd_natCard _
  have hodd : ¬ 2 ∣ Nat.card curve.weierstrass.Point := by
    intro h2
    obtain ⟨Q, hQ⟩ := exists_prime_addOrderOf_dvd_card' 2 h2
    have := eq_zero_of_two_smul (P := Q) (by rw [← hQ]; exact addOrderOf_nsmul_eq_zero Q)
    rw [this, addOrderOf_zero] at hQ
    exact absurd hQ (by decide)
  have hcard : Nat.card curve.weierstrass.Point = params.order := by
    obtain ⟨k, hk⟩ := hdvd
    have hpos := Nat.card_pos (α := curve.weierstrass.Point)
    have hbound : 2 * curve.p + 1 < params.order * 3 := by decide
    rw [hk] at hle hodd hpos ⊢
    have hk3 : k < 3 := Nat.lt_of_mul_lt_mul_left (lt_of_le_of_lt hle hbound)
    interval_cases k
    · exact absurd hpos (lt_irrefl 0)
    · exact Nat.mul_one _
    · exact absurd (Nat.dvd_mul_left 2 _) hodd
  rw [← hcard]
  exact card_nsmul_eq_zero'

end SigmaProtocol.Secp256k1
