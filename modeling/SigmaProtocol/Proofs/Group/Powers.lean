import SigmaProtocol.Proofs.Group.Closure

/-!
# Powers

A power of a point is the multiple that it has in the commutative group around it, whichever way it
is computed. So the ladder for secret exponents, double-and-add for public ones and repeated
multiplication all agree, and the laws of exponents hold for every point of the curve, member or
not.

* `CurveGroup.Represents.powSecret_eq`, `CurveGroup.Represents.pow_eq_foldr`: the three ways to
  compute a power.
* `CurveGroup.powSecret_eq_pow`: secret exponents, for every group.
* `CurveGroup.obeysPowerLaws`: the laws of exponents over a binary curve.
-/

namespace SigmaProtocol

namespace CurveGroup

namespace Represents

variable {g : CurveGroup} {A : Type} [AddCommGroup A] {E : PointEmbedding A} {M : AddSubgroup A}
  (hg : g.Represents E M) {p : Point} (hp : E.On p)
include hg hp

/-- The two ways to compute a power give one multiple, whose point is unique. -/
theorem powSecret_eq (k : LimbNat) : g.powSecret p k = g.pow p k.toNat :=
  E.eq_of_image (hg.powSecret hp k) (hg.pow hp k.toNat)

theorem pow_eq_foldr (x : Nat) :
    g.pow p x = (List.replicate x p).foldr g.mul .infinity := by
  rw [hg.mul_eq]
  exact E.eq_of_image (hg.pow hp x) (E.image_foldr_replicate hp x)

theorem mul_pow (x y : Nat) : g.mul (g.pow p x) (g.pow p y) = g.pow p (x + y) := by
  obtain ⟨honx, hx⟩ := hg.pow hp x
  obtain ⟨hony, hy⟩ := hg.pow hp y
  rw [hg.mul_eq]
  refine E.eq_of_image ⟨E.on_mul honx hony, ?_⟩ (hg.pow hp (x + y))
  rw [E.image_mul honx hony, hx, hy, add_nsmul]

theorem pow_pow (x y : Nat) : g.pow (g.pow p x) y = g.pow p (x * y) := by
  obtain ⟨hon, hx⟩ := hg.pow hp x
  obtain ⟨hony, hy⟩ := hg.pow hon y
  refine E.eq_of_image ⟨hony, ?_⟩ (hg.pow hp (x * y))
  rw [hy, hx, mul_nsmul]

theorem pow_inverse (x : Nat) : g.pow (g.inverse p) x = g.inverse (g.pow p x) := by
  obtain ⟨honi, hi⟩ := hg.inverse hp
  obtain ⟨honx, hx⟩ := hg.pow hp x
  obtain ⟨hon, hpow⟩ := hg.pow honi x
  refine E.eq_of_image ⟨hon, ?_⟩ (hg.inverse honx)
  rw [hpow, hi, hx, neg_nsmul]

/-- Exponents count modulo any number that kills the point. -/
theorem pow_mod {n : Nat} (hkilled : n • E.image p = 0) (x : Nat) :
    g.pow p (x % n) = g.pow p x := by
  obtain ⟨hon, hmod⟩ := hg.pow hp (x % n)
  rw [mod_smul_of_smul_eq_zero hkilled] at hmod
  exact E.eq_of_image ⟨hon, hmod⟩ (hg.pow hp x)

theorem pow_eq_pow_iff {q : Nat} (hq : q.Prime) (hkilled : q • E.image p = 0)
    (hne : p ≠ .infinity) {x y : Nat} : g.pow p x = g.pow p y ↔ x ≡ y [MOD q] := by
  have := Fact.mk hq
  obtain ⟨honx, hx⟩ := hg.pow hp x
  obtain ⟨hony, hy⟩ := hg.pow hp y
  rw [← E.nsmul_image_eq_iff hp hkilled hne, ← hx, ← hy]
  exact ⟨congrArg E.image, E.image_injective honx hony⟩

end Represents

/-! ## Secret exponents -/

/-- Horner's rule over the bytes of an exponent gives its value modulo the order. -/
theorem powSecret_secp256k1 (p : Point) (k : LimbNat) :
    secp256k1.powSecret p k = secp256k1.pow p k.toNat := by
  show Secp256k1.curve.multiply p (Secp256k1.scalarOfBytes k.toBytes) =
    Secp256k1.curve.multiply p (k.toNat % Secp256k1.params.order)
  rw [scalarOfBytes_eq, LimbNat.toNat_toBytes]

/-- **Secret exponents.** A power for a secret exponent, held in any number of limbs, is the power
for its value. -/
theorem powSecret_eq_pow :
    (∀ {params : BinaryGroupParams} {options : GroupOptions} {g : CurveGroup},
      binaryChecked params options = .ok g →
        Irreducible (params.curve.basis.polynomial params.curve.m) →
          ∀ {p : Point}, params.curve.toCurve.OnCurve p →
            ∀ k : LimbNat, g.powSecret p k = g.pow p k.toNat) ∧
    ∀ (p : Point) (k : LimbNat), secp256k1.powSecret p k = secp256k1.pow p k.toNat := by
  refine ⟨?_, powSecret_secp256k1⟩
  intro params options g built irreducible p hp k
  obtain rfl := eq_binary_of_binaryChecked built
  have := BinaryCurveParams.fact_irreducible irreducible
  exact (represents_binary params).powSecret_eq ((BinaryCurve.on_iff params.curve.smooth).mpr hp) k

/-- The powers 3, in two limbs, and 0 of the point of order two, and an exponent above the order. -/
theorem powSecret_eq_pow_sevenPoints_secp256k1 :
    let g := binary sevenPoints
    let p : Point := .affine 0 1
    g.isMember p = false ∧ sevenPoints.curve.toCurve.OnCurve p ∧
      g.powSecret p ⟨[3, 0], by simp⟩ = p ∧ g.powSecret p ⟨[0], by simp⟩ = .infinity ∧
      ∀ q, secp256k1.powSecret q (.ofNat (secp256k1.order + 5)) = secp256k1.pow q 5 := by
  intro g p
  have hp : sevenPoints.curve.toCurve.OnCurve p := by
    show sevenPoints.curve.toCurve.contains 0 1 = true
    decide +kernel
  have hpow (k : LimbNat) : g.powSecret p k = g.pow p k.toNat :=
    powSecret_eq_pow.1 (rfl : binaryChecked sevenPoints ⟨false⟩ = .ok g)
      Basis.irreducible_polynomial_three hp k
  have hthree : g.pow p 3 = p := by decide +kernel
  have hzero : g.pow p 0 = .infinity := by decide +kernel
  refine ⟨by decide +kernel, hp, (hpow _).trans hthree, (hpow _).trans hzero, fun q => ?_⟩
  rw [powSecret_eq_pow.2, LimbNat.toNat_ofNat]
  exact congrArg (Secp256k1.curve.multiply q) (Nat.add_mod_left _ 5)

/-! ## The laws of exponents -/

/-- The laws of exponents in a group over a binary curve. All but the last two hold for every point
of the curve. -/
structure ObeysPowerLaws (g : CurveGroup) (params : BinaryCurveParams) : Prop where
  /-- A power is a repeated product. -/
  pow_eq_foldr : ∀ {p : Point}, params.toCurve.OnCurve p → ∀ x : Nat,
    g.pow p x = (List.replicate x p).foldr g.mul .infinity
  mul_pow : ∀ {p : Point}, params.toCurve.OnCurve p → ∀ x y : Nat,
    g.mul (g.pow p x) (g.pow p y) = g.pow p (x + y)
  pow_pow : ∀ {p : Point}, params.toCurve.OnCurve p → ∀ x y : Nat,
    g.pow (g.pow p x) y = g.pow p (x * y)
  pow_inverse : ∀ {p : Point}, params.toCurve.OnCurve p → ∀ x : Nat,
    g.pow (g.inverse p) x = g.inverse (g.pow p x)
  /-- If the index is not 1, then the exponents of a member count modulo the order. -/
  pow_mod : params.cofactor ≠ 1 → ∀ {p : Point}, g.isMember p = true → ∀ x : Nat,
    g.pow p x = g.pow p (x % g.order)
  /-- If moreover the order is prime, then powers of a member other than infinity are the same only
  for exponents that are the same modulo the order. -/
  pow_eq_pow_iff : params.cofactor ≠ 1 → g.order.Prime → ∀ {p : Point}, g.isMember p = true →
    p ≠ .infinity → ∀ {x y : Nat}, g.pow p x = g.pow p y ↔ x % g.order = y % g.order

/-- **Exponents.** A group over a binary curve with an irreducible modulus obeys the laws of
exponents. -/
theorem obeysPowerLaws {params : BinaryGroupParams} {options : GroupOptions} {g : CurveGroup}
    (built : binaryChecked params options = .ok g)
    (irreducible : Irreducible (params.curve.basis.polynomial params.curve.m)) :
    g.ObeysPowerLaws params.curve := by
  obtain rfl := eq_binary_of_binaryChecked built
  have := BinaryCurveParams.fact_irreducible irreducible
  have hg := represents_binary params
  have hon {p : Point} (hp : params.curve.toCurve.OnCurve p) :=
    (BinaryCurve.on_iff params.curve.smooth).mpr hp
  have hkilled (hcofactor : params.curve.cofactor ≠ 1) {p : Point}
      (hp : (binary params).isMember p = true) :=
    (isMember_binary_iff.mp hp).2.resolve_left hcofactor
  exact {
    pow_eq_foldr := fun hp => hg.pow_eq_foldr (hon hp)
    mul_pow := fun hp => hg.mul_pow (hon hp)
    pow_pow := fun hp => hg.pow_pow (hon hp)
    pow_inverse := fun hp => hg.pow_inverse (hon hp)
    pow_mod := fun hcofactor _ hp x =>
      (hg.pow_mod (hg.on_of_isMember hp) (hkilled hcofactor hp) x).symm
    pow_eq_pow_iff := fun hcofactor hprime _ hp hne =>
      hg.pow_eq_pow_iff (hg.on_of_isMember hp) hprime (hkilled hcofactor hp) hne }

/-- The sixteenth power of an element of order 7, and the powers of it that are the same. -/
theorem obeysPowerLaws_sevenPoints :
    let g := binary sevenPoints
    let p : Point := .affine 3 0
    g.isMember p = true ∧ g.pow p 16 = g.pow p 2 ∧ g.pow (g.pow p 4) 4 = g.pow p 16 ∧
      ¬ g.pow p 16 = g.pow p 15 := by
  intro g p
  have hg : g.ObeysPowerLaws sevenPoints.curve := obeysPowerLaws
    (rfl : binaryChecked sevenPoints ⟨false⟩ = .ok g) Basis.irreducible_polynomial_three
  have hcofactor : sevenPoints.curve.cofactor ≠ 1 := by decide
  have hprime : g.order.Prime := (by norm_num : Nat.Prime 7)
  have hp : g.isMember p = true := by decide +kernel
  have hon : sevenPoints.curve.toCurve.OnCurve p := (isMember_affine_iff.mp hp).1
  have hmod : 16 % g.order = 2 := by decide
  refine ⟨hp, hmod ▸ hg.pow_mod hcofactor hp 16, hg.pow_pow hon 4 4, ?_⟩
  rw [hg.pow_eq_pow_iff hcofactor hprime hp (by decide)]
  decide

end CurveGroup

end SigmaProtocol
