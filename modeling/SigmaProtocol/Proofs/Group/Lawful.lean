import SigmaProtocol.Proofs.Curve.Binary
import SigmaProtocol.Proofs.Curve.Secp256k1
import SigmaProtocol.Proofs.Group.Encoding
import SigmaProtocol.Proofs.Limbs

/-!
# Groups that keep the laws

The members of a lawful group are the elements of a commutative group that the order kills, and its
powers are multiples. The protocols rest on nothing else.

* `CurveGroup.isMember_binary_iff`: the members of a group over a binary curve, as elements of the
  group of all points.
* `CurveGroup.Supported.lawful`: secp256k1 is lawful, and so is a group over a binary curve whose
  modulus is irreducible, whose index is not 1 and whose generator is a member.
-/

namespace SigmaProtocol

/-! ## Binary curves -/

theorem Basis.Valid.exponents_lt {m : Nat} {basis : Basis} (h : basis.Valid m) :
    ∀ k ∈ basis.exponents, 0 < k ∧ k < m := by
  cases basis with
  | trinomial k => simpa [exponents, Valid] using h
  | pentanomial k1 k2 k3 =>
    obtain ⟨h0, h1, h2, h3⟩ := h
    simp only [exponents, List.forall_mem_cons, List.not_mem_nil, false_implies, implies_true,
      and_true]
    omega

namespace BinaryCurveParams

/-- Parameters that have been read give a curve in reduced form with `b ≠ 0`. -/
theorem smooth (params : BinaryCurveParams) : params.toCurve.Smooth where
  proper := BinaryField.proper_ofBasis fun k hk => (params.basis_valid.exponents_lt k hk).2.le
  a_le := params.toCurve_a ▸ params.a_fits
  b_le := params.toCurve_b ▸ params.b_fits
  b_ne_zero := params.toCurve_b ▸ params.b_ne_zero

theorem polynomial_toCurve (params : BinaryCurveParams) :
    params.toCurve.field.polynomial = params.basis.polynomial params.m :=
  BinaryField.polynomial_ofBasis (by have := params.two_le_m; omega)
    params.basis_valid.exponents_lt

theorem fact_irreducible {params : BinaryCurveParams}
    (h : Irreducible (params.basis.polynomial params.m)) :
    Fact (Irreducible params.toCurve.field.polynomial) :=
  ⟨params.polynomial_toCurve ▸ h⟩

end BinaryCurveParams

namespace CurveGroup

theorem mod_smul_of_smul_eq_zero {A : Type} [AddCommGroup A] {a : A} {n : Nat} (h : n • a = 0)
    (k : Nat) : (k % n) • a = k • a := by
  conv_rhs => rw [← Nat.mod_add_div k n]
  rw [add_smul, mul_comm, mul_smul, h, smul_zero, add_zero]

/-- The members of `g` are the part of `A` that the order kills, by way of `E`. -/
structure Lawful (g : CurveGroup) {A : Type} [AddCommGroup A] (E : PointEmbedding A) : Prop where
  canonical : g.Canonical
  mul_eq : g.mul = E.mul
  isMember_iff : ∀ {p : Point}, g.isMember p = true ↔ E.On p ∧ g.order • E.image p = 0
  isMember_generator : g.isMember g.generator = true
  pow : ∀ {p : Point}, g.isMember p = true → ∀ k : Nat,
    E.On (g.pow p k) ∧ E.image (g.pow p k) = k • E.image p
  powSecret : ∀ {p : Point}, g.isMember p = true → ∀ k : LimbNat,
    E.On (g.powSecret p k) ∧ E.image (g.powSecret p k) = k.toNat • E.image p

namespace Lawful

variable {g : CurveGroup} {A : Type} [AddCommGroup A] {E : PointEmbedding A} (hg : g.Lawful E)
include hg

/-- What stands for a multiple of a member is a member. -/
theorem isMember_of_image {p q : Point} {k : Nat} (hp : g.isMember p = true) (hq : E.On q)
    (h : E.image q = k • E.image p) : g.isMember q = true := by
  rw [hg.isMember_iff] at hp ⊢
  refine ⟨hq, ?_⟩
  rw [h, smul_comm, hp.2, smul_zero]

theorem isMember_pow {p : Point} (hp : g.isMember p = true) (k : Nat) :
    g.isMember (g.pow p k) = true :=
  hg.isMember_of_image hp (hg.pow hp k).1 (hg.pow hp k).2

theorem isMember_powSecret {p : Point} (hp : g.isMember p = true) (k : LimbNat) :
    g.isMember (g.powSecret p k) = true :=
  hg.isMember_of_image hp (hg.powSecret hp k).1 (hg.powSecret hp k).2

theorem isMember_powGenerator (k : Nat) : g.isMember (g.powGenerator k) = true :=
  hg.isMember_pow hg.isMember_generator k

theorem image_powGenerator (k : Nat) : E.image (g.powGenerator k) = k • E.image g.generator :=
  (hg.pow hg.isMember_generator k).2

theorem on_of_isMember {p : Point} (hp : g.isMember p = true) : E.On p :=
  (hg.isMember_iff.mp hp).1

/-- Multiples of a member count modulo the order. -/
theorem mod_smul_image {p : Point} (hp : g.isMember p = true) (k : Nat) :
    (k % g.order) • E.image p = k • E.image p :=
  mod_smul_of_smul_eq_zero (hg.isMember_iff.mp hp).2 k

/-- A member of a group of prime order that is not the identity has that order. -/
theorem smul_image_eq_iff [Fact g.order.Prime] {p : Point} (hp : g.isMember p = true)
    (hne : p ≠ .infinity) {k l : Nat} :
    k • E.image p = l • E.image p ↔ k ≡ l [MOD g.order] := by
  obtain ⟨hon, hkilled⟩ := hg.isMember_iff.mp hp
  exact E.nsmul_image_eq_iff hon hkilled hne

end Lawful

/-! ## Lawful groups -/

theorem isMember_affine_iff {params : BinaryGroupParams} {x y : Nat} :
    (binary params).isMember (.affine x y) = true ↔
      params.curve.toCurve.contains x y = true ∧ (params.curve.cofactor = 1 ∨
        params.curve.toCurve.multiply (.affine x y) params.curve.order = .infinity) := by
  simp only [binary, BinaryCurve.isMember, BinaryCurve.inSubgroup, Bool.and_eq_true,
    Bool.or_eq_true, beq_iff_eq, reduceCtorEq, false_or]

/-- With the index 1 every point of the curve is a member, otherwise the points that the order
kills. -/
theorem isMember_binary_iff {params : BinaryGroupParams}
    [Fact (Irreducible params.curve.toCurve.field.polynomial)] {p : Point} :
    (binary params).isMember p = true ↔ (BinaryCurve.embedding params.curve.smooth).On p ∧
      (params.curve.cofactor = 1 ∨
        params.curve.order • (BinaryCurve.embedding params.curve.smooth).image p = 0) := by
  let E := BinaryCurve.embedding params.curve.smooth
  cases p with
  | infinity =>
    refine iff_of_true rfl ⟨E.on_infinity, .inr ?_⟩
    rw [E.image_infinity, nsmul_zero]
  | affine x y =>
    rw [isMember_affine_iff, ← BinaryCurve.embedding_on_affine params.curve.smooth]
    refine and_congr_right fun hp => or_congr_right ?_
    exact BinaryCurve.multiply_eq_infinity_iff params.curve.smooth hp params.curve.order

theorem lawful_binary {params : BinaryGroupParams}
    [Fact (Irreducible params.curve.toCurve.field.polynomial)]
    (hcofactor : params.curve.cofactor ≠ 1)
    (hgenerator : (binary params).isMember (binary params).generator = true) :
    (binary params).Lawful (BinaryCurve.embedding params.curve.smooth) where
  canonical := canonical_binary params
  mul_eq := rfl
  isMember_iff := by
    intro p
    rw [isMember_binary_iff, or_iff_right hcofactor]
    rfl
  isMember_generator := hgenerator
  pow hp := BinaryCurve.image_multiply params.curve.smooth (isMember_binary_iff.mp hp).1
  powSecret hp :=
    (BinaryCurve.embedding params.curve.smooth).image_ladder (isMember_binary_iff.mp hp).1

/-- The bytes of an exponent are reduced as they are read. -/
theorem scalarOfBytes_eq (bs : Bytes) :
    Secp256k1.scalarOfBytes bs = Bytes.toNat bs % Secp256k1.params.order := by
  induction bs using List.reverseRecOn with
  | nil => rfl
  | append_singleton bs b ih =>
    rw [Bytes.toNat_concat, Nat.add_mod, Nat.mul_mod, ← ih]
    simp [Secp256k1.scalarOfBytes]

/-- All points of secp256k1 are members, since the order kills every one of them. -/
theorem lawful_secp256k1 : secp256k1.Lawful (PrimeCurve.embedding Secp256k1.smooth) := by
  let E := PrimeCurve.embedding Secp256k1.smooth
  have hmember {p : Point} : secp256k1.isMember p = true ↔
      E.On p ∧ Secp256k1.params.order • E.image p = 0 := by
    rw [and_iff_left (Secp256k1.order_smul _)]
    exact PrimeCurve.on_iff.symm
  -- Exponents are reduced modulo the order before anything else.
  have hmultiple {p : Point} (hp : secp256k1.isMember p = true) (k : Nat) :
      E.On (Secp256k1.curve.multiply p (k % Secp256k1.params.order)) ∧
        E.image (Secp256k1.curve.multiply p (k % Secp256k1.params.order)) = k • E.image p := by
    obtain ⟨hon, hkilled⟩ := hmember.mp hp
    obtain ⟨hmon, hmul⟩ :=
      PrimeCurve.image_multiply Secp256k1.smooth hon (k % Secp256k1.params.order)
    exact ⟨hmon, hmul.trans (mod_smul_of_smul_eq_zero hkilled k)⟩
  exact {
    canonical := canonical_secp256k1
    mul_eq := rfl
    isMember_iff := hmember
    isMember_generator := Secp256k1.hasPoint_generator
    pow := hmultiple
    powSecret := by
      intro p hp k
      have h := hmultiple hp k.toNat
      rwa [← LimbNat.toNat_toBytes, ← scalarOfBytes_eq, LimbNat.toNat_toBytes] at h }

/-- The groups that the protocols are made for. -/
inductive Supported : CurveGroup → Prop
  | secp256k1 : Supported secp256k1
  | binary {params : BinaryGroupParams} {options : GroupOptions} {g : CurveGroup}
    (built : binaryChecked params options = .ok g)
    (irreducible : Irreducible (params.curve.basis.polynomial params.curve.m))
    (cofactor_ne_one : params.curve.cofactor ≠ 1)
    (isMember_generator : g.isMember g.generator = true) : Supported g

/-- **Lawful groups.** -/
theorem Supported.lawful {g : CurveGroup} (hg : Supported g) :
    ∃ (A : Type) (_ : AddCommGroup A) (E : PointEmbedding A), g.Lawful E := by
  cases hg with
  | secp256k1 => exact ⟨_, _, _, lawful_secp256k1⟩
  | @binary params options g built irreducible cofactor_ne_one isMember_generator =>
    obtain rfl := eq_binary_of_binaryChecked built
    have := BinaryCurveParams.fact_irreducible irreducible
    exact ⟨_, _, _, lawful_binary cofactor_ne_one isMember_generator⟩

/-- The generator is given by its coordinates. -/
theorem Supported.generator_ne_infinity {g : CurveGroup} (hg : Supported g) :
    g.generator ≠ .infinity := by
  cases hg with
  | secp256k1 => exact nofun
  | binary built =>
    rw [eq_binary_of_binaryChecked built]
    exact nofun

/-- The order of secp256k1 is known to be prime. -/
theorem fact_prime_order {g : CurveGroup} (h : g = .secp256k1 ∨ g.order.Prime) :
    Fact g.order.Prime := by
  refine ⟨h.elim ?_ id⟩
  rintro rfl
  exact Secp256k1.prime_order

/-- The seven points of odd order on `y² + xy = x³ + x² + 1` over the field with eight elements. -/
def sevenPoints : BinaryGroupParams where
  curve := {
    name := "seven points"
    m := 3
    basis := .trinomial 1
    a := 1
    b := 1
    generatorX := 3
    generatorY := 0
    order := 7
    cofactor := 2
    two_le_m := by decide
    basis_valid := by decide
    a_fits := by decide
    b_fits := by decide
    b_ne_zero := Nat.one_ne_zero
    generatorX_fits := by decide
    generatorY_fits := by decide
    one_lt_order := by decide
    cofactor_ne_zero := by decide }
  koblitz := true
  koblitz_coefficients := by decide

theorem supported_sevenPoints : Supported (binary sevenPoints) :=
  .binary (rfl : binaryChecked sevenPoints ⟨false⟩ = _) Basis.irreducible_polynomial_three
    (by decide) (by decide +kernel)

end CurveGroup

end SigmaProtocol
