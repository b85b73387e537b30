import SigmaProtocol.Proofs.Group.Lawful

/-!
# Operations keep the members

The points of a curve are a commutative group, and the members are a subgroup of it: all of it or
the part that the order kills. Every operation of a `CurveGroup` gives a point that stands for a
sum, an opposite or a multiple, so what comes from members is a member again.

* `CurveGroup.Represents`: members and operations inside a commutative group.
* `CurveGroup.Represents.isMember_of_obtained`: what any number of operations gives is a member.
* `CurveGroup.represents_binary`: a group over a binary curve with an irreducible modulus.
* `CurveGroup.isMember_of_obtained_binary`: the two together.
-/

namespace SigmaProtocol

namespace CurveGroup

/-- The elements that the operations of a group give, one after another. -/
inductive Obtained (g : CurveGroup) : Point → Prop
  | identity : g.Obtained .infinity
  | generator : g.Obtained g.generator
  | ofCoordinates {x y : Nat} {p : Point} (h : g.ofCoordinates x y = .ok p) : g.Obtained p
  | ofBytes {bs : Bytes} {p : Point} (h : g.ofBytes bs = .ok p) : g.Obtained p
  | mul {p q : Point} (hp : g.Obtained p) (hq : g.Obtained q) : g.Obtained (g.mul p q)
  | inverse {p : Point} (hp : g.Obtained p) : g.Obtained (g.inverse p)
  | pow {p : Point} (hp : g.Obtained p) (k : Nat) : g.Obtained (g.pow p k)
  | powSecret {p : Point} (hp : g.Obtained p) (k : LimbNat) : g.Obtained (g.powSecret p k)
  | randomElement {stream rest : Bytes} {p : Point}
    (h : g.randomElement stream = .ok (p, rest)) : g.Obtained p

theorem exists_of_randomElement {g : CurveGroup} {stream rest : Bytes} {p : Point}
    (h : g.randomElement stream = .ok (p, rest)) : ∃ k, p = g.powGenerator k := by
  obtain ⟨k, middle, -, hpure⟩ := Sampler.bind_eq_ok.mp h
  exact ⟨k, (Sampler.pure_eq_ok.mp hpure).1.symm⟩

/-- The members of `g` are the points whose images are in `M`, and its operations are those of the
commutative group around `M`. -/
structure Represents (g : CurveGroup) {A : Type} [AddCommGroup A] (E : PointEmbedding A)
    (M : AddSubgroup A) : Prop where
  canonical : g.Canonical
  isMember_iff : ∀ {p : Point}, g.isMember p = true ↔ E.On p ∧ E.image p ∈ M
  mul_eq : g.mul = E.mul
  inverse : ∀ {p : Point}, E.On p → E.On (g.inverse p) ∧ E.image (g.inverse p) = -E.image p
  pow : ∀ {p : Point}, E.On p → ∀ k : Nat,
    E.On (g.pow p k) ∧ E.image (g.pow p k) = k • E.image p
  powSecret : ∀ {p : Point}, E.On p → ∀ k : LimbNat,
    E.On (g.powSecret p k) ∧ E.image (g.powSecret p k) = k.toNat • E.image p

namespace Represents

variable {g : CurveGroup} {A : Type} [AddCommGroup A] {E : PointEmbedding A} {M : AddSubgroup A}
  (hg : g.Represents E M) {p q : Point}
include hg

theorem on_of_isMember (hp : g.isMember p = true) : E.On p := (hg.isMember_iff.mp hp).1

theorem image_mem (hp : g.isMember p = true) : E.image p ∈ M := (hg.isMember_iff.mp hp).2

/-- A point that stands for an element of `M` is a member. -/
theorem isMember_of_image {a : A} (hp : E.On p ∧ E.image p = a) (ha : a ∈ M) :
    g.isMember p = true := by
  rw [hg.isMember_iff, hp.2]
  exact ⟨hp.1, ha⟩

theorem isMember_mul (hp : g.isMember p = true) (hq : g.isMember q = true) :
    g.isMember (g.mul p q) = true := by
  have honp := hg.on_of_isMember hp
  have honq := hg.on_of_isMember hq
  rw [hg.mul_eq]
  exact hg.isMember_of_image ⟨E.on_mul honp honq, E.image_mul honp honq⟩
    (M.add_mem (hg.image_mem hp) (hg.image_mem hq))

theorem isMember_inverse (hp : g.isMember p = true) : g.isMember (g.inverse p) = true :=
  hg.isMember_of_image (hg.inverse (hg.on_of_isMember hp)) (M.neg_mem (hg.image_mem hp))

theorem isMember_pow (hp : g.isMember p = true) (k : Nat) : g.isMember (g.pow p k) = true :=
  hg.isMember_of_image (hg.pow (hg.on_of_isMember hp) k) (M.nsmul_mem (hg.image_mem hp) k)

theorem isMember_powSecret (hp : g.isMember p = true) (k : LimbNat) :
    g.isMember (g.powSecret p k) = true :=
  hg.isMember_of_image (hg.powSecret (hg.on_of_isMember hp) k)
    (M.nsmul_mem (hg.image_mem hp) k.toNat)

/-- If the generator is a member, then so is everything that the operations give. -/
theorem isMember_of_obtained (hgenerator : g.isMember g.generator = true) (hp : g.Obtained p) :
    g.isMember p = true := by
  -- What is read is checked on the way in; everything else comes from members.
  induction hp with
  | identity => exact hg.canonical.isMember_infinity
  | generator => exact hgenerator
  | ofCoordinates h => exact hg.canonical.isMember_of_ofCoordinates h
  | ofBytes h => exact hg.canonical.isMember_of_ofBytes h
  | mul _ _ ihp ihq => exact hg.isMember_mul ihp ihq
  | inverse _ ih => exact hg.isMember_inverse ih
  | pow _ k ih => exact hg.isMember_pow ih k
  | powSecret _ k ih => exact hg.isMember_powSecret ih k
  | randomElement h =>
    obtain ⟨k, rfl⟩ := exists_of_randomElement h
    exact hg.isMember_pow hgenerator k

end Represents

/-! ## Binary curves -/

/-- The members of a group over a binary curve, among the points of the curve. -/
noncomputable def binaryMembers (params : BinaryGroupParams)
    [Fact (Irreducible params.curve.toCurve.field.polynomial)] :
    AddSubgroup params.curve.toCurve.weierstrass.Point :=
  if params.curve.cofactor = 1 then ⊤ else (nsmulAddMonoidHom params.curve.order).ker

/-- Either all points are members or those that the order kills. -/
theorem represents_binary (params : BinaryGroupParams)
    [Fact (Irreducible params.curve.toCurve.field.polynomial)] :
    (binary params).Represents (BinaryCurve.embedding params.curve.smooth)
      (binaryMembers params) where
  canonical := canonical_binary params
  isMember_iff := by
    intro p
    rw [isMember_binary_iff, binaryMembers]
    refine and_congr_right fun _ => ?_
    split
    · next hcofactor => simp [hcofactor]
    · next hcofactor => simp [hcofactor, AddMonoidHom.mem_ker]
  mul_eq := rfl
  inverse := BinaryCurve.negate_spec params.curve.smooth
  pow := BinaryCurve.image_multiply params.curve.smooth
  powSecret := (BinaryCurve.embedding params.curve.smooth).image_ladder

theorem bitLength_le_of_isMember {params : BinaryGroupParams} {x y : Nat}
    (h : (binary params).isMember (.affine x y) = true) :
    bitLength x ≤ params.curve.m ∧ bitLength y ≤ params.curve.m := by
  have hcontains := (isMember_affine_iff.mp h).1
  obtain ⟨hx, hy, -⟩ := (BinaryCurve.contains_iff params.curve.smooth.reduced).mp hcontains
  exact ⟨hx, hy⟩

/-- **Closure.** Over an irreducible modulus and with a generator that is a member, whatever the
operations give is a member, and its coordinates have at most `m` binary digits. -/
theorem isMember_of_obtained_binary {params : BinaryGroupParams} {options : GroupOptions}
    {g : CurveGroup} (built : binaryChecked params options = .ok g)
    (irreducible : Irreducible (params.curve.basis.polynomial params.curve.m))
    (isMember_generator : g.isMember g.generator = true) {p : Point} (hp : g.Obtained p) :
    g.isMember p = true ∧ ∀ {x y : Nat}, p = .affine x y →
      bitLength x ≤ params.curve.m ∧ bitLength y ≤ params.curve.m := by
  obtain rfl := eq_binary_of_binaryChecked built
  have := BinaryCurveParams.fact_irreducible irreducible
  have hmember := (represents_binary params).isMember_of_obtained isMember_generator hp
  refine ⟨hmember, ?_⟩
  rintro x y rfl
  exact bitLength_le_of_isMember hmember

/-- A power of the generator by a secret exponent, divided by an element that was read. -/
theorem isMember_obtained_sevenPoints :
    let g := binary sevenPoints
    let p := g.mul (g.powSecret g.generator (.ofBytes [3])) (g.inverse (.affine 3 0))
    p = .affine 7 0 ∧ g.isMember p = true ∧ bitLength 7 ≤ 3 := by
  intro g p
  have heq : p = .affine 7 0 := by decide +kernel
  have hread : g.ofBytes [3, 0] = .ok (.affine 3 0) := by decide +kernel
  have hp : g.Obtained p := .mul (.powSecret .generator _) (.inverse (.ofBytes hread))
  obtain ⟨hmember, hlength⟩ := isMember_of_obtained_binary
    (rfl : binaryChecked sevenPoints ⟨false⟩ = .ok g) Basis.irreducible_polynomial_three
    (by decide +kernel) hp
  exact ⟨heq, hmember, (hlength heq).1⟩

end CurveGroup

end SigmaProtocol
