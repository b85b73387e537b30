import SigmaProtocol.Group.Binary
import SigmaProtocol.Group.Secp256k1
import SigmaProtocol.Proofs.Group.Coordinates
import SigmaProtocol.Proofs.Random

/-!
# Elements and their encodings

The encoding of infinity is that of the coordinates `(0, 0)`, which no member has, and all members'
coordinates fit their width. So a member is read back from its encoding. Conversely a byte string of
the right length is the encoding of the point that is read from it, member or not.

* `CurveGroup.Canonical.ofBytes_eq_ok_iff`: members are read back, and nothing else is read.
* `CurveGroup.Canonical.ofBytes_eq_error_iff`: why anything else is refused.
* `CurveGroup.canonical_binary`, `CurveGroup.canonical_secp256k1`: this holds for every group over a
  binary curve and for secp256k1.
* `CurveGroup.encodesOneToOne`: the two together, for every group that can be built.
-/

namespace SigmaProtocol

/-! ## Elements -/

namespace CurveGroup

/-- The members of a group are told apart by their encodings. -/
structure Canonical (g : CurveGroup) : Prop where
  isMember_infinity : g.isMember .infinity = true
  coordinates_lt : ∀ {x y : Nat}, g.isMember (.affine x y) = true →
    x < 256 ^ g.coordinateWidth ∧ y < 256 ^ g.coordinateWidth
  isMember_origin : g.isMember (.affine 0 0) = false
  ofCoordinates_eq : ∀ x y : Nat, g.ofCoordinates x y =
    if g.isMember (.affine x y) then .ok (.affine x y) else .error .invalidElement

theorem length_toBytes (g : CurveGroup) (p : Point) : (g.toBytes p).length = g.elementLength :=
  Point.length_encode g.coordinateWidth p

/-- A member is read back: its coordinates fit the width, and they are not the zeros of infinity. -/
theorem Canonical.ofBytes_toBytes {g : CurveGroup} (hg : g.Canonical) {p : Point}
    (hp : g.isMember p = true) : g.ofBytes (g.toBytes p) = .ok p := by
  cases p with
  | infinity =>
    rw [ofBytes, toBytes, Point.decode_encode_infinity]
    rfl
  | affine x y =>
    obtain ⟨hx, hy⟩ := hg.coordinates_lt hp
    have hne : ¬ (x = 0 ∧ y = 0) := by
      rintro ⟨rfl, rfl⟩
      exact absurd hp (by rw [hg.isMember_origin]; exact Bool.false_ne_true)
    rw [ofBytes, toBytes, Point.decode_encode_affine, Nat.mod_eq_of_lt hx, Nat.mod_eq_of_lt hy,
      if_neg hne]
    show g.ofCoordinates x y = .ok (.affine x y)
    rw [hg.ofCoordinates_eq, if_pos hp]

/-- Coordinates are taken as they are if they are those of a member. -/
theorem Canonical.ofCoordinates_eq_ok_iff {g : CurveGroup} (hg : g.Canonical) {x y : Nat}
    {p : Point} :
    g.ofCoordinates x y = .ok p ↔ g.isMember (.affine x y) = true ∧ p = .affine x y := by
  rw [hg.ofCoordinates_eq]
  split
  · next hmember => simp [hmember, eq_comm]
  · next hmember => simp [hmember]

theorem Canonical.isMember_of_ofCoordinates {g : CurveGroup} (hg : g.Canonical) {x y : Nat}
    {p : Point} (h : g.ofCoordinates x y = .ok p) : g.isMember p = true := by
  obtain ⟨hmember, rfl⟩ := hg.ofCoordinates_eq_ok_iff.mp h
  exact hmember

theorem Canonical.isMember_of_ofBytes {g : CurveGroup} (hg : g.Canonical) {bs : Bytes} {p : Point}
    (h : g.ofBytes bs = .ok p) : g.isMember p = true := by
  obtain ⟨decoded, -, h⟩ := except_bind_eq_ok.mp h
  cases decoded with
  | infinity =>
    cases h
    exact hg.isMember_infinity
  | affine x y => exact hg.isMember_of_ofCoordinates h

theorem Canonical.ofBytes_of_decode {g : CurveGroup} (hg : g.Canonical) {bs : Bytes} {p : Point}
    (h : Point.decode g.coordinateWidth bs = .ok p) :
    g.ofBytes bs = if g.isMember p = true then .ok p else .error .invalidElement := by
  unfold ofBytes
  rw [h]
  cases p with
  | infinity =>
    rw [if_pos hg.isMember_infinity]
    rfl
  | affine x y => exact hg.ofCoordinates_eq x y

/-- What is read from a byte string is the member with that encoding. -/
theorem Canonical.ofBytes_eq_ok_iff {g : CurveGroup} (hg : g.Canonical) {bs : Bytes} {p : Point} :
    g.ofBytes bs = .ok p ↔ g.isMember p = true ∧ g.toBytes p = bs := by
  constructor
  · intro h
    refine ⟨hg.isMember_of_ofBytes h, ?_⟩
    obtain ⟨q, hq, -⟩ := except_bind_eq_ok.mp h
    rw [hg.ofBytes_of_decode hq] at h
    split at h
    · cases h
      exact Point.encode_of_decode hq
    · cases h
  · rintro ⟨hp, rfl⟩
    exact hg.ofBytes_toBytes hp

/-- A byte string of the wrong length is refused as such, and any other one that encodes no member
as an invalid element. -/
theorem Canonical.ofBytes_eq_error_iff {g : CurveGroup} (hg : g.Canonical) {bs : Bytes}
    {e : ElementError} : g.ofBytes bs = .error e ↔
      bs.length ≠ g.elementLength ∧ e = .wrongLength g.elementLength bs.length ∨
      bs.length = g.elementLength ∧ (∀ p, g.isMember p = true → g.toBytes p ≠ bs) ∧
        e = .invalidElement := by
  rcases hdecode : Point.decode g.coordinateWidth bs with e' | p
  · obtain ⟨hlength, rfl⟩ := Point.decode_eq_error_iff.mp hdecode
    have hrefused : g.ofBytes bs = .error (.wrongLength g.elementLength bs.length) := by
      unfold ofBytes
      rw [hdecode]
      rfl
    have hne : bs.length ≠ g.elementLength := hlength
    rw [hrefused, Except.error.injEq]
    constructor
    · rintro rfl
      exact .inl ⟨hne, rfl⟩
    · rintro (⟨-, rfl⟩ | ⟨heq, -⟩)
      · rfl
      · exact absurd heq hne
  · have hencode : g.toBytes p = bs := Point.encode_of_decode hdecode
    have hlength : bs.length = g.elementLength := by rw [← hencode, length_toBytes]
    rw [hg.ofBytes_of_decode hdecode]
    by_cases hp : g.isMember p = true
    · rw [if_pos hp]
      constructor
      · intro h
        cases h
      · rintro (⟨hne, -⟩ | ⟨-, hnone, -⟩)
        · exact absurd hlength hne
        · exact absurd hencode (hnone p hp)
    · rw [if_neg hp, Except.error.injEq]
      have hnone : ∀ q, g.isMember q = true → g.toBytes q ≠ bs := by
        intro q hq hbs
        have hread := hg.ofBytes_eq_ok_iff.mpr ⟨hq, hbs⟩
        rw [hg.ofBytes_of_decode hdecode, if_neg hp] at hread
        cases hread
      constructor
      · rintro rfl
        exact .inr ⟨hlength, hnone, rfl⟩
      · rintro (⟨hne, -⟩ | ⟨-, -, rfl⟩)
        · exact absurd hlength hne
        · rfl

end CurveGroup

/-! ## Binary curves -/

namespace BinaryField

@[simp] theorem mul_zero (f : BinaryField) (v : Nat) : f.mul v 0 = 0 := by
  rw [mul, reduce_eq_self (Nat.zero_le _)]
  rfl

end BinaryField

/-- The point `(0, 0)` is on a curve only if `b` is zero. -/
theorem BinaryCurve.contains_origin (c : BinaryCurve) : c.contains 0 0 = (c.b == 0) := by
  simp [contains, BinaryField.contains, BinaryField.square, BEq.comm]

theorem BinaryCurveParams.toCurve_a (params : BinaryCurveParams) : params.toCurve.a = params.a :=
  BinaryField.reduce_eq_self params.a_fits

theorem BinaryCurveParams.toCurve_b (params : BinaryCurveParams) : params.toCurve.b = params.b :=
  BinaryField.reduce_eq_self params.b_fits

namespace CurveGroup

/-- The coordinates of a member fit the field, and `(0, 0)` is not on the curve as `b` is not
zero. -/
theorem canonical_binary (params : BinaryGroupParams) : (binary params).Canonical where
  isMember_infinity := rfl
  coordinates_lt := by
    intro x y h
    simp only [binary, BinaryCurve.isMember, Bool.and_eq_true, BinaryCurve.contains,
      BinaryField.contains, decide_eq_true_eq] at h
    exact ⟨Bytes.lt_pow_groupCount h.1.1.1, Bytes.lt_pow_groupCount h.1.1.2⟩
  isMember_origin := by
    simp [binary, BinaryCurve.isMember, BinaryCurve.contains_origin, BinaryCurveParams.toCurve_b,
      params.curve.b_ne_zero]
  ofCoordinates_eq _ _ := rfl

theorem canonical_secp256k1 : secp256k1.Canonical where
  isMember_infinity := rfl
  coordinates_lt := by
    intro x y h
    simp only [secp256k1, PrimeCurve.hasPoint, PrimeCurve.contains, Bool.and_eq_true,
      decide_eq_true_eq] at h
    have hp : Secp256k1.curve.p < 256 ^ Secp256k1.width := by decide
    exact ⟨h.1.1.trans hp, h.1.2.trans hp⟩
  isMember_origin := by decide +kernel
  ofCoordinates_eq _ _ := rfl

/-! ## The groups that can be built -/

/-- A group that can be built, whatever its parameters say about the modulus and the order. -/
inductive Built : CurveGroup → Prop
  | secp256k1 : Built secp256k1
  | binary {params : BinaryGroupParams} {options : GroupOptions} {g : CurveGroup}
    (built : binaryChecked params options = .ok g) : Built g

theorem eq_binary_of_binaryChecked {params : BinaryGroupParams} {options : GroupOptions}
    {g : CurveGroup} (h : binaryChecked params options = .ok g) : g = binary params := by
  rw [binaryChecked] at h
  split at h
  · cases h
  · exact (Except.ok.inj h).symm

theorem Built.canonical {g : CurveGroup} (hg : g.Built) : g.Canonical := by
  cases hg with
  | secp256k1 => exact canonical_secp256k1
  | binary built =>
    rw [eq_binary_of_binaryChecked built]
    exact canonical_binary _

/-- The members of a group and the byte strings that are read as elements are in one-to-one
correspondence. -/
structure EncodesOneToOne (g : CurveGroup) : Prop where
  /-- The encoding of a member has the fixed length and is read back. -/
  ofBytes_toBytes : ∀ {p : Point}, g.isMember p = true →
    (g.toBytes p).length = g.elementLength ∧ g.ofBytes (g.toBytes p) = .ok p
  /-- What is read is a member, and the bytes are its encoding. -/
  toBytes_ofBytes : ∀ {bs : Bytes} {p : Point}, g.ofBytes bs = .ok p →
    g.isMember p = true ∧ g.toBytes p = bs
  /-- A byte string of another length is refused as such. -/
  wrongLength : ∀ {bs : Bytes}, bs.length ≠ g.elementLength →
    g.ofBytes bs = .error (.wrongLength g.elementLength bs.length)
  /-- Every other byte string that encodes no member is an invalid element. -/
  invalidElement : ∀ {bs : Bytes}, bs.length = g.elementLength →
    (∀ p, g.isMember p = true → g.toBytes p ≠ bs) → g.ofBytes bs = .error .invalidElement
  /-- Only infinity is encoded by zero bytes. -/
  toBytes_eq_zero_iff : ∀ {p : Point}, g.isMember p = true →
    (g.toBytes p = List.replicate g.elementLength 0 ↔ p = .infinity)
  /-- Different members have different encodings. -/
  toBytes_injOn : Set.InjOn g.toBytes {p | g.isMember p = true}
  /-- No element is read from two byte strings. -/
  ofBytes_inj : ∀ {bs bs' : Bytes} {p : Point}, g.ofBytes bs = .ok p → g.ofBytes bs' = .ok p →
    bs = bs'

theorem Canonical.toBytes_injOn {g : CurveGroup} (hg : g.Canonical) :
    Set.InjOn g.toBytes {p | g.isMember p = true} := by
  intro p hp q hq h
  have hread := hg.ofBytes_toBytes hp
  rw [h, hg.ofBytes_toBytes hq] at hread
  exact (Except.ok.inj hread).symm

/-- **Encoding.** In every group that can be built, the members correspond one to one to the byte
strings that are read as elements. -/
theorem encodesOneToOne {g : CurveGroup} (hg : g.Built) : g.EncodesOneToOne where
  ofBytes_toBytes := by
    intro p hp
    exact ⟨length_toBytes g p, hg.canonical.ofBytes_toBytes hp⟩
  toBytes_ofBytes := by
    intro bs p h
    exact hg.canonical.ofBytes_eq_ok_iff.mp h
  wrongLength := by
    intro bs hlength
    exact hg.canonical.ofBytes_eq_error_iff.mpr (.inl ⟨hlength, rfl⟩)
  invalidElement := by
    intro bs hlength hnone
    exact hg.canonical.ofBytes_eq_error_iff.mpr (.inr ⟨hlength, hnone, rfl⟩)
  toBytes_eq_zero_iff := by
    intro p hp
    refine ⟨fun h => ?_, fun h => ?_⟩
    · exact hg.canonical.toBytes_injOn hp hg.canonical.isMember_infinity h
    · rw [h]
      rfl
  toBytes_injOn := hg.canonical.toBytes_injOn
  ofBytes_inj := by
    intro bs bs' p h h'
    rw [← (hg.canonical.ofBytes_eq_ok_iff.mp h).2, ← (hg.canonical.ofBytes_eq_ok_iff.mp h').2]

/-- Parameters with the modulus `z⁴ + z² + 1 = (z² + z + 1)²`, which is not irreducible. -/
def squareModulus : BinaryGroupParams where
  curve := {
    name := "square modulus"
    m := 4
    basis := .trinomial 2
    a := 1
    b := 1
    generatorX := 1
    generatorY := 4
    order := 4
    cofactor := 7
    two_le_m := by decide
    basis_valid := by decide
    a_fits := by decide
    b_fits := by decide
    b_ne_zero := Nat.one_ne_zero
    generatorX_fits := by decide
    generatorY_fits := by decide
    one_lt_order := by decide
    cofactor_ne_zero := by decide }
  koblitz := false
  koblitz_coefficients := nofun

/-- The element `(0, 8)` shares its abscissa with the encoding of infinity, and `(2, 4)` is on the
curve but not killed by the order. -/
theorem encodesOneToOne_squareModulus :
    let g := CurveGroup.binary squareModulus
    g.ofBytes (g.toBytes (.affine 0 8)) = .ok (.affine 0 8) ∧
      g.toBytes (.affine 0 8) ≠ List.replicate 2 0 ∧
      squareModulus.curve.toCurve.contains 2 4 = true ∧
      g.ofBytes [2, 4] = .error .invalidElement ∧
      g.ofBytes [2, 4, 0] = .error (.wrongLength 2 3) := by
  intro g
  have hg : g.EncodesOneToOne :=
    encodesOneToOne (.binary (rfl : binaryChecked squareModulus ⟨false⟩ = .ok g))
  have hmember : g.isMember (.affine 0 8) = true := by decide +kernel
  refine ⟨(hg.ofBytes_toBytes hmember).2, fun hzero => ?_, by decide +kernel, ?_, ?_⟩
  · exact Point.noConfusion ((hg.toBytes_eq_zero_iff hmember).mp hzero)
  · refine hg.invalidElement rfl fun p hp hbs => ?_
    have hread := (hg.ofBytes_toBytes hp).2
    have hother : g.ofBytes [2, 4] = .error .invalidElement := by decide +kernel
    rw [hbs, hother] at hread
    cases hread
  · exact hg.wrongLength (by decide)

end CurveGroup

end SigmaProtocol
