import SigmaProtocol.Curve.Table
import SigmaProtocol.Group.Binary
import SigmaProtocol.Group.Secp256k1
import SigmaProtocol.Proofs.DiscreteLog.Roles

/-!
# How many challenges a group allows

There should be fewer challenges than exponents, `2 ^ t < q`. What is compared is `t` and the number
of binary digits of `q`. That comes to the same for every order but `2 ^ t` itself, which no odd
order is: there a prover is refused for another reason, but a verifier is built.

* `DiscreteLog.enforcesLimit`: which provers and verifiers are built, and why the others are not.
* `DiscreteLog.verifier_twoPoints`: a verifier with as many challenges as exponents.
-/

namespace SigmaProtocol.DiscreteLog

variable {g : CurveGroup} {params : Params}

/-! ## Outcomes -/

section Outcomes

variable (ht : params.soundnessBits ≠ 0) (hs : params.lengthParameter ≠ 0)
include ht hs

/-- The refusal names `t` and the number of binary digits of the order. -/
theorem refused_of_order_lt (h : g.order < 2 ^ params.soundnessBits.toNat) :
    verifier g params = .error (.soundness params.soundnessBits (bitLength g.order)) ∧
      prover g params = .error (.soundness params.soundnessBits (bitLength g.order)) := by
  have hlimit : params.requireSoundnessBelow (bitLength g.order) =
      .error (.soundness params.soundnessBits (bitLength g.order)) :=
    if_pos (bitLength_le_iff_lt.mpr h)
  rw [verifier, prover, Params.validate_of_ne_zero ht hs, hlimit]
  exact ⟨rfl, rfl⟩

/-- With `2 ^ t` exponents or more the verifier is built, and the prover is if the order is odd. -/
theorem built_of_le_order (h : 2 ^ params.soundnessBits.toNat ≤ g.order) :
    verifier g params = .ok (.ofRole (verifierRole g params)) ∧
      prover g params = if g.order % 2 = 0 then .error (.invalidStatement .evenOrder)
        else .ok (.ofRole (proverRole g params)) := by
  have hlimit : params.requireSoundnessBelow (bitLength g.order) = .ok () :=
    Params.requireSoundnessBelow_eq_ok_iff.mpr (not_le.mp (mt bitLength_le_iff_lt.mp h.not_gt))
  rw [verifier, prover, Params.validate_of_ne_zero ht hs, hlimit]
  exact ⟨rfl, rfl⟩

end Outcomes

/-! ## The limit -/

/-- The soundness parameter is refused as too large. -/
def RefusedAsTooLarge {R : Type} (x : Except ProtocolError R) : Prop :=
  ∃ bits limit, x = .error (.soundness bits limit)

/-- How provers and verifiers in `g` are limited to fewer challenges than exponents. -/
structure EnforcesLimit (g : CurveGroup) (params : Params) : Prop where
  verifier_refused_iff :
    RefusedAsTooLarge (verifier g params) ↔ g.order < 2 ^ params.soundnessBits.toNat
  prover_refused_iff :
    RefusedAsTooLarge (prover g params) ↔ g.order < 2 ^ params.soundnessBits.toNat
  refusal : g.order < 2 ^ params.soundnessBits.toNat →
    verifier g params = .error (.soundness params.soundnessBits (bitLength g.order)) ∧
      prover g params = .error (.soundness params.soundnessBits (bitLength g.order))
  /-- Every verifier has at least as many exponents as challenges. -/
  verifier_built_iff :
    (∃ v, verifier g params = .ok v) ↔ 2 ^ params.soundnessBits.toNat ≤ g.order
  /-- Every prover has more. -/
  prover_built_iff :
    (∃ p, prover g params = .ok p) ↔
      2 ^ params.soundnessBits.toNat < g.order ∧ g.order % 2 = 1
  /-- For other orders than `2 ^ t`, for instance odd ones, the limit is as it should be. -/
  refused_iff_of_ne : g.order ≠ 2 ^ params.soundnessBits.toNat →
    (RefusedAsTooLarge (verifier g params) ↔ g.order ≤ 2 ^ params.soundnessBits.toNat) ∧
      (RefusedAsTooLarge (prover g params) ↔ g.order ≤ 2 ^ params.soundnessBits.toNat)
  /-- Where there are as many exponents as challenges, only the prover notices. -/
  built_of_eq : g.order = 2 ^ params.soundnessBits.toNat →
    verifier g params = .ok (.ofRole (verifierRole g params)) ∧
      prover g params = .error (.invalidStatement .evenOrder)

/-- **Provers have more exponents than challenges**, and verifiers have no fewer. -/
theorem enforcesLimit (g : CurveGroup) (params : Params) (ht : params.soundnessBits ≠ 0)
    (hs : params.lengthParameter ≠ 0) : EnforcesLimit g params := by
  have hpos : params.soundnessBits.toNat ≠ 0 :=
    fun h => ht (UInt32.toNat_inj.mp (h.trans UInt32.toNat_zero.symm))
  have heven : 2 ^ params.soundnessBits.toNat % 2 = 0 := by simp [Nat.pow_mod, hpos]
  obtain h | h := lt_or_ge g.order (2 ^ params.soundnessBits.toNat)
  · obtain ⟨hv, hp⟩ := refused_of_order_lt ht hs h
    have hvr : RefusedAsTooLarge (verifier g params) := ⟨_, _, hv⟩
    have hpr : RefusedAsTooLarge (prover g params) := ⟨_, _, hp⟩
    exact {
      verifier_refused_iff := iff_of_true hvr h
      prover_refused_iff := iff_of_true hpr h
      refusal := fun _ => ⟨hv, hp⟩
      verifier_built_iff := by simp [hv, h]
      prover_built_iff := by simp [hp, h.le]
      refused_iff_of_ne := fun _ => ⟨iff_of_true hvr h.le, iff_of_true hpr h.le⟩
      built_of_eq := fun heq => absurd h heq.not_lt }
  -- Here only `q = 2 ^ t` is left in question, which is even.
  · obtain ⟨hv, hp⟩ := built_of_le_order ht hs h
    have hvr : ¬ RefusedAsTooLarge (verifier g params) := by simp [RefusedAsTooLarge, hv]
    have hpr : ¬ RefusedAsTooLarge (prover g params) := by
      rw [RefusedAsTooLarge, hp]
      split <;> simp
    exact {
      verifier_refused_iff := iff_of_false hvr (not_lt.mpr h)
      prover_refused_iff := iff_of_false hpr (not_lt.mpr h)
      refusal := fun hlt => absurd hlt (not_lt.mpr h)
      verifier_built_iff := iff_of_true ⟨_, hv⟩ h
      prover_built_iff := by
        rw [hp]
        split
        · next heven => simp [heven]
        · next hodd =>
          have hne : 2 ^ params.soundnessBits.toNat ≠ g.order := fun heq => hodd (heq ▸ heven)
          exact iff_of_true ⟨_, rfl⟩ ⟨h.lt_of_ne hne, Nat.mod_two_ne_zero.mp hodd⟩
      refused_iff_of_ne := fun hne =>
        have hlt := not_le.mpr (h.lt_of_ne hne.symm)
        ⟨iff_of_false hvr hlt, iff_of_false hpr hlt⟩
      built_of_eq := fun heq => ⟨hv, by rw [hp, if_pos (heq ▸ heven)]⟩ }

/-- The order has 256 binary digits. -/
theorem enforcesLimit_secp256k1 :
    let g := CurveGroup.secp256k1
    (∃ v, verifier g ⟨80, 1⟩ = .ok v) ∧ (∃ p, prover g ⟨80, 1⟩ = .ok p) ∧
      verifier g ⟨256, 1⟩ = .error (.soundness 256 256) ∧
      prover g ⟨256, 1⟩ = .error (.soundness 256 256) := by
  intro g
  have hbuilt := enforcesLimit g ⟨80, 1⟩ (by decide) (by decide)
  have hrefused := enforcesLimit g ⟨256, 1⟩ (by decide) (by decide)
  have hdigits : bitLength g.order = 256 := by decide +kernel
  refine ⟨hbuilt.verifier_built_iff.mpr (by decide +kernel),
    hbuilt.prover_built_iff.mpr (by decide +kernel), ?_⟩
  have hrefusal := hrefused.refusal (by decide +kernel)
  rwa [hdigits] at hrefusal

/-! ## As many challenges as exponents -/

/-- Infinity and the point of order two on `y² + xy = x³ + x² + 1` over the field with 32
elements. -/
def twoPoints : BinaryGroupParams where
  curve := {
    name := "two points"
    m := 5
    basis := .trinomial 2
    a := 1
    b := 1
    generatorX := 0
    generatorY := 1
    order := 2
    cofactor := 11
    two_le_m := by decide
    basis_valid := by decide
    a_fits := by decide
    b_fits := by decide
    b_ne_zero := Nat.one_ne_zero
    generatorX_fits := by decide
    generatorY_fits := by decide
    one_lt_order := Nat.one_lt_two
    cofactor_ne_zero := by decide }
  koblitz := false
  koblitz_coefficients := nofun

/-- A table with these parameters. -/
def twoPointsTable : CurveTable := ⟨[("two points", {
  field := "F2m", m := some 5, k1 := some 2
  a := some "1"
  b := some "1"
  gx := some "0"
  gy := some "1"
  order := some "2"
  cofactor := some "b" })]⟩

/-- The parameters pass all checks of the table, and the generator is a member. -/
theorem ofTable_twoPoints :
    CurveGroup.ofTable twoPointsTable "two points" ⟨true⟩ = .ok (.binary twoPoints) := by
  have hparams : twoPointsTable.params "two points" = .ok (.binary twoPoints) := by
    decide +kernel
  have hgenerator : ¬ (true && !(CurveGroup.binary twoPoints).isMember
      (CurveGroup.binary twoPoints).generator) = true := by
    decide +kernel
  rw [CurveGroup.ofTable, CurveGroup.binaryParams, hparams]
  exact if_neg hgenerator

/-- A group with two elements, whose generator has been checked: the verifier that challenges with
one bit is built, and the prover is not refused on account of the bit. -/
theorem verifier_twoPoints :
    let g := CurveGroup.binary twoPoints
    CurveGroup.ofTable twoPointsTable "two points" ⟨true⟩ = .ok g ∧ g.order ≤ 2 ^ 1 ∧
      verifier g ⟨1, 1⟩ = .ok (.ofRole (verifierRole g ⟨1, 1⟩)) ∧
      ¬ RefusedAsTooLarge (verifier g ⟨1, 1⟩) ∧ ¬ RefusedAsTooLarge (prover g ⟨1, 1⟩) := by
  intro g
  have hverifier : verifier g ⟨1, 1⟩ = .ok (.ofRole (verifierRole g ⟨1, 1⟩)) := rfl
  have hprover : prover g ⟨1, 1⟩ = .error (.invalidStatement .evenOrder) :=
    (built_of_le_order (by decide) (by decide) le_rfl).2.trans (if_pos (by decide +kernel))
  refine ⟨ofTable_twoPoints, le_rfl, hverifier, ?_, ?_⟩
  · simp [RefusedAsTooLarge, hverifier]
  · simp [RefusedAsTooLarge, hprover]

end SigmaProtocol.DiscreteLog
