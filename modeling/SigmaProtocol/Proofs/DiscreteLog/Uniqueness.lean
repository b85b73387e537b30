import SigmaProtocol.Proofs.DiscreteLog.Soundness

/-!
# Accepted proofs of a discrete logarithm cannot be altered

In the equation `g ^ z = a * h ^ e` each of `a`, `z` and `e` is determined by the other two, for
three reasons: the first message is the only encoding of its element, `z` is reduced modulo the
order of the generator, and challenges are less than the order of `h`.

* `DiscreteLog.rejects_altered`: what differs from an accepted proof in one place is rejected.
-/

namespace SigmaProtocol.DiscreteLog

open CurveGroup

variable {g : CurveGroup} {params : Params} {h : Point} {a a' : Bytes} {z z' : Nat}

section Lawful

variable {A : Type} [AddCommGroup A] {E : PointEmbedding A} (hg : g.Lawful E)
include hg

/-- The element is determined by the equation, and its encoding by the element. -/
theorem first_eq_of_accepts {e : LimbNat} (hh : g.isMember h = true)
    (haccepts : accepts g h a z e = true) (haccepts' : accepts g h a' z e = true) : a = a' := by
  obtain ⟨-, p, hp, -⟩ := accepts_iff.mp haccepts
  obtain ⟨-, p', hp', -⟩ := accepts_iff.mp haccepts'
  obtain ⟨hmember, rfl⟩ := hg.canonical.ofBytes_eq_ok_iff.mp hp
  obtain ⟨hmember', rfl⟩ := hg.canonical.ofBytes_eq_ok_iff.mp hp'
  have hsum : E.image p + e.toNat • E.image h = E.image p' + e.toNat • E.image h :=
    (image_of_accepts hg hh hp haccepts).symm.trans (image_of_accepts hg hh hp' haccepts')
  rw [E.image_injective (hg.on_of_isMember hmember) (hg.on_of_isMember hmember')
    (add_right_cancel hsum)]

/-- The generator has the order `q`, below which answers are. -/
theorem answer_eq_of_accepts [Fact g.order.Prime] {e : LimbNat} (hh : g.isMember h = true)
    (hgenerator : g.generator ≠ .infinity) (haccepts : accepts g h a z e = true)
    (haccepts' : accepts g h a z' e = true) : z = z' := by
  obtain ⟨hz, p, hp, -⟩ := accepts_iff.mp haccepts
  obtain ⟨hz', -⟩ := accepts_iff.mp haccepts'
  have hpower : z • E.image g.generator = z' • E.image g.generator :=
    (image_of_accepts hg hh hp haccepts).trans (image_of_accepts hg hh hp haccepts').symm
  have hmod := (hg.smul_image_eq_iff hg.isMember_generator hgenerator).mp hpower
  exact hmod.eq_of_lt_of_lt hz hz'

theorem challenge_modEq_of_accepts [Fact g.order.Prime] {e e' : LimbNat}
    (hh : g.isMember h = true) (hne : h ≠ .infinity) (haccepts : accepts g h a z e = true)
    (haccepts' : accepts g h a z e' = true) : e.toNat ≡ e'.toNat [MOD g.order] := by
  obtain ⟨-, p, hp, -⟩ := accepts_iff.mp haccepts
  have hsum : E.image p + e.toNat • E.image h = E.image p + e'.toNat • E.image h :=
    (image_of_accepts hg hh hp haccepts).symm.trans (image_of_accepts hg hh hp haccepts')
  exact (hg.smul_image_eq_iff hh hne).mp (add_left_cancel hsum)

end Lawful

/-- **Accepted proofs cannot be altered.** In a group of prime order, a proof of a statement other
than the identity that is accepted is rejected with any other first message, with any other answer
and under any other challenge. -/
theorem rejects_altered (hg : g.Supported) (hprime : g = .secp256k1 ∨ g.order.Prime)
    {v : Verifier Statement (Bytes × Nat)} (hv : verifier g params = .ok v) (hne : h ≠ .infinity)
    {e : Challenge} (haccepts : v.Accepts ⟨h⟩ e (.element a) (.integer z)) :
    (∀ a' : Bytes, a' ≠ a → v.Rejects ⟨h⟩ e (.element a') (.integer z)) ∧
      (∀ z' : Nat, z' ≠ z → v.Rejects ⟨h⟩ e (.element a) (.integer z')) ∧
      ∀ e' : Challenge, e'.validate params.soundnessBits = .ok (.ok ()) → e' ≠ e →
        v.Rejects ⟨h⟩ e' (.element a) (.integer z) := by
  have := fact_prime_order hprime
  obtain ⟨hh, he, haccepts⟩ := accepts_of_accepts hv haccepts
  obtain ⟨A, _, E, hlawful⟩ := hg.lawful
  refine ⟨fun a' ha' => ?_, fun z' hz' => ?_, fun e' he' hdiffers => ?_⟩
  · refine rejects_of_not_accepts hv hh he fun haltered => ha' ?_
    exact first_eq_of_accepts hlawful hh haltered haccepts
  · refine rejects_of_not_accepts hv hh he fun haltered => hz' ?_
    exact answer_eq_of_accepts hlawful hh hg.generator_ne_infinity haltered haccepts
  · refine rejects_of_not_accepts hv hh he' fun haltered => ?_
    have hmod := challenge_modEq_of_accepts hlawful hh hne haltered haccepts
    have hsub := exponent_sub_ne_zero (soundnessBits_lt_of_verifier hv) he' he hdiffers
    rw [← ZMod.natCast_eq_natCast_iff] at hmod
    exact hsub (sub_eq_zero.mpr hmod)

/-- A proof for `h = (5, 5)` with the answer raised by the order, and under another challenge. -/
theorem rejects_altered_sevenPoints :
    let g := CurveGroup.binary sevenPoints
    let v := Verifier.ofRole (verifierRole g ⟨2, 1⟩)
    v.Accepts ⟨.affine 5 5⟩ ⟨[1]⟩ (.element [7, 7]) (.integer 1) ∧
      v.Rejects ⟨.affine 5 5⟩ ⟨[1]⟩ (.element [0, 0]) (.integer 1) ∧
      v.Rejects ⟨.affine 5 5⟩ ⟨[1]⟩ (.element [7, 7]) (.integer 8) ∧
      v.Rejects ⟨.affine 5 5⟩ ⟨[2]⟩ (.element [7, 7]) (.integer 1) := by
  have hv : verifier (binary sevenPoints) ⟨2, 1⟩ = .ok (.ofRole (verifierRole _ ⟨2, 1⟩)) := rfl
  have haccepts : (Verifier.ofRole (verifierRole (binary sevenPoints) ⟨2, 1⟩)).Accepts
      ⟨.affine 5 5⟩ ⟨[1]⟩ (.element [7, 7]) (.integer 1) := by
    refine Verifier.accepts_ofRole_iff.mpr ⟨checkStatement_eq_ok_iff.mpr ?_, ?_, _, rfl, ?_⟩
    · decide +kernel
    · decide
    · exact accepts_verifierRole_iff.mpr (by decide +kernel)
  have hprime : (binary sevenPoints).order.Prime := by decide +kernel
  have hne : Point.affine 5 5 ≠ .infinity := nofun
  obtain ⟨hfirst, hanswer, hchallenge⟩ :=
    rejects_altered supported_sevenPoints (.inr hprime) hv hne haccepts
  exact ⟨haccepts, hfirst _ (by decide), hanswer 8 (by decide),
    hchallenge ⟨[2]⟩ (by decide) (by decide)⟩

end SigmaProtocol.DiscreteLog
