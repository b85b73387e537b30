import SigmaProtocol.Bytes.Range
import SigmaProtocol.Proofs.DiscreteLog.Roles
import SigmaProtocol.Proofs.Group.Lawful

/-!
# Special soundness of the proof of a discrete logarithm

Two answers to different challenges determine a multiple of the logarithm. The challenges differ
modulo the order, because both are below it, and the order is prime, so that the multiple can be
divided out. What makes the division legal in the group is that the statement is a member, and so
killed by the order like the generator.

* `DiscreteLog.smul_extract`: the division, in any commutative group.
* `DiscreteLog.powGenerator_extract`: what two accepted proofs give away is the logarithm.
-/

namespace SigmaProtocol.DiscreteLog

open CurveGroup

/-! ## Extraction -/

/-- The logarithm that the answers `z₁` and `z₂` to the challenges `e₁` and `e₂` give away. -/
def extract (q z₁ z₂ e₁ e₂ : Nat) : Nat :=
  (((z₁ : ZMod q) - z₂) * ((e₁ : ZMod q) - e₂)⁻¹).val

section Group

variable {A : Type} [AddCommGroup A] {q : Nat}

/-- Integer multiples of what `q` kills count modulo `q`. -/
theorem zsmul_eq_of_intCast_eq {x : A} (hx : q • x = 0) {m n : ℤ}
    (h : (m : ZMod q) = (n : ZMod q)) : m • x = n • x := by
  obtain ⟨k, hk⟩ := (ZMod.intCast_eq_intCast_iff_dvd_sub m n q).mp h
  have hzero : (n - m) • x = 0 := by
    rw [hk, mul_comm, mul_smul, natCast_zsmul, hx, smul_zero]
  rw [sub_smul, sub_eq_zero] at hzero
  exact hzero.symm

/-- The quotient of the differences takes `x` to `y`. Both are killed by `q`, so that the division
modulo `q` does no harm. -/
theorem smul_extract [Fact q.Prime] {x y a : A} (hx : q • x = 0) (hy : q • y = 0)
    {z₁ z₂ e₁ e₂ : Nat} (h₁ : z₁ • x = a + e₁ • y) (h₂ : z₂ • x = a + e₂ • y)
    (hne : (e₁ : ZMod q) - e₂ ≠ 0) : extract q z₁ z₂ e₁ e₂ • x = y := by
  -- The first message cancels.
  have hquotient : ((z₁ : ℤ) - z₂) • x = ((e₁ : ℤ) - e₂) • y := by
    simp only [sub_smul, natCast_zsmul, h₁, h₂]
    abel
  obtain ⟨d, hd⟩ : ∃ d : Nat, (d : ZMod q) = ((e₁ : ZMod q) - e₂)⁻¹ :=
    ⟨_, ZMod.natCast_zmod_val _⟩
  calc extract q z₁ z₂ e₁ e₂ • x
      = ((d : ℤ) * ((z₁ : ℤ) - z₂)) • x := by
        rw [← natCast_zsmul]
        refine zsmul_eq_of_intCast_eq hx ?_
        push_cast
        rw [extract, ZMod.natCast_zmod_val, hd, mul_comm]
    _ = ((d : ℤ) * ((e₁ : ℤ) - e₂)) • y := by rw [mul_smul, hquotient, mul_smul]
    _ = (1 : ℤ) • y := by
        refine zsmul_eq_of_intCast_eq hy ?_
        push_cast
        rw [hd, inv_mul_cancel₀ hne]
    _ = y := one_zsmul y

end Group

/-! ## Accepted proofs -/

variable {g : CurveGroup} {params : Params}

/-- An accepted proof, as an equation in the group. -/
theorem image_of_accepts {A : Type} [AddCommGroup A] {E : PointEmbedding A} (hg : g.Lawful E)
    {h p : Point} {a : Bytes} {z : Nat} {e : LimbNat} (hh : g.isMember h = true)
    (ha : g.ofBytes a = .ok p) (haccepts : accepts g h a z e = true) :
    z • E.image g.generator = E.image p + e.toNat • E.image h := by
  obtain ⟨-, p', ha', hequation⟩ := accepts_iff.mp haccepts
  obtain rfl : p = p' := Except.ok.inj (ha.symm.trans ha')
  obtain ⟨hon, himage⟩ := hg.powSecret hh e
  have hp := hg.on_of_isMember (hg.canonical.isMember_of_ofBytes ha)
  rw [← hg.image_powGenerator, hequation, hg.mul_eq, E.image_mul hp hon, himage]

/-- Different challenges differ modulo the order. -/
theorem exponent_sub_ne_zero {e₁ e₂ : Challenge}
    (hsoundness : params.soundnessBits.toNat < bitLength g.order)
    (he₁ : e₁.validate params.soundnessBits = .ok (.ok ()))
    (he₂ : e₂.validate params.soundnessBits = .ok (.ok ())) (hne : e₁ ≠ e₂) :
    (e₁.exponent.toNat : ZMod g.order) - e₂.exponent.toNat ≠ 0 := by
  have hle := two_pow_le_of_lt_bitLength hsoundness
  intro heq
  refine hne (Challenge.exponent_inj he₁ he₂ ?_)
  exact natCast_inj_of_lt ((Challenge.exponent_lt he₁).trans_le hle)
    ((Challenge.exponent_lt he₂).trans_le hle) (sub_eq_zero.mp heq)

/-- **Special soundness.** In a group of prime order, two proofs with the same first message that
are accepted under different challenges determine the logarithm of the statement. -/
theorem powGenerator_extract (hg : g.Supported) (hprime : g = .secp256k1 ∨ g.order.Prime)
    {v : Verifier Statement (Bytes × Nat)} (hv : verifier g params = .ok v) {h : Point} {a : Bytes}
    {z₁ z₂ : Nat} {e₁ e₂ : Challenge} (h₁ : v.Accepts ⟨h⟩ e₁ (.element a) (.integer z₁))
    (h₂ : v.Accepts ⟨h⟩ e₂ (.element a) (.integer z₂)) (hne : e₁ ≠ e₂) :
    IsUnit ((e₁.exponent.toNat : ZMod g.order) - e₂.exponent.toNat) ∧
      g.powGenerator (extract g.order z₁ z₂ e₁.exponent.toNat e₂.exponent.toNat) = h := by
  have := fact_prime_order hprime
  obtain ⟨hh, he₁, haccepts₁⟩ := accepts_of_accepts hv h₁
  obtain ⟨-, he₂, haccepts₂⟩ := accepts_of_accepts hv h₂
  have hsub := exponent_sub_ne_zero (soundnessBits_lt_of_verifier hv) he₁ he₂ hne
  refine ⟨isUnit_iff_ne_zero.mpr hsub, ?_⟩
  obtain ⟨A, _, E, hlawful⟩ := hg.lawful
  obtain ⟨-, p, ha, -⟩ := accepts_iff.mp haccepts₁
  have hgenerator := hlawful.isMember_iff.mp hlawful.isMember_generator
  refine E.image_injective (hlawful.on_of_isMember (hlawful.isMember_powGenerator _))
    (hlawful.on_of_isMember hh) ?_
  rw [hlawful.image_powGenerator]
  exact smul_extract hgenerator.2 (hlawful.isMember_iff.mp hh).2
    (image_of_accepts hlawful hh ha haccepts₁) (image_of_accepts hlawful hh ha haccepts₂) hsub

theorem powGenerator_extract_sevenPoints :
    let g := CurveGroup.binary sevenPoints
    let v := Verifier.ofRole (verifierRole g ⟨2, 1⟩)
    v.Accepts ⟨.affine 5 5⟩ ⟨[1]⟩ (.element [7, 7]) (.integer 1) ∧
      v.Accepts ⟨.affine 5 5⟩ ⟨[2]⟩ (.element [7, 7]) (.integer 4) ∧
        g.powGenerator (extract g.order 1 4 1 2) = .affine 5 5 := by
  have hv : verifier (binary sevenPoints) ⟨2, 1⟩ = .ok (.ofRole (verifierRole _ ⟨2, 1⟩)) := rfl
  have haccepts (e : Challenge) (z : Nat) (he : e.validate 2 = .ok (.ok ()))
      (h : accepts (binary sevenPoints) (.affine 5 5) [7, 7] z e.exponent = true) :
      (Verifier.ofRole (verifierRole (binary sevenPoints) ⟨2, 1⟩)).Accepts ⟨.affine 5 5⟩ e
        (.element [7, 7]) (.integer z) :=
    Verifier.accepts_ofRole_iff.mpr
      ⟨checkStatement_eq_ok_iff.mpr (by decide +kernel), he, _, rfl, accepts_verifierRole_iff.mpr h⟩
  have h₁ := haccepts ⟨[1]⟩ 1 (by decide) (by decide +kernel)
  have h₂ := haccepts ⟨[2]⟩ 4 (by decide) (by decide +kernel)
  have hone : (Challenge.mk [1]).exponent.toNat = 1 := by decide +kernel
  have htwo : (Challenge.mk [2]).exponent.toNat = 2 := by decide +kernel
  have hprime : (binary sevenPoints).order.Prime := by decide +kernel
  obtain ⟨-, hlog⟩ :=
    powGenerator_extract supported_sevenPoints (.inr hprime) hv h₁ h₂ (by decide)
  rw [hone, htwo] at hlog
  exact ⟨h₁, h₂, hlog⟩

end SigmaProtocol.DiscreteLog
