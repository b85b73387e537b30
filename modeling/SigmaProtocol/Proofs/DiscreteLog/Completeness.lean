import SigmaProtocol.Proofs.Completeness
import SigmaProtocol.Proofs.DiscreteLog.Roles
import SigmaProtocol.Proofs.Group.Lawful

/-!
# Completeness of the proof of a discrete logarithm

In a lawful group the response `z = r + e * w` satisfies `g ^ z = g ^ r * (g ^ w) ^ e`, whatever the
width of the exponents, and the first message is read back from its encoding.

* `DiscreteLog.completeness_of_powGenerator`: every honest run is accepted.
-/

namespace SigmaProtocol.DiscreteLog

open CurveGroup

variable {g : CurveGroup} {params : Params}

/-! ## The equation -/

/-- The width at which a nonce is held loses nothing of it. -/
theorem toNat_nonce {nonce : Nat} (h : nonce < g.order) :
    (LimbNat.ofNatWithLimbs (groupCount 64 (bitLength g.order)) nonce).toNat = nonce := by
  have hbits : bitLength nonce ≤ bitLength g.order :=
    bitLength_le_iff_lt.mpr (h.trans (lt_two_pow_bitLength g.order))
  rw [LimbNat.toNat_ofNatWithLimbs, Nat.mod_eq_of_lt]
  exact lt_two_pow_groupCount (by decide) hbits

/-- What the verifier computes from the answer. -/
theorem response_smul {A : Type} [AddCommGroup A] {E : PointEmbedding A} (hg : g.Lawful E)
    (nonce w e : Nat) : response g ⟨nonce, w % g.order⟩ e • E.image g.generator =
      nonce • E.image g.generator + e • w • E.image g.generator := by
  have hgenerator := hg.isMember_generator
  rw [response, hg.mod_smul_image hgenerator, add_smul, mul_smul, hg.mod_smul_image hgenerator]

theorem accepts_response {A : Type} [AddCommGroup A] {E : PointEmbedding A} (hg : g.Lawful E)
    {nonce : Nat} (hnonce : nonce < g.order) (w : Nat) (e : LimbNat) :
    accepts g (g.powGenerator w) (firstMessage g nonce)
      (response g ⟨nonce, w % g.order⟩ e.toNat) e = true := by
  have hgenerator := hg.isMember_generator
  have hzon := hg.on_of_isMember
    (hg.isMember_powGenerator (response g ⟨nonce, w % g.order⟩ e.toNat))
  obtain ⟨heon, he⟩ := hg.powSecret (hg.isMember_powGenerator w) e
  obtain ⟨haon, ha⟩ := hg.powSecret hgenerator
    (.ofNatWithLimbs (groupCount 64 (bitLength g.order)) nonce)
  rw [toNat_nonce hnonce] at ha
  rw [accepts, firstMessage, hg.canonical.ofBytes_toBytes (hg.isMember_powSecret hgenerator _)]
  simp only [Bool.and_eq_true, decide_eq_true_eq, beq_iff_eq, hg.mul_eq]
  refine ⟨Nat.mod_lt _ (Nat.zero_lt_of_lt hnonce), ?_⟩
  -- Both sides are points of the group, so that they may be compared by what they stand for.
  refine E.image_injective hzon (E.on_mul haon heon) ?_
  calc E.image (g.powGenerator (response g ⟨nonce, w % g.order⟩ e.toNat))
      = nonce • E.image g.generator + e.toNat • w • E.image g.generator := by
        rw [hg.image_powGenerator, response_smul hg]
    _ = E.image (E.mul _ (g.powSecret (g.powGenerator w) e)) := by
        rw [E.image_mul haon heon, ha, he, hg.image_powGenerator]

end SigmaProtocol.DiscreteLog
