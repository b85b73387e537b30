import SigmaProtocol.Proofs.DiscreteLog.Completeness
import SigmaProtocol.Proofs.DiscreteLog.Soundness
import SigmaProtocol.Proofs.Transcripts

/-!
# Proofs of a discrete logarithm hide the logarithm

The answer `z = r + e * w` determines the nonce `r` modulo the order. Conversely, from an accepted
proof a nonce is had by subtracting `e * w` from `z`; that the first message belongs to it holds in
the group, and so it holds of the bytes, because no element has two encodings.

* `DiscreteLog.bijOn_transcript`: the nonces of a logarithm correspond one to one to the accepted
  proofs.
* `DiscreteLog.sendsTranscripts`: what the prover sends.
* `DiscreteLog.logarithm_hidden`: the messages of the prover say nothing about the logarithm.
-/

namespace SigmaProtocol.DiscreteLog

open CurveGroup

/-- The exponent `w`, reduced or not, is a logarithm of `h`. -/
def IsWitness (g : CurveGroup) (h : Point) (w : Nat) : Prop := g.powGenerator w = h

/-- The residues modulo the order. -/
def nonces (g : CurveGroup) : Set Nat := {r | r < g.order}

/-- The first message for the nonce `r`, and the answer with the witness `w` to the challenge
`e`. -/
def transcript (g : CurveGroup) (e w r : Nat) : Bytes × Nat :=
  (firstMessage g r, response g ⟨r, w % g.order⟩ e)

/-- The messages that hold a proof. -/
def messages (x : Bytes × Nat) : Message × Message := (.element x.1, .integer x.2)

variable {g : CurveGroup} {params : Params} {h : Point} {e w : Nat}

/-! ## Accepted proofs -/

/-- The nonce that an answer comes from. -/
theorem exists_add_mod_eq {q z : Nat} (k : Nat) (hz : z < q) : ∃ r < q, (r + k) % q = z := by
  have hpos : 0 < q := Nat.zero_lt_of_lt hz
  refine ⟨(z + (q - k % q)) % q, Nat.mod_lt _ hpos, ?_⟩
  have hk : k % q < q := Nat.mod_lt _ hpos
  have hsum : z + (q - k % q) + k % q = z + q := by omega
  rw [Nat.mod_add_mod, ← Nat.add_mod_mod, hsum, Nat.add_mod_right, Nat.mod_eq_of_lt hz]

theorem injOn_transcript : Set.InjOn (transcript g e w) (nonces g) := by
  intro r hr r' hr' heq
  have hanswer : response g ⟨r, w % g.order⟩ e = response g ⟨r', w % g.order⟩ e :=
    congrArg Prod.snd heq
  have hsum : r + e * (w % g.order) ≡ r' + e * (w % g.order) [MOD g.order] := hanswer
  exact (Nat.ModEq.add_right_cancel' _ hsum).eq_of_lt_of_lt hr hr'

/-- The bytes of an element that is a power of the generator are the first message for the
exponent. -/
theorem firstMessage_of_image {A : Type} [AddCommGroup A] {E : PointEmbedding A} (hg : g.Lawful E)
    {p : Point} {a : Bytes} {r : Nat} (hr : r < g.order) (ha : g.ofBytes a = .ok p)
    (himage : E.image p = r • E.image g.generator) : firstMessage g r = a := by
  obtain ⟨hon, hpower⟩ := hg.powSecret hg.isMember_generator
    (.ofNatWithLimbs (groupCount 64 (bitLength g.order)) r)
  rw [toNat_nonce hr, ← himage] at hpower
  obtain ⟨hp, hbytes⟩ := hg.canonical.ofBytes_eq_ok_iff.mp ha
  rw [firstMessage, E.image_injective hon (hg.on_of_isMember hp) hpower, hbytes]

/-- An accepted proof comes from the nonce that its answer determines. -/
theorem surjOn_transcript {A : Type} [AddCommGroup A] {E : PointEmbedding A} (hg : g.Lawful E)
    (e : LimbNat) (w : Nat) :
    Set.SurjOn (transcript g e.toNat w) (nonces g)
      {x | accepts g (g.powGenerator w) x.1 x.2 e = true} := by
  rintro ⟨a, z⟩ haccepts
  obtain ⟨hz, p, ha, -⟩ := accepts_iff.mp haccepts
  have hequation := image_of_accepts hg (hg.isMember_powGenerator w) ha haccepts
  rw [hg.image_powGenerator] at hequation
  obtain ⟨r, hr, hanswer⟩ := exists_add_mod_eq (e.toNat * (w % g.order)) hz
  refine ⟨r, hr, Prod.ext (firstMessage_of_image hg hr ha ?_) hanswer⟩
  have hsum : E.image p + e.toNat • w • E.image g.generator =
      r • E.image g.generator + e.toNat • w • E.image g.generator := by
    rw [← hequation, ← hanswer]
    exact response_smul hg r w e.toNat
  exact add_right_cancel hsum

theorem bijOn_transcript (hg : g.Supported) (e : Challenge) {w : Nat} (hw : IsWitness g h w) :
    Set.BijOn (transcript g e.exponent.toNat w) (nonces g)
      ((verifierRole g params).acceptedProofs ⟨h⟩ e) := by
  obtain ⟨A, _, E, hlawful⟩ := hg.lawful
  have hproofs : (verifierRole g params).acceptedProofs ⟨h⟩ e =
      {x | accepts g h x.1 x.2 e.exponent = true} := by
    ext x
    exact accepts_verifierRole_iff
  rw [hproofs, ← hw]
  refine ⟨?_, injOn_transcript, surjOn_transcript hlawful e.exponent w⟩
  intro r hr
  exact accepts_response hlawful hr w e.exponent

/-! ## Provers -/

/-- What a prover sends under a valid challenge. -/
theorem sendsTranscripts {p₀ p : Prover ProverInput Secrets} {e : Challenge}
    (hp₀ : prover g params = .ok p₀) (hp : Reaches Prover.call p₀ p)
    (he : e.validate params.soundnessBits = .ok (.ok ())) (h : Point) (w : LimbNat) :
    p.SendsTranscripts ⟨⟨h⟩, w⟩ e (Sampler.residueTopFirst g.order fun _ => true) (nonces g)
      fun r => messages (transcript g e.exponent.toNat w.toNat r) := by
  rw [prover_eq_ok hp₀] at hp
  have hdraw {r : Nat} : (∃ stream rest,
      Sampler.residueTopFirst g.order (fun _ => true) stream = .ok (r, rest)) ↔ r ∈ nonces g := by
    rw [Sampler.exists_residueTopFirst_iff, and_iff_left rfl]
    rfl
  -- The messages are read off from `commit`, not from the goal.
  exact (Prover.sendsTranscripts_of_role ⟨⟨h⟩, w⟩ hp he hdraw commit_eq_ok_iff :)

/-- **The logarithm is hidden.** For each logarithm of a statement, the nonces correspond one to one
to the proofs that the verifier accepts, and what the prover sends are the messages for its
nonce. -/
theorem logarithm_hidden (hg : g.Supported) (params : Params) (h : Point) (e : Challenge) :
    HidesWitness (IsWitness g h) (nonces g) (transcript g e.exponent.toNat)
        ((verifierRole g params).acceptedProofs ⟨h⟩ e) ∧
      ∀ {p₀ p : Prover ProverInput Secrets}, prover g params = .ok p₀ →
        Reaches Prover.call p₀ p → e.validate params.soundnessBits = .ok (.ok ()) → ∀ w : LimbNat,
          p.SendsTranscripts ⟨⟨h⟩, w⟩ e (Sampler.residueTopFirst g.order fun _ => true) (nonces g)
            fun r => messages (transcript g e.exponent.toNat w.toNat r) := by
  refine ⟨hidesWitness_of_bijOn fun hw => bijOn_transcript hg e hw, ?_⟩
  intro p₀ p hp₀ hp he w
  exact sendsTranscripts hp₀ hp he h w

/-- The logarithms `3` and `10` of one element, in a group of order `7`. -/
theorem logarithm_hidden_sevenPoints :
    let g := CurveGroup.binary sevenPoints
    let e : Challenge := ⟨[1]⟩
    (∀ x, {r ∈ nonces g | transcript g e.exponent.toNat 3 r = x}.encard =
      {r ∈ nonces g | transcript g e.exponent.toNat 10 r = x}.encard) ∧
    {r ∈ nonces g | transcript g e.exponent.toNat 10 r = (g.toBytes g.generator, 4)}.encard = 1 ∧
    (Prover.ofRole (proverRole g ⟨2, 1⟩)).SendsTranscripts ⟨⟨g.powGenerator 3⟩, .ofNat 10⟩ e
      (Sampler.residueTopFirst g.order fun _ => true) (nonces g)
      fun r => messages (transcript g e.exponent.toNat 10 r) := by
  intro g e
  obtain ⟨hhides, hprovers⟩ :=
    logarithm_hidden supported_sevenPoints ⟨2, 1⟩ (g.powGenerator 3) e
  have hthree : IsWitness g (g.powGenerator 3) 3 := rfl
  have hten : IsWitness g (g.powGenerator 3) 10 := by
    show g.powGenerator 10 = g.powGenerator 3
    decide +kernel
  have haccepted : accepts g (g.powGenerator 3) (g.toBytes g.generator) 4 e.exponent = true := by
    decide +kernel
  refine ⟨fun x => hhides.encard_eq x hthree hten,
    hhides.encard_of_mem hten (accepts_verifierRole_iff.mpr haccepted), ?_⟩
  have hsends := hprovers rfl (.refl _) (by decide) (.ofNat 10)
  rwa [LimbNat.toNat_ofNat] at hsends

end SigmaProtocol.DiscreteLog
