import SigmaProtocol.Proofs.Run

/-!
# What honest provers send

An honest prover draws a nonce from its stream of random bytes, and the nonce, the witness and the
challenge determine its two messages. The messages hide the witness if, for each witness, the nonces
correspond one to one to the proofs that the verifier accepts: those depend on the statement alone.

* `Prover.sends_iff`: what a prover sends, from its role.
* `Prover.sendsTranscripts_of_role`: a prover whose role draws a nonce and commits to it.
* `hidesWitness_of_bijOn`: how many nonces there are behind two messages.
-/

namespace SigmaProtocol

/-- What the accepted proofs of a statement hold, under a challenge. -/
def VerifierRole.acceptedProofs {S T : Type} (role : VerifierRole S T) (statement : S)
    (e : Challenge) : Set T :=
  {x | role.accepts statement x e = .ok (.ok true)}

/-! ## Provers -/

namespace Prover

variable {I P : Type} {p : Prover I P} {input : I} {e : Challenge} {stream : Bytes}
  {x : Message × Message}

/-- With the randomness in `stream` the prover sends the first message `x.1`, and the answer `x.2`
to the challenge `e`. -/
def Sends (p : Prover I P) (input : I) (e : Challenge) (stream : Bytes) (x : Message × Message) :
    Prop :=
  ∃ p' rest, p.firstMessage input stream = .ok ((.ok x.1, p'), rest) ∧ p'.Answers e x.2

/-- What a prover sends, from its role: the secrets behind the first message give the answer. -/
theorem sends_iff (he : e.validate p.role.soundnessBits = .ok (.ok ())) :
    p.Sends input e stream x ↔
      ∃ secrets rest, p.role.commit input stream = .ok (.ok (x.1, secrets), rest) ∧
        p.role.answer secrets e = x.2 := by
  have hanswers (secrets : P) : ({ p with pending := some secrets } : Prover I P).Answers e x.2 ↔
      p.role.answer secrets e = x.2 :=
    answers_iff rfl he
  constructor
  · rintro ⟨p', rest, hfirst, hsecond⟩
    obtain ⟨outcome, hcommit, heffect⟩ := firstMessage_eq_ok hfirst
    rcases outcome with error | ⟨first, secrets⟩
    · cases heffect.1
    · obtain ⟨hreply, rfl⟩ := heffect
      obtain rfl := Except.ok.inj hreply
      exact ⟨secrets, rest, hcommit, (hanswers secrets).mp hsecond⟩
  · rintro ⟨secrets, rest, hcommit, hsecond⟩
    refine ⟨{ p with pending := some secrets }, rest, ?_, ?_⟩
    · exact firstMessage_of_commit hcommit
    · exact (hanswers secrets).mpr hsecond

/-- The prover draws a nonce and sends the messages that belong to it. -/
structure SendsTranscripts (p : Prover I P) (input : I) (e : Challenge) (draw : Sampler Nat)
    (nonces : Set Nat) (messages : Nat → Message × Message) : Prop where
  /-- The nonces are the numbers that are drawn from some stream. -/
  drawn_iff : ∀ {σ : Nat}, (∃ stream rest, draw stream = .ok (σ, rest)) ↔ σ ∈ nonces
  /-- What is sent on a stream are the messages for the nonce that is drawn from it. -/
  sends_iff : ∀ {stream : Bytes} {x : Message × Message}, p.Sends input e stream x ↔
    ∃ σ rest, draw stream = .ok (σ, rest) ∧ messages σ = x

/-- A prover whose role draws a nonce and commits to it sends the messages for that nonce. -/
theorem sendsTranscripts_of_role (input : I) {role : ProverRole I P}
    (hp : Reaches call (ofRole role) p) (he : e.validate role.soundnessBits = .ok (.ok ()))
    {draw : Sampler Nat} {nonces : Set Nat} {first : Nat → Message} {secrets : Nat → P}
    (hdraw : ∀ {σ}, (∃ stream rest, draw stream = .ok (σ, rest)) ↔ σ ∈ nonces)
    (hcommit : ∀ {stream rest outcome}, role.commit input stream = .ok (outcome, rest) ↔
      ∃ σ, draw stream = .ok (σ, rest) ∧ outcome = .ok (first σ, secrets σ)) :
    p.SendsTranscripts input e draw nonces fun σ => (first σ, role.answer (secrets σ) e) := by
  obtain rfl : p.role = role := role_of_reaches hp
  refine ⟨hdraw, fun {stream x} => ?_⟩
  rw [sends_iff he]
  constructor
  · rintro ⟨secrets', rest, hx, hanswer⟩
    obtain ⟨σ, hσ, houtcome⟩ := hcommit.mp hx
    obtain ⟨hfirst, rfl⟩ := Prod.mk.inj (Except.ok.inj houtcome)
    exact ⟨σ, rest, hσ, Prod.ext hfirst.symm hanswer⟩
  · rintro ⟨σ, rest, hσ, rfl⟩
    exact ⟨secrets σ, rest, hcommit.mpr ⟨σ, hσ, rfl⟩, rfl⟩

end Prover

/-! ## Witnesses -/

section Witness

variable {W T : Type} {IsWitness : W → Prop} {nonces : Set Nat} {transcript : W → Nat → T}
  {accepted : Set T}

/-- What is sent for the nonces says nothing about the witness. -/
structure HidesWitness (IsWitness : W → Prop) (nonces : Set Nat) (transcript : W → Nat → T)
    (accepted : Set T) : Prop where
  /-- The nonces correspond one to one to the accepted proofs. -/
  bijOn : ∀ {w : W}, IsWitness w → Set.BijOn (transcript w) nonces accepted
  /-- Behind an accepted proof there is exactly one nonce. -/
  encard_of_mem : ∀ {w : W} {x : T}, IsWitness w → x ∈ accepted →
    {σ ∈ nonces | transcript w σ = x}.encard = 1
  /-- Behind any other messages there is none. -/
  encard_of_notMem : ∀ {w : W} {x : T}, IsWitness w → x ∉ accepted →
    {σ ∈ nonces | transcript w σ = x}.encard = 0
  /-- How many there are is the same for any two witnesses. -/
  encard_eq : ∀ {w w' : W} (x : T), IsWitness w → IsWitness w' →
    {σ ∈ nonces | transcript w σ = x}.encard = {σ ∈ nonces | transcript w' σ = x}.encard

/-- One nonce for each accepted proof and none for other messages, whatever the witness is. -/
theorem hidesWitness_of_bijOn
    (h : ∀ {w}, IsWitness w → Set.BijOn (transcript w) nonces accepted) :
    HidesWitness IsWitness nonces transcript accepted := by
  have hone {w : W} {x : T} (hw : IsWitness w) (hx : x ∈ accepted) :
      {σ ∈ nonces | transcript w σ = x}.encard = 1 := by
    obtain ⟨σ, hσ, hσx⟩ := (h hw).surjOn hx
    rw [Set.encard_eq_one]
    refine ⟨σ, Set.eq_singleton_iff_unique_mem.mpr ⟨⟨hσ, hσx⟩, ?_⟩⟩
    rintro τ ⟨hτ, hτx⟩
    exact (h hw).injOn hτ hσ (hτx.trans hσx.symm)
  have hnone {w : W} {x : T} (hw : IsWitness w) (hx : x ∉ accepted) :
      {σ ∈ nonces | transcript w σ = x}.encard = 0 := by
    rw [Set.encard_eq_zero, Set.eq_empty_iff_forall_notMem]
    rintro σ ⟨hσ, rfl⟩
    exact hx ((h hw).mapsTo hσ)
  refine ⟨h, hone, hnone, fun x hw hw' => ?_⟩
  by_cases hx : x ∈ accepted
  · rw [hone hw hx, hone hw' hx]
  · rw [hnone hw hx, hnone hw' hx]

end Witness

end SigmaProtocol
