import SigmaProtocol.Proofs.EncryptedZero.Completeness
import SigmaProtocol.Proofs.Transcripts

/-!
# Proofs of an encryption of zero hide the randomness

The answer `z = σ * r ^ e` determines the nonce `σ`, because the witness `r` is a unit modulo `n`.
Conversely, from an accepted proof a nonce is had by dividing `z` by `r ^ e`; that the first message
belongs to it is a congruence modulo `n`, lifted to one modulo `n ^ (s + 1)`.

* `EncryptedZero.bijOn_transcript`: the nonces of a witness correspond one to one to the accepted
  proofs.
* `EncryptedZero.sendsTranscripts`: what the prover sends.
* `EncryptedZero.randomness_hidden`: the messages of the prover say nothing about its witness.
-/

namespace SigmaProtocol.EncryptedZero

/-- The randomness `r`, reduced or not, is a unit that encrypts zero to `c`. -/
def IsWitness (n s c r : Nat) : Prop := r.Coprime n ∧ c ≡ r ^ n ^ s [MOD n ^ (s + 1)]

/-- The units modulo `n`. -/
def nonces (n : Nat) : Set Nat := {σ | 0 < σ ∧ σ < n ∧ σ.Coprime n}

/-- The first message for the nonce `σ`, and the answer with the witness `r` to the challenge
`e`. -/
def transcript (m : Moduli) (e r σ : Nat) : Nat × Nat :=
  (firstMessage m σ, response ⟨σ, r % m.n, m.n⟩ e)

/-- The messages that hold a proof. -/
def messages (x : Nat × Nat) : Message × Message := (.integer x.1, .integer x.2)

variable {params : Params} {n c r e : Nat} {s : UInt32}

/-! ## Accepted proofs -/

theorem mem_nonces_iff {σ : Nat} (hn : 1 < n) : σ ∈ nonces n ↔ σ < n ∧ σ.Coprime n := by
  constructor
  · rintro ⟨-, hσ, hunit⟩
    exact ⟨hσ, hunit⟩
  · rintro ⟨hσ, hunit⟩
    refine ⟨Nat.pos_of_ne_zero fun h => ?_, hσ, hunit⟩
    rw [h, Nat.coprime_zero_left] at hunit
    omega

/-- Only the residue of the ciphertext counts. -/
theorem accepts_mod (s : UInt32) (c a z e : Nat) :
    accepts (moduli n s) (c % n ^ (s.toNat + 1)) a z e = accepts (moduli n s) c a z e := by
  have hdvd : n ∣ n ^ (s.toNat + 1) := dvd_pow_self n (Nat.succ_ne_zero _)
  have hright : a * (c % n ^ (s.toNat + 1)) ^ e ≡ a * c ^ e [MOD n ^ (s.toNat + 1)] :=
    ((Nat.mod_modEq c _).pow e).mul_left a
  rw [Bool.eq_iff_iff, accepts_iff, accepts_iff, coprime_mod_iff hdvd]
  constructor
  · rintro ⟨ha, hz, ha', hz', hc, heq⟩
    exact ⟨ha, hz, ha', hz', hc, heq.trans hright⟩
  · rintro ⟨ha, hz, ha', hz', hc, heq⟩
    exact ⟨ha, hz, ha', hz', hc, heq.trans hright.symm⟩

theorem mapsTo_transcript (hn : 1 < n) (hr : IsWitness n s.toNat c r) :
    Set.MapsTo (transcript (moduli n s) e r) (nonces n)
      {x | accepts (moduli n s) c x.1 x.2 e = true} := by
  rintro σ ⟨-, -, hunit⟩
  show accepts (moduli n s) c (firstMessage _ σ) (response ⟨σ, r % n, n⟩ e) e = true
  rw [← accepts_mod, hr.2, accepts_response hn hunit s r e, decide_eq_true hr.1]

/-- The witness cancels modulo `n`, so that the answer determines the nonce. -/
theorem injOn_transcript (hr : r.Coprime n) :
    Set.InjOn (transcript (moduli n s) e r) (nonces n) := by
  rintro σ ⟨-, hσ, -⟩ τ ⟨-, hτ, -⟩ h
  have hanswer : response ⟨σ, r % n, n⟩ e = response ⟨τ, r % n, n⟩ e := congrArg Prod.snd h
  have hmul : σ * r ^ e ≡ τ * r ^ e [MOD n] := by
    have hleft := response_modEq σ r n e
    rw [hanswer] at hleft
    exact hleft.symm.trans (response_modEq τ r n e)
  have hmod : σ ≡ τ [MOD n] := hmul.cancel_right_of_coprime (hr.pow_left e).symm
  exact hmod.eq_of_lt_of_lt hσ hτ

/-- The nonce that an answer comes from. -/
theorem exists_nonce {z : Nat} (hn : 1 < n) (hr : r.Coprime n) (hz : z.Coprime n) :
    ∃ σ ∈ nonces n, σ * r ^ e ≡ z [MOD n] := by
  obtain ⟨u, -, hu⟩ := Nat.exists_mul_mod_eq_one_of_coprime (hr.pow_left e) hn
  have hinv : r ^ e * u ≡ 1 [MOD n] := by
    rw [Nat.ModEq, hu, Nat.mod_eq_of_lt hn]
  have hunit : (z * u % n).Coprime n := by
    have hu' : (r ^ e * u).Coprime n := by
      rw [Nat.Coprime, hinv.gcd_eq, Nat.gcd_one_left]
    rw [coprime_mod_iff dvd_rfl]
    exact hz.mul_left (Nat.Coprime.coprime_mul_left hu')
  refine ⟨z * u % n, (mem_nonces_iff hn).mpr ⟨Nat.mod_lt _ (Nat.zero_lt_of_lt hn), hunit⟩, ?_⟩
  calc z * u % n * r ^ e
      ≡ z * u * r ^ e [MOD n] := (Nat.mod_modEq _ _).mul_right _
    _ = z * (r ^ e * u) := by ring
    _ ≡ z * 1 [MOD n] := hinv.mul_left z
    _ = z := mul_one z

/-- An accepted proof comes from the nonce that its answer determines. Its first message is the one
for that nonce, because the ciphertext cancels. -/
theorem surjOn_transcript (hn : 1 < n) (hr : IsWitness n s.toNat c r) :
    Set.SurjOn (transcript (moduli n s) e r) (nonces n)
      {x | accepts (moduli n s) c x.1 x.2 e = true} := by
  rintro ⟨a, z⟩ haccepts
  obtain ⟨ha, hz, -, hzunit, hcunit, heq⟩ := accepts_iff.mp haccepts
  obtain ⟨σ, hσ, hanswer⟩ := exists_nonce (e := e) hn hr.1 hzunit
  refine ⟨σ, hσ, Prod.ext ?_ ?_⟩
  · have hlift : σ ^ n ^ s.toNat * c ^ e ≡ a * c ^ e [MOD n ^ (s.toNat + 1)] := by
      calc σ ^ n ^ s.toNat * c ^ e
          ≡ σ ^ n ^ s.toNat * (r ^ n ^ s.toNat) ^ e [MOD n ^ (s.toNat + 1)] :=
            (hr.2.pow e).mul_left _
        _ = (σ * r ^ e) ^ n ^ s.toNat := by ring
        _ ≡ z ^ n ^ s.toNat [MOD n ^ (s.toNat + 1)] := modEq_pow_pow hanswer s.toNat
        _ ≡ a * c ^ e [MOD n ^ (s.toNat + 1)] := heq
    have hfirst : σ ^ n ^ s.toNat ≡ a [MOD n ^ (s.toNat + 1)] :=
      hlift.cancel_right_of_coprime ((hcunit.pow_left e).pow_right _).symm
    show firstMessage (moduli n s) σ = a
    rw [firstMessage, powMod_eq, moduli, hfirst, Nat.mod_eq_of_lt ha]
  · show response ⟨σ, r % n, n⟩ e = z
    have hmod : response ⟨σ, r % n, n⟩ e ≡ z [MOD n] := (response_modEq σ r n e).trans hanswer
    exact hmod.eq_of_lt_of_lt (Nat.mod_lt _ (Nat.zero_lt_of_lt hn)) hz

/-- What the verifier accepts for a statement is decided by the equation. -/
theorem acceptedProofs_eq (hn : 1 < n) (hodd : n % 2 = 1)
    (hlength : params.lengthParameter.toNat + 1 < 2 ^ 32) (e : Challenge) :
    (verifierRole params).acceptedProofs ⟨⟨n⟩, ⟨c⟩⟩ e =
      {x | accepts (moduli n params.lengthParameter) c x.1 x.2 e.exponent.toNat = true} := by
  have hmoduli : Statement.moduli ⟨⟨n⟩, ⟨c⟩⟩ params.lengthParameter =
      .ok (.ok (moduli n params.lengthParameter)) :=
    moduli_eq_ok_iff.mpr ⟨hn, hodd, hlength, rfl⟩
  ext x
  show (verifierRole params).accepts ⟨⟨n⟩, ⟨c⟩⟩ x e = .ok (.ok true) ↔ _
  rw [accepts_of_moduli hmoduli, Except.ok.injEq, Except.ok.injEq]
  rfl

theorem bijOn_transcript (hn : 1 < n) (hodd : n % 2 = 1)
    (hlength : params.lengthParameter.toNat + 1 < 2 ^ 32) (e : Challenge)
    (hr : IsWitness n params.lengthParameter.toNat c r) :
    Set.BijOn (transcript (moduli n params.lengthParameter) e.exponent.toNat r) (nonces n)
      ((verifierRole params).acceptedProofs ⟨⟨n⟩, ⟨c⟩⟩ e) := by
  rw [acceptedProofs_eq hn hodd hlength]
  exact ⟨mapsTo_transcript hn hr, injOn_transcript hr.1, surjOn_transcript hn hr⟩

/-! ## Provers -/

/-- What a prover sends under a valid challenge, if it takes the statement. -/
theorem sendsTranscripts {p₀ p : Prover ProverInput Secrets} {e : Challenge}
    (hp₀ : prover params = .ok p₀) (hp : Reaches Prover.call p₀ p) (hn : 1 < n)
    (hodd : n % 2 = 1) (hlength : params.lengthParameter.toNat + 1 < 2 ^ 32)
    (hbits : params.soundnessBits.toNat < bitLength n / 3)
    (he : e.validate params.soundnessBits = .ok (.ok ())) (c : Nat) (r : LimbNat) :
    p.SendsTranscripts ⟨⟨⟨n⟩, ⟨c⟩⟩, r⟩ e (Sampler.unitTopFirst n) (nonces n) fun σ =>
      messages (transcript (moduli n params.lengthParameter) e.exponent.toNat r.toNat σ) := by
  rw [prover_eq_ok hp₀] at hp
  let input : ProverInput := ⟨⟨⟨n⟩, ⟨c⟩⟩, r⟩
  have hcheck : input.common.check params = .ok (.ok (moduli n params.lengthParameter)) :=
    check_eq_ok_iff.mpr ⟨hn, hodd, hlength, hbits, rfl⟩
  have hdraw {σ : Nat} :
      (∃ stream rest, Sampler.unitTopFirst n stream = .ok (σ, rest)) ↔ σ ∈ nonces n := by
    unfold Sampler.unitTopFirst
    rw [mem_nonces_iff hn, Sampler.exists_residueTopFirst_iff, beq_iff_eq]
  -- The messages are read off from `commit`, not from the goal.
  exact (Prover.sendsTranscripts_of_role input hp he hdraw (commit_eq_ok_iff hcheck) :)

/-- **The randomness is hidden.** For each witness of a statement, the nonces correspond one to one
to the proofs that the verifier accepts, and what the prover sends are the messages for its
nonce. -/
theorem randomness_hidden (params : Params) {n : Nat} (hn : 1 < n) (hodd : n % 2 = 1)
    (hlength : params.lengthParameter.toNat + 1 < 2 ^ 32) (c : Nat) (e : Challenge) :
    HidesWitness (IsWitness n params.lengthParameter.toNat c) (nonces n)
        (transcript (moduli n params.lengthParameter) e.exponent.toNat)
        ((verifierRole params).acceptedProofs ⟨⟨n⟩, ⟨c⟩⟩ e) ∧
      ∀ {p₀ p : Prover ProverInput Secrets}, prover params = .ok p₀ →
        Reaches Prover.call p₀ p → params.soundnessBits.toNat < bitLength n / 3 →
          e.validate params.soundnessBits = .ok (.ok ()) → ∀ r : LimbNat,
            p.SendsTranscripts ⟨⟨⟨n⟩, ⟨c⟩⟩, r⟩ e (Sampler.unitTopFirst n) (nonces n) fun σ =>
              messages
                (transcript (moduli n params.lengthParameter) e.exponent.toNat r.toNat σ) := by
  refine ⟨hidesWitness_of_bijOn fun hr => bijOn_transcript hn hodd hlength e hr, ?_⟩
  intro p₀ p hp₀ hp hbits he r
  exact sendsTranscripts hp₀ hp hn hodd hlength hbits he c r

/-- The `39`th powers of `1` and `16` are the same modulo `39 ^ 2`. -/
theorem randomness_hidden_thirtyNine :
    let m := moduli 39 1
    let e : Challenge := ⟨[1]⟩
    (∀ x, {σ ∈ nonces 39 | transcript m e.exponent.toNat 1 σ = x}.encard =
      {σ ∈ nonces 39 | transcript m e.exponent.toNat 16 σ = x}.encard) ∧
    {σ ∈ nonces 39 | transcript m e.exponent.toNat 16 σ = (firstMessage m 2, 2)}.encard = 1 ∧
    (Prover.ofRole (proverRole ⟨1, 1⟩)).SendsTranscripts ⟨⟨⟨39⟩, ⟨1⟩⟩, .ofNat 16⟩ e
      (Sampler.unitTopFirst 39) (nonces 39)
      fun σ => messages (transcript m e.exponent.toNat 16 σ) := by
  intro m e
  have hlength : (1 : UInt32).toNat + 1 < 2 ^ 32 := by decide
  obtain ⟨hhides, hprovers⟩ :=
    randomness_hidden ⟨1, 1⟩ (n := 39) (by decide) (by decide) hlength 1 e
  have hone : IsWitness 39 1 1 1 := ⟨by decide, by decide⟩
  have hsixteen : IsWitness 39 1 1 16 := ⟨by decide, by decide⟩
  have haccepted :
      (verifierRole ⟨1, 1⟩).accepts ⟨⟨39⟩, ⟨1⟩⟩ (firstMessage m 2, 2) e = .ok (.ok true) := by
    decide +kernel
  refine ⟨fun x => hhides.encard_eq x hone hsixteen, hhides.encard_of_mem hsixteen haccepted, ?_⟩
  have hsends := hprovers rfl (.refl _) (by decide) rfl (.ofNat 16)
  rwa [LimbNat.toNat_ofNat] at hsends

end SigmaProtocol.EncryptedZero
