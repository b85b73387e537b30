import SigmaProtocol.Proofs.EncryptedZero.Roles
import SigmaProtocol.Proofs.Modular.Units
import SigmaProtocol.Proofs.Transcripts

/-!
# What an accepted proof of an encryption of zero determines

All three numbers of the equation `z ^ N = a * c ^ e` are units. So `z` determines `a` modulo
`n ^ (s + 1)`. Conversely `a` determines `z ^ N`, and then `z` modulo `n`, if `n` is coprime to the
number of units modulo `n`. The messages are reduced, hence equal if their residues are.

* `EncryptedZero.accepted_unique`: each message of an accepted proof determines the other, and a
  proof that is accepted under two challenges tells the order of the ciphertext.
-/

namespace SigmaProtocol.EncryptedZero

variable {n c a a' z z' e e' : Nat} {s : UInt32}

/-- The ciphertext is a unit, so that the answer determines the first message. -/
theorem first_eq_of_accepts (h : accepts (moduli n s) c a z e = true)
    (h' : accepts (moduli n s) c a' z e = true) : a = a' := by
  obtain ⟨ha, -, -, -, hc, heq⟩ := accepts_iff.mp h
  obtain ⟨ha', -, -, -, -, heq'⟩ := accepts_iff.mp h'
  have hunit : (n ^ (s.toNat + 1)).Coprime (c ^ e) := ((hc.pow_left e).pow_right _).symm
  have hmod : a ≡ a' [MOD n ^ (s.toNat + 1)] :=
    Nat.ModEq.cancel_right_of_coprime hunit (heq.symm.trans heq')
  exact hmod.eq_of_lt_of_lt ha ha'

/-- The first message determines the `N`-th power of the answer, and that its base. -/
theorem answer_eq_of_accepts (hn : n ≠ 0) (hcoprime : n.Coprime n.totient)
    (h : accepts (moduli n s) c a z e = true)
    (h' : accepts (moduli n s) c a z' e = true) : z = z' := by
  obtain ⟨-, hz, -, hunit, -, heq⟩ := accepts_iff.mp h
  obtain ⟨-, hz', -, hunit', -, heq'⟩ := accepts_iff.mp h'
  have hpow : z ^ n ^ s.toNat ≡ z' ^ n ^ s.toNat [MOD n] :=
    (heq.trans heq'.symm).of_dvd (dvd_pow_self n (Nat.succ_ne_zero _))
  exact (modEq_of_pow_pow hn hcoprime hunit hunit' hpow).eq_of_lt_of_lt hz hz'

theorem pow_dist_of_accepts (h : accepts (moduli n s) c a z e = true)
    (h' : accepts (moduli n s) c a z e' = true) :
    c ^ e.dist e' ≡ 1 [MOD n ^ (s.toNat + 1)] := by
  wlog hle : e ≤ e' generalizing e e'
  · rw [Nat.dist_comm]
    exact this h' h (by omega)
  obtain ⟨-, -, ha, -, hc, heq⟩ := accepts_iff.mp h
  obtain ⟨-, -, -, -, -, heq'⟩ := accepts_iff.mp h'
  have hunit : (n ^ (s.toNat + 1)).Coprime (a * c ^ e) :=
    ((ha.mul_left (hc.pow_left e)).pow_right _).symm
  refine Nat.ModEq.cancel_left_of_coprime hunit ?_
  calc a * c ^ e * c ^ e.dist e'
      = a * c ^ e' := by
        rw [Nat.dist_eq_sub_of_le hle, mul_assoc, ← pow_add, Nat.add_sub_cancel' hle]
    _ ≡ a * c ^ e [MOD n ^ (s.toNat + 1)] := heq'.symm.trans heq
    _ = a * c ^ e * 1 := (mul_one _).symm

/-- **Uniqueness.** Under any challenge each answer is accepted with one first message at most, and
each first message with one answer at most. If one proof is accepted under two challenges, then the
power of the ciphertext to their difference is one. -/
theorem accepted_unique (params : Params) {n : Nat} (hcoprime : n.Coprime n.totient) (c : Nat) :
    let accepted (e : Challenge) := (verifierRole params).acceptedProofs ⟨⟨n⟩, ⟨c⟩⟩ e
    (∀ {e : Challenge} {a a' z : Nat}, (a, z) ∈ accepted e → (a', z) ∈ accepted e → a = a') ∧
      (∀ {e : Challenge} {a z z' : Nat}, (a, z) ∈ accepted e → (a, z') ∈ accepted e → z = z') ∧
      ∀ {e e' : Challenge} {a z : Nat}, (a, z) ∈ accepted e → (a, z) ∈ accepted e' →
        c ^ e.exponent.toNat.dist e'.exponent.toNat ≡ 1
          [MOD n ^ (params.lengthParameter.toNat + 1)] := by
  intro accepted
  have haccepts {e : Challenge} {a z : Nat} (h : (a, z) ∈ accepted e) : 1 < n ∧
      accepts (moduli n params.lengthParameter) c a z e.exponent.toNat = true := by
    obtain ⟨m, hmoduli, h⟩ := accepts_verifierRole_iff.mp h
    obtain ⟨hn, -, -, rfl⟩ := moduli_eq_ok_iff.mp hmoduli
    exact ⟨hn, h⟩
  refine ⟨fun h h' => ?_, fun h h' => ?_, fun h h' => ?_⟩
  · exact first_eq_of_accepts (haccepts h).2 (haccepts h').2
  · have hn : n ≠ 0 := Nat.ne_zero_of_lt (haccepts h).1
    exact answer_eq_of_accepts hn hcoprime (haccepts h).2 (haccepts h').2
  · exact pow_dist_of_accepts (haccepts h).2 (haccepts h').2

/-- The ciphertext `1224` is `-1` modulo `35 ^ 2`, so that challenges of the same parity cannot be
told apart. -/
theorem accepted_unique_thirtyFive :
    let accepted (e : Challenge) := (verifierRole ⟨1, 1⟩).acceptedProofs ⟨⟨35⟩, ⟨1224⟩⟩ e
    (∀ a, (a, 2) ∈ accepted ⟨[1]⟩ → a = 1207) ∧ (∀ z, (1207, z) ∈ accepted ⟨[1]⟩ → z = 2) ∧
      1224 ^ 2 ≡ 1 [MOD 35 ^ 2] := by
  intro accepted
  have hcoprime : Nat.Coprime 35 (Nat.totient 35) := by decide
  obtain ⟨hfirst, hanswer, hpow⟩ := accepted_unique ⟨1, 1⟩ (n := 35) hcoprime 1224
  have hone : (1207, 2) ∈ accepted ⟨[1]⟩ := by
    show (verifierRole ⟨1, 1⟩).accepts ⟨⟨35⟩, ⟨1224⟩⟩ (1207, 2) ⟨[1]⟩ = .ok (.ok true)
    decide +kernel
  have hthree : (1207, 2) ∈ accepted ⟨[3]⟩ := by
    show (verifierRole ⟨1, 1⟩).accepts ⟨⟨35⟩, ⟨1224⟩⟩ (1207, 2) ⟨[3]⟩ = .ok (.ok true)
    decide +kernel
  refine ⟨fun a ha => hfirst ha hone, fun z hz => hanswer hz hone, ?_⟩
  have hdist : (Challenge.mk [1]).exponent.toNat.dist (Challenge.mk [3]).exponent.toNat = 2 := by
    decide +kernel
  have h := hpow hone hthree
  rwa [hdist] at h

end SigmaProtocol.EncryptedZero
