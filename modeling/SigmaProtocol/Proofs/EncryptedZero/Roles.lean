import SigmaProtocol.EncryptedZero.Protocol
import SigmaProtocol.Proofs.DamgardJurik
import SigmaProtocol.Proofs.Random

/-!
# What the roles of the encrypted-zero proof check

* `EncryptedZero.check_eq_ok_iff`: which statements are taken.
* `EncryptedZero.accepts_iff`: which proofs are accepted.
* `EncryptedZero.nonce_of_commit`: what a first message commits to.
-/

namespace SigmaProtocol.EncryptedZero

open DamgardJurik

variable {params : Params}

theorem prover_eq_ok {p : Prover ProverInput Secrets} (h : prover params = .ok p) :
    p = .ofRole (proverRole params) := by
  obtain ⟨_, -, h⟩ := except_bind_eq_ok.mp h
  exact (Except.ok.inj h).symm

theorem verifier_eq_ok {v : Verifier Statement (Nat × Nat)} (h : verifier params = .ok v) :
    v = .ofRole (verifierRole params) := by
  obtain ⟨_, -, h⟩ := except_bind_eq_ok.mp h
  exact (Except.ok.inj h).symm

/-! ## Statements -/

/-- The exponent of the ciphertext modulus is a word for all `s` but the largest. -/
theorem ciphertextModulus_of_lt {n : Nat} {s : UInt32} (h : s.toNat + 1 < 2 ^ 32) :
    PublicKey.ciphertextModulus ⟨n⟩ s = .ok (n ^ (s.toNat + 1)) := by
  obtain ⟨w, hw, hsum⟩ := Word.exists_add_of_lt (b := 1) h
  refine except_bind_eq_ok.mpr ⟨w, hw, ?_⟩
  rw [hsum]
  rfl

theorem ciphertextModulus_of_le {n : Nat} {s : UInt32} (h : 2 ^ 32 ≤ s.toNat + 1) :
    PublicKey.ciphertextModulus ⟨n⟩ s = .error .overflow :=
  except_bind_of_error (Word.add_of_le (b := 1) h)

/-- The moduli for the public key `n`. -/
def moduli (n : Nat) (s : UInt32) : Moduli := ⟨n, n ^ s.toNat, n ^ (s.toNat + 1)⟩

/-- What comes of a public key that passes the check. -/
theorem moduli_of_odd {statement : Statement} {s : UInt32}
    (hn : 1 < statement.publicKey.modulus) (hodd : statement.publicKey.modulus % 2 = 1) :
    statement.moduli s = do
      return .ok ⟨statement.publicKey.modulus, statement.publicKey.plaintextModulus s,
        ← statement.publicKey.ciphertextModulus s⟩ := by
  have heven : ¬ statement.publicKey.modulus % 2 = 0 := by omega
  rw [Statement.moduli, if_neg hn.not_ge, if_neg heven]

/-- A public key is taken if it is odd and above one, with a length parameter whose successor is a
word. -/
theorem moduli_eq_ok_iff {statement : Statement} {s : UInt32} {m : Moduli} :
    statement.moduli s = .ok (.ok m) ↔ 1 < statement.publicKey.modulus ∧
      statement.publicKey.modulus % 2 = 1 ∧ s.toNat + 1 < 2 ^ 32 ∧
        m = moduli statement.publicKey.modulus s := by
  constructor
  · intro h
    have hn : 1 < statement.publicKey.modulus := by
      by_contra hn
      rw [Statement.moduli, if_pos (not_lt.mp hn)] at h
      cases h
    have hodd : statement.publicKey.modulus % 2 = 1 := by
      by_contra hodd
      rw [Statement.moduli, if_neg hn.not_ge, if_pos (Nat.mod_two_ne_one.mp hodd)] at h
      cases h
    -- The public key has passed; what is left can only fail in `s + 1`.
    rw [moduli_of_odd hn hodd] at h
    obtain ⟨cipher, hcipher, h⟩ := except_bind_eq_ok.mp h
    cases h
    obtain hs | hs := lt_or_ge (s.toNat + 1) (2 ^ 32)
    · cases (ciphertextModulus_of_lt hs).symm.trans hcipher
      exact ⟨hn, hodd, hs, rfl⟩
    · cases (ciphertextModulus_of_le hs).symm.trans hcipher
  · rintro ⟨hn, hodd, hs, rfl⟩
    rw [moduli_of_odd hn hodd]
    exact except_bind_eq_ok.mpr ⟨_, ciphertextModulus_of_lt hs, rfl⟩

/-- For the largest `s` a public key that passes the check has no moduli. -/
theorem moduli_of_le {statement : Statement} {s : UInt32}
    (hn : 1 < statement.publicKey.modulus) (hodd : statement.publicKey.modulus % 2 = 1)
    (hs : 2 ^ 32 ≤ s.toNat + 1) : statement.moduli s = .error .overflow := by
  rw [moduli_of_odd hn hodd]
  exact except_bind_of_error (ciphertextModulus_of_le hs)

theorem check_eq_ok_iff {statement : Statement} {m : Moduli} :
    statement.check params = .ok (.ok m) ↔ 1 < statement.publicKey.modulus ∧
      statement.publicKey.modulus % 2 = 1 ∧ params.lengthParameter.toNat + 1 < 2 ^ 32 ∧
      params.soundnessBits.toNat < bitLength statement.publicKey.modulus / 3 ∧
      m = moduli statement.publicKey.modulus params.lengthParameter := by
  unfold Statement.check
  rw [except_bind_eq_ok]
  constructor
  · rintro ⟨outcome, hmoduli, h⟩
    rcases outcome with e | m'
    · cases h
    · obtain ⟨_, hbelow, hm⟩ := except_map_eq_ok.mp (Except.ok.inj h)
      obtain ⟨hlt, hodd, hs, rfl⟩ := moduli_eq_ok_iff.mp hmoduli
      exact ⟨hlt, hodd, hs, Params.requireSoundnessBelow_eq_ok_iff.mp hbelow, hm.symm⟩
  · rintro ⟨hlt, hodd, hs, hbelow, rfl⟩
    refine ⟨_, moduli_eq_ok_iff.mpr ⟨hlt, hodd, hs, rfl⟩, congrArg Except.ok ?_⟩
    exact except_map_eq_ok.mpr ⟨(), Params.requireSoundnessBelow_eq_ok_iff.mpr hbelow, rfl⟩

/-- The verifier checks a statement as the prover does. -/
theorem checkStatement_eq_ok_iff {statement : Statement} :
    (verifierRole params).checkStatement statement = .ok (.ok ()) ↔
      ∃ m, statement.check params = .ok (.ok m) := by
  constructor
  · intro h
    obtain ⟨_, hcheck, h⟩ := except_bind_eq_ok.mp h
    obtain ⟨m, rfl, -⟩ := except_map_eq_ok.mp (Except.ok.inj h)
    exact ⟨m, hcheck⟩
  · rintro ⟨m, hcheck⟩
    exact except_bind_eq_ok.mpr ⟨_, hcheck, rfl⟩

/-! ## Proofs -/

theorem contents?_eq_some_iff {first second : Message} {a z : Nat} :
    (verifierRole params).contents? first second = some (a, z) ↔
      first = .integer a ∧ second = .integer z := by
  cases first <;> cases second <;> simp [verifierRole]

/-- A proof is judged with the moduli of its statement. -/
theorem accepts_of_moduli {statement : Statement} {m : Moduli}
    (h : statement.moduli params.lengthParameter = .ok (.ok m)) (contents : Nat × Nat)
    (e : Challenge) : (verifierRole params).accepts statement contents e =
      .ok (.ok (accepts m statement.ciphertext.value contents.1 contents.2 e.exponent.toNat)) :=
  except_bind_eq_ok.mpr ⟨_, h, rfl⟩

theorem accepts_verifierRole_iff {statement : Statement} {contents : Nat × Nat} {e : Challenge}
    {verdict : Bool} : (verifierRole params).accepts statement contents e = .ok (.ok verdict) ↔
      ∃ m, statement.moduli params.lengthParameter = .ok (.ok m) ∧
        accepts m statement.ciphertext.value contents.1 contents.2 e.exponent.toNat = verdict := by
  constructor
  · intro h
    obtain ⟨_, hmoduli, h⟩ := except_bind_eq_ok.mp h
    obtain ⟨m, rfl, haccepts⟩ := except_map_eq_ok.mp (Except.ok.inj h)
    exact ⟨m, hmoduli, haccepts⟩
  · rintro ⟨m, hmoduli, rfl⟩
    exact accepts_of_moduli hmoduli contents e

/-- The check of a proof finds no fault with a statement that has been taken. -/
theorem exists_accepts_eq {statement : Statement}
    (h : (verifierRole params).checkStatement statement = .ok (.ok ())) (contents : Nat × Nat)
    (e : Challenge) :
    ∃ accepted, (verifierRole params).accepts statement contents e = .ok (.ok accepted) := by
  obtain ⟨m, hcheck⟩ := checkStatement_eq_ok_iff.mp h
  obtain ⟨hn, hodd, hs, -, -⟩ := check_eq_ok_iff.mp hcheck
  exact ⟨_, accepts_of_moduli (moduli_eq_ok_iff.mpr ⟨hn, hodd, hs, rfl⟩) contents e⟩

/-- Which proofs are accepted: the messages are reduced, all numbers are units, and they satisfy the
equation modulo `n ^ (s + 1)`. -/
theorem accepts_iff {n c a z e : Nat} {s : UInt32} :
    accepts (moduli n s) c a z e = true ↔
      a < n ^ (s.toNat + 1) ∧ z < n ∧ a.Coprime n ∧ z.Coprime n ∧ c.Coprime n ∧
        z ^ n ^ s.toNat ≡ a * c ^ e [MOD n ^ (s.toNat + 1)] := by
  dsimp only [accepts, moduli]
  simp only [powMod_eq, Nat.mul_mod_mod, Bool.and_eq_true, decide_eq_true_eq,
    beq_iff_eq, and_assoc]
  rfl

/-! ## First messages -/

theorem commit_eq_ok_iff {input : ProverInput} {stream rest : Bytes}
    {outcome : Except ProtocolError (Message × Secrets)} {m : Moduli}
    (hcheck : input.common.check params = .ok (.ok m)) :
    commit params input stream = .ok (outcome, rest) ↔
      ∃ nonce, Sampler.unitTopFirst m.n stream = .ok (nonce, rest) ∧ outcome =
        .ok (.integer (firstMessage m nonce), ⟨nonce, input.randomness.toNat % m.n, m.n⟩) := by
  have hlift : (liftM (input.common.check params) : Sampler _) stream = .ok (.ok m, stream) :=
    Sampler.lift_eq_ok.mpr ⟨hcheck, rfl⟩
  constructor
  · intro h
    obtain ⟨_, _, hlift', h⟩ := Sampler.bind_eq_ok.mp h
    cases hlift.symm.trans hlift'
    obtain ⟨nonce, _, hnonce, h⟩ := Sampler.bind_eq_ok.mp h
    obtain ⟨rfl, rfl⟩ := Sampler.pure_eq_ok.mp h
    exact ⟨nonce, hnonce, rfl⟩
  · rintro ⟨nonce, hnonce, rfl⟩
    exact Sampler.bind_eq_ok.mpr ⟨_, _, hlift, Sampler.bind_eq_ok.mpr ⟨_, _, hnonce, rfl⟩⟩

/-- What the check of the statement comes to, and what the first message comes to then. -/
theorem check_of_commit {input : ProverInput} {stream rest : Bytes}
    {outcome : Except ProtocolError (Message × Secrets)}
    (h : commit params input stream = .ok (outcome, rest)) :
    (∃ m, input.common.check params = .ok (.ok m)) ∨
      ∃ e, input.common.check params = .ok (.error e) ∧ outcome = .error e ∧ rest = stream := by
  obtain ⟨checked, _, hlift, h⟩ := Sampler.bind_eq_ok.mp h
  obtain ⟨hcheck, rfl⟩ := Sampler.lift_eq_ok.mp hlift
  rcases checked with e | m
  · obtain ⟨rfl, rfl⟩ := Sampler.pure_eq_ok.mp h
    exact .inr ⟨e, hcheck, rfl, rfl⟩
  · exact .inl ⟨m, hcheck⟩

/-- A first message is only computed for a statement that passes the check. The nonce comes from the
stream, and the witness from the input. -/
theorem nonce_of_commit {input : ProverInput} {stream rest : Bytes} {first : Message}
    {secrets : Secrets} (h : commit params input stream = .ok (.ok (first, secrets), rest)) :
    ∃ m nonce, input.common.check params = .ok (.ok m) ∧
      Sampler.unitTopFirst m.n stream = .ok (nonce, rest) ∧
      first = .integer (firstMessage m nonce) ∧
      secrets = ⟨nonce, input.randomness.toNat % m.n, m.n⟩ := by
  obtain ⟨m, hcheck⟩ | ⟨e, -, herror, -⟩ := check_of_commit h
  · obtain ⟨nonce, hnonce, houtcome⟩ := (commit_eq_ok_iff hcheck).mp h
    cases houtcome
    exact ⟨m, nonce, hcheck, hnonce, rfl, rfl⟩
  · cases herror

theorem encryptWith_zero {n r : Nat} (hn : n ≠ 0) (s : UInt32) :
    PublicKey.encryptWith ⟨n⟩ 0 r s = .ok ⟨r ^ n ^ s.toNat % n ^ (s.toNat + 1)⟩ := by
  rw [encryptWith_eq hn, residue, pow_zero, one_mul]

end SigmaProtocol.EncryptedZero
