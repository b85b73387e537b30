import SigmaProtocol.Proofs.Completeness
import SigmaProtocol.Proofs.EncryptedZero.Roles

/-!
# Completeness of the proof of an encryption of zero

The prover answers modulo `n`, and the verifier checks `N`-th powers modulo `n ^ (s + 1)`: a
congruence modulo `n` lifts along that power. The witness may share a factor with `n`; then the
ciphertext does too, and the verifier rejects.

* `EncryptedZero.completeness_of_encryptWith`: honest runs are accepted exactly for witnesses
  coprime to `n`.
-/

namespace SigmaProtocol.EncryptedZero

open DamgardJurik

/-- The reductions on the way do not show modulo `n`. -/
theorem response_modEq (nonce r n e : Nat) :
    response ⟨nonce, r % n, n⟩ e ≡ nonce * r ^ e [MOD n] := by
  rw [response, powMod_eq, Nat.ModEq, Nat.mod_mod, Nat.mul_mod_mod, ← Nat.mul_mod_mod nonce,
    ← Nat.pow_mod, Nat.mul_mod_mod]

/-- The answer of an honest prover is accepted, unless its witness shares a factor with `n`. -/
theorem accepts_response {n nonce : Nat} (hn : 1 < n) (hunit : nonce.Coprime n) (s : UInt32)
    (r e : Nat) :
    accepts (moduli n s) (r ^ n ^ s.toNat % n ^ (s.toNat + 1))
      (firstMessage (moduli n s) nonce) (response ⟨nonce, r % n, n⟩ e) e
      = decide (r.Coprime n) := by
  have hdvd : n ∣ n ^ (s.toNat + 1) := dvd_pow_self n (Nat.succ_ne_zero _)
  have hpos : 0 < n ^ (s.toNat + 1) := Nat.pow_pos (by omega)
  have hexponent : 0 < n ^ s.toNat := Nat.pow_pos (by omega)
  have hfirst : firstMessage (moduli n s) nonce = nonce ^ n ^ s.toNat % n ^ (s.toNat + 1) := by
    rw [firstMessage, powMod_eq, moduli]
  have hcipher : (r ^ n ^ s.toNat % n ^ (s.toNat + 1)).Coprime n ↔ r.Coprime n := by
    rw [coprime_mod_iff hdvd, Nat.coprime_pow_left_iff hexponent]
  rw [hfirst]
  by_cases hr : r.Coprime n
  · rw [decide_eq_true hr, accepts_iff]
    have hz := response_modEq nonce r n e
    refine ⟨Nat.mod_lt _ hpos, Nat.mod_lt _ (Nat.zero_lt_of_lt hn), ?_, ?_, hcipher.mpr hr, ?_⟩
    · rw [coprime_mod_iff hdvd, Nat.coprime_pow_left_iff hexponent]
      exact hunit
    · rw [Nat.Coprime, hz.gcd_eq]
      exact hunit.mul_left (hr.pow_left e)
    · calc response ⟨nonce, r % n, n⟩ e ^ n ^ s.toNat
          ≡ (nonce * r ^ e) ^ n ^ s.toNat [MOD n ^ (s.toNat + 1)] := modEq_pow_pow hz s.toNat
        _ = nonce ^ n ^ s.toNat * (r ^ n ^ s.toNat) ^ e := by ring
        _ ≡ _ [MOD n ^ (s.toNat + 1)] :=
          ((Nat.mod_modEq _ _).mul ((Nat.mod_modEq _ _).pow e)).symm
  · rw [decide_eq_false hr, Bool.eq_false_iff]
    intro h
    obtain ⟨-, -, -, -, hc, -⟩ := accepts_iff.mp h
    exact hr (hcipher.mp hc)

end SigmaProtocol.EncryptedZero
