import SigmaProtocol.Proofs.EncryptedZero.Roles
import SigmaProtocol.Proofs.Sampling.Challenges

/-!
# Parameters that are too large for words

Two numbers are computed from the parameters in 32-bit words: `s + 1`, the exponent of the
ciphertext modulus, and `8 * ⌈t / 8⌉`, from which `t` is taken to get the number of excess bits.
Both can be `2 ^ 32`, because nothing but zero is refused, and then there is no such word. So the
largest `s` has no ciphertext modulus, although encryptions, whose modulus is a product, have one,
and the last seven `t` have no mask for the top byte, although the mask itself would be a byte.
With such parameters a prover and a verifier are built, and the first call that needs the modulus or
the mask does not return.

* `DamgardJurik.ciphertextModulus_eq_product_iff`: where the two moduli are the same.
* `Challenge.exists_topMask`: how many bits of the top byte are kept.
* `EncryptedZero.check_of_le`: a statement that can be neither taken nor refused.
* `Params.computesInWords`: all of this for the parameters of a prover and a verifier.
* `Params.ciphertextModulus_ne`: parameters that are accepted and too large.
-/

namespace SigmaProtocol

/-! ## The ciphertext modulus -/

namespace DamgardJurik

open PublicKey EncryptedZero

variable {n : Nat} {s : UInt32}

theorem ciphertextModulus_eq_product_iff :
    ciphertextModulus ⟨n⟩ s = .ok (plaintextModulus ⟨n⟩ s * n) ↔ s.toNat + 1 < 2 ^ 32 := by
  obtain hs | hs := lt_or_ge (s.toNat + 1) (2 ^ 32)
  · rw [ciphertextModulus_of_lt hs, pow_succ]
    exact iff_of_true rfl hs
  · rw [ciphertextModulus_of_le hs]
    exact iff_of_false nofun hs.not_gt

/-- An encryption is computed modulo the product. -/
theorem encryptWith_eq_mod (hn : n ≠ 0) (m r : Nat) (s : UInt32) : encryptWith ⟨n⟩ m r s =
    .ok ⟨(n + 1) ^ m * r ^ plaintextModulus ⟨n⟩ s % (plaintextModulus ⟨n⟩ s * n)⟩ := by
  rw [encryptWith_eq hn, residue, pow_succ]
  rfl

end DamgardJurik

/-! ## Statements without a modulus -/

namespace EncryptedZero

open DamgardJurik PublicKey

variable {params : Params} {statement : Statement}

/-- The moduli of a public key that passes the check, with the product in the place of the power. -/
theorem moduli_eq_ok_iff_product {s : UInt32} {m : Moduli}
    (hn : 1 < statement.publicKey.modulus) (hodd : statement.publicKey.modulus % 2 = 1) :
    statement.moduli s = .ok (.ok m) ↔ s.toNat + 1 < 2 ^ 32 ∧
      m = ⟨statement.publicKey.modulus, statement.publicKey.plaintextModulus s,
        statement.publicKey.plaintextModulus s * statement.publicKey.modulus⟩ := by
  rw [moduli_eq_ok_iff, and_iff_right hn, and_iff_right hodd, moduli, pow_succ]
  rfl

section Overflow

variable (hn : 1 < statement.publicKey.modulus) (hodd : statement.publicKey.modulus % 2 = 1)
  (hs : 2 ^ 32 ≤ params.lengthParameter.toNat + 1)
include hn hodd hs

theorem check_of_le : statement.check params = .error .overflow :=
  except_bind_of_error (moduli_of_le hn hodd hs)

theorem checkStatement_of_le :
    (verifierRole params).checkStatement statement = .error .overflow :=
  except_bind_of_error (check_of_le hn hodd hs)

theorem accepts_of_le (contents : Nat × Nat) (e : Challenge) :
    (verifierRole params).accepts statement contents e = .error .overflow :=
  except_bind_of_error (moduli_of_le hn hodd hs)

theorem commit_of_le (randomness : LimbNat) (stream : Bytes) :
    commit params ⟨statement, randomness⟩ stream = .error .overflow :=
  Sampler.bind_of_error (Sampler.lift_of_error (check_of_le hn hodd hs))

end Overflow

end EncryptedZero

/-! ## The excess bits -/

namespace Challenge

variable {t : UInt32}

/-- The product is a multiple of eight, so that the last word it can be is `2 ^ 32 - 8`. -/
theorem exists_mul_byteCount_iff :
    (∃ w, Word.mul 8 (byteCount t) = .ok w) ↔ t.toNat ≤ 2 ^ 32 - 8 := by
  have hcount := toNat_byteCount t
  have hproduct : (∃ w, Word.mul 8 (byteCount t) = .ok w) ↔ 8 * (byteCount t).toNat < 2 ^ 32 :=
    Word.exists_mul_iff
  rw [hproduct]
  omega

/-- The mask keeps the bits that the bytes behind the top byte leave to it. -/
theorem exists_topMask (ht : t ≠ 0) (h : t.toNat ≤ 2 ^ 32 - 8) :
    ∃ mask, topMask t = .ok mask ∧ ∀ top : UInt8,
      (top &&& mask).toNat = top.toNat % 2 ^ (t.toNat - 8 * ((t.toNat + 7) / 8 - 1)) := by
  have hpos : t.toNat ≠ 0 := fun h => ht (UInt32.toNat_inj.mp (h.trans UInt32.toNat_zero.symm))
  have hexcess : 8 * (byteCount t).toNat - t.toNat < 8 := by
    rw [toNat_byteCount]
    omega
  -- What is masked are the excess digits, and what is kept is the rest of the eight.
  refine ⟨_, topMask_of_lt (by omega), fun top => ?_⟩
  rw [toNat_and_mask top hexcess, toNat_byteCount]
  congr 2
  omega

section Overflow

variable (h : 2 ^ 32 ≤ t.toNat + 7)
include h

theorem random_of_le {bs : Bytes} (hlength : bs.length = (byteCount t).toNat) (rest : Bytes) :
    random t (bs ++ rest) = .error .overflow := by
  rw [random, Sampler.bind_of_eq_ok (Sampler.bytes_append hlength rest)]
  exact Sampler.lift_of_error (ofMasked_of_le h hlength)

theorem ofTranscript_of_le {S : Type} [Transcribed S] (dst : Bytes) (statement : S)
    (first : Message) : ofTranscript dst statement first t = .error .overflow :=
  ofMasked_of_le h (length_shake256 _ _)

end Overflow

end Challenge

/-! ## All words together -/

namespace Params

open DamgardJurik PublicKey EncryptedZero Challenge

/-- What the numbers computed in words from the parameters come to, and what is computed with them
for the public key `n`. -/
structure ComputesInWords (p : Params) (n : Nat) : Prop where
  lengthParameter_add_one_iff :
    (∃ w, Word.add p.lengthParameter 1 = .ok w) ↔ p.lengthParameter.toNat + 1 < 2 ^ 32
  ciphertextModulus_eq : p.lengthParameter.toNat + 1 < 2 ^ 32 →
    ciphertextModulus ⟨n⟩ p.lengthParameter = .ok (n ^ (p.lengthParameter.toNat + 1))
  ciphertextModulus_eq_product_iff :
    ciphertextModulus ⟨n⟩ p.lengthParameter = .ok (plaintextModulus ⟨n⟩ p.lengthParameter * n) ↔
      p.lengthParameter.toNat + 1 < 2 ^ 32
  ciphertextModulus_overflow : ¬ p.lengthParameter.toNat + 1 < 2 ^ 32 →
    ciphertextModulus ⟨n⟩ p.lengthParameter = .error .overflow
  /-- Encryptions are computed modulo the product, whatever `s` is. -/
  encryptWith_eq (m r : Nat) : n ≠ 0 → encryptWith ⟨n⟩ m r p.lengthParameter =
    .ok ⟨(n + 1) ^ m * r ^ plaintextModulus ⟨n⟩ p.lengthParameter %
      (plaintextModulus ⟨n⟩ p.lengthParameter * n)⟩
  /-- Prover and verifier use the modulus of the encryptions as long as `s + 1` is a word. -/
  moduli_iff (c : Ciphertext) (m : Moduli) : 1 < n → n % 2 = 1 →
    (Statement.moduli ⟨⟨n⟩, c⟩ p.lengthParameter = .ok (.ok m) ↔
      p.lengthParameter.toNat + 1 < 2 ^ 32 ∧ m = ⟨n, plaintextModulus ⟨n⟩ p.lengthParameter,
        plaintextModulus ⟨n⟩ p.lengthParameter * n⟩)
  /-- Otherwise no statement is taken, no proof judged and no first message computed. -/
  statement_overflow (c : Ciphertext) : ¬ p.lengthParameter.toNat + 1 < 2 ^ 32 →
    1 < n → n % 2 = 1 →
      (verifierRole p).checkStatement ⟨⟨n⟩, c⟩ = .error .overflow ∧
        (∀ contents e, (verifierRole p).accepts ⟨⟨n⟩, c⟩ contents e = .error .overflow) ∧
        ∀ randomness stream, commit p ⟨⟨⟨n⟩, c⟩, randomness⟩ stream = .error .overflow
  byteCount_mul_iff : (∃ w, Word.mul 8 (byteCount p.soundnessBits) = .ok w) ↔
    p.soundnessBits.toNat ≤ 2 ^ 32 - 8
  excessBits_eq : p.soundnessBits.toNat ≤ 2 ^ 32 - 8 →
    ∃ k, excessBits p.soundnessBits = .ok k ∧
      k.toNat = 8 * ((p.soundnessBits.toNat + 7) / 8) - p.soundnessBits.toNat
  and_topMask : p.soundnessBits.toNat ≤ 2 ^ 32 - 8 →
    ∃ mask, topMask p.soundnessBits = .ok mask ∧ ∀ top : UInt8, (top &&& mask).toNat =
      top.toNat % 2 ^ (p.soundnessBits.toNat - 8 * ((p.soundnessBits.toNat + 7) / 8 - 1))
  topMask_overflow : ¬ p.soundnessBits.toNat ≤ 2 ^ 32 - 8 →
    excessBits p.soundnessBits = .error .overflow ∧ topMask p.soundnessBits = .error .overflow
  /-- Then no challenge is found valid, none is drawn and none is derived from a transcript. -/
  challenge_overflow : ¬ p.soundnessBits.toNat ≤ 2 ^ 32 - 8 →
    (∀ c : Challenge, c.bytes.length = (p.soundnessBits.toNat + 7) / 8 →
      c.validate p.soundnessBits = .error .overflow) ∧
    (∀ bs rest : Bytes, bs.length = (p.soundnessBits.toNat + 7) / 8 →
      random p.soundnessBits (bs ++ rest) = .error .overflow) ∧
    ∀ {S : Type} [Transcribed S] (dst : Bytes) (statement : S) (first : Message),
      ofTranscript dst statement first p.soundnessBits = .error .overflow

/-- **Which accepted parameters are too large.** The ciphertext modulus of prover and verifier is
the modulus of the encryptions for all `s` but the largest, which has none, and the mask of the top
byte is right for all `t` but the last seven, which have none. -/
theorem computesInWords (p : Params) (n : Nat) (h : p.validate = .ok ()) : ComputesInWords p n where
  lengthParameter_add_one_iff := Word.exists_add_iff
  ciphertextModulus_eq := ciphertextModulus_of_lt
  ciphertextModulus_eq_product_iff := DamgardJurik.ciphertextModulus_eq_product_iff
  ciphertextModulus_overflow hs := ciphertextModulus_of_le (not_lt.mp hs)
  encryptWith_eq m r hn := encryptWith_eq_mod hn m r p.lengthParameter
  moduli_iff _ _ hn hodd := moduli_eq_ok_iff_product hn hodd
  statement_overflow := by
    intro c hs hn hodd
    have hs := not_lt.mp hs
    exact ⟨checkStatement_of_le hn hodd hs, accepts_of_le hn hodd hs, commit_of_le hn hodd hs⟩
  byteCount_mul_iff := exists_mul_byteCount_iff
  excessBits_eq := by
    intro ht
    rw [← toNat_byteCount]
    exact excessBits_of_lt (by omega)
  and_topMask ht := exists_topMask (validate_eq_ok_iff.mp h).1 ht
  topMask_overflow ht := ⟨excessBits_of_le (by omega), topMask_of_le (by omega)⟩
  challenge_overflow := by
    intro ht
    have hle : 2 ^ 32 ≤ p.soundnessBits.toNat + 7 := by omega
    rw [← toNat_byteCount]
    exact ⟨fun c => validate_of_le hle, fun bs rest hlength => random_of_le hle hlength rest,
      ofTranscript_of_le hle⟩

/-- The largest `s` that is no harm, and a `t` of which the top byte holds seven bits. -/
theorem computesInWords_thirtyFive :
    let p : Params := ⟨4294967287, 4294967294⟩
    p.validate = .ok () ∧ ciphertextModulus ⟨35⟩ p.lengthParameter =
        .ok (plaintextModulus ⟨35⟩ p.lengthParameter * 35) ∧
      ∃ mask, topMask p.soundnessBits = .ok mask ∧
        ∀ top : UInt8, (top &&& mask).toNat = top.toNat % 2 ^ 7 := by
  intro p
  have hwords := computesInWords p 35 rfl
  have hbits : p.soundnessBits.toNat - 8 * ((p.soundnessBits.toNat + 7) / 8 - 1) = 7 := by decide
  refine ⟨rfl, hwords.ciphertextModulus_eq_product_iff.mpr (by decide), ?_⟩
  rw [← hbits]
  exact hwords.and_topMask (by decide)

/-- Parameters that are accepted, one with the largest `s` and one with the largest `t`. The modulus
of the public key `0` would be `0`. -/
theorem ciphertextModulus_ne :
    let p : Params := ⟨80, 4294967295⟩
    let q : Params := ⟨4294967295, 1⟩
    (p.validate = .ok () ∧ Word.add p.lengthParameter 1 = .error .overflow ∧
      plaintextModulus ⟨0⟩ p.lengthParameter * 0 = 0 ∧
      ciphertextModulus ⟨0⟩ p.lengthParameter = .error .overflow ∧
      ciphertextModulus ⟨0⟩ p.lengthParameter ≠ .ok (plaintextModulus ⟨0⟩ p.lengthParameter * 0)) ∧
    q.validate = .ok () ∧ Word.mul 8 (byteCount q.soundnessBits) = .error .overflow ∧
      topMask q.soundnessBits = .error .overflow := by
  intro p q
  have hs : 2 ^ 32 ≤ p.lengthParameter.toNat + 1 := by decide
  have ht : 2 ^ 32 ≤ q.soundnessBits.toNat + 7 := by decide
  have hcount : 2 ^ 32 ≤ (8 : UInt32).toNat * (byteCount q.soundnessBits).toNat := by decide
  have hmodulus := ciphertextModulus_of_le (n := 0) hs
  refine ⟨⟨rfl, Word.add_of_le hs, Nat.mul_zero _, hmodulus, ?_⟩, rfl, Word.mul_of_le hcount,
    topMask_of_le ht⟩
  rw [hmodulus]
  nofun

end Params

end SigmaProtocol
