import SigmaProtocol.Modular
import SigmaProtocol.Random
import SigmaProtocol.Json.Format

/-!
# Damgård–Jurik encryption

A public key is a modulus `n`. For a length parameter `s` the plaintexts are the residues modulo
`n ^ s`, the ciphertexts are residues modulo `n ^ (s + 1)`, and
`Enc(m, r) = (1 + n) ^ m * r ^ (n ^ s) mod n ^ (s + 1)`.

The length parameter is a 32-bit word, and `s + 1` has to be one. For the largest `s` there are
encryptions, but the modulus of the ciphertexts cannot be asked for.
-/

namespace SigmaProtocol.DamgardJurik

/-- A public key. -/
structure PublicKey where
  /-- The modulus `n`. -/
  modulus : Nat
deriving DecidableEq, Repr

/-- A ciphertext. -/
structure Ciphertext where
  /-- The residue. -/
  value : Nat
deriving DecidableEq, Repr

namespace PublicKey

/-- The number of plaintexts, `n ^ s`. -/
def plaintextModulus (key : PublicKey) (s : UInt32) : Nat := key.modulus.pow s.toNat

/-- The modulus of the ciphertexts, `n ^ (s + 1)`, the exponent computed as a 32-bit word. -/
def ciphertextModulus (key : PublicKey) (s : UInt32) : Except Fault Nat := do
  return key.modulus.pow (← Word.add s 1).toNat

/-- A uniformly random unit modulo `n`. -/
def randomUnit (key : PublicKey) : Sampler Nat := Sampler.unit key.modulus

/-- Encrypts `message` with the randomness `r`. -/
def encryptWith (key : PublicKey) (message r : Nat) (s : UInt32) : Except Fault Ciphertext :=
  let plain := key.plaintextModulus s
  let cipher := plain * key.modulus
  if key.modulus = 0 then .error .zeroModulus
  else
    let masked := powMod (key.modulus + 1) (message % plain) cipher
    let blinding := powMod r plain cipher
    .ok ⟨masked * blinding % cipher⟩

/-- Encrypts `message` with a random unit. -/
def encrypt (key : PublicKey) (message : Nat) (s : UInt32) : Sampler Ciphertext := do
  let r ← key.randomUnit
  key.encryptWith message r s

instance : JsonFormat PublicKey where
  write key := Json.record [("modulus", Json.writeNat key.modulus)]
  read? v := do
    match ← Json.RecordForm.fields? ⟨["modulus"], 1, false⟩ v with
    | [modulus] => return ⟨← Json.required? Json.readNat? modulus⟩
    | _ => none

end PublicKey

instance : JsonFormat Ciphertext where
  write c := Json.record [("cipher", Json.writeNat c.value)]
  read? v := do
    match ← Json.RecordForm.fields? ⟨["cipher"], 1, false⟩ v with
    | [cipher] => return ⟨← Json.required? Json.readNat? cipher⟩
    | _ => none

end SigmaProtocol.DamgardJurik
