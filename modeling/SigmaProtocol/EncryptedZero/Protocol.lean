import SigmaProtocol.EncryptedZero.Statement
import SigmaProtocol.Exchange

/-!
# The proof of an encryption of zero

For a public key `n`, a length parameter `s`, `N = n ^ s` and `N' = n ^ (s + 1)`, the witness is an
`r` with `c = r ^ N mod N'`.

1. The prover draws a unit `σ` modulo `n` and sends `a = σ ^ N mod N'`.
2. The verifier sends a challenge `e < 2 ^ t`.
3. The prover sends `z = σ * r ^ e mod n`.

The verifier accepts if `a < N'`, `z < n`, the numbers `a`, `z` and `c` have no factor in common
with `n`, and `z ^ N = a * c ^ e` modulo `N'`. The soundness error is `2 ^ -t` as long as `t` is
below a third of the binary digits of `n`.
-/

namespace SigmaProtocol.EncryptedZero

/-- The moduli of a statement. -/
structure Moduli where
  /-- The public key `n`. -/
  n : Nat
  /-- The exponent `N = n ^ s`. -/
  exponent : Nat
  /-- The modulus `N' = n ^ (s + 1)`. -/
  cipher : Nat
deriving DecidableEq, Repr

/-- The moduli of a statement, whose public key must be odd and greater than 1. -/
def Statement.moduli (statement : Statement) (s : UInt32) :
    Except Fault (Except ProtocolError Moduli) :=
  let key := statement.publicKey
  if key.modulus ≤ 1 then .ok (.error (.invalidStatement .modulusTooSmall))
  else if key.modulus % 2 = 0 then .ok (.error (.invalidStatement .evenModulus))
  else do return .ok ⟨key.modulus, key.plaintextModulus s, ← key.ciphertextModulus s⟩

/-- The moduli of a statement; the soundness parameter must be below a third of the binary digits of
`n`. -/
def Statement.check (statement : Statement) (params : Params) :
    Except Fault (Except ProtocolError Moduli) := do
  match ← statement.moduli params.lengthParameter with
  | .error e => return .error e
  | .ok moduli =>
    return (params.requireSoundnessBelow (bitLength moduli.n / 3)).map fun _ => moduli

/-! ## Prover -/

/-- The secrets between the two messages. -/
structure Secrets where
  /-- The randomness `σ` of the first message. -/
  nonce : Nat
  /-- The witness modulo `n`. -/
  witness : Nat
  /-- The public key `n`. -/
  modulus : Nat
deriving DecidableEq, Repr

/-- The first message for the randomness `σ`. -/
def firstMessage (moduli : Moduli) (nonce : Nat) : Nat :=
  powMod nonce moduli.exponent moduli.cipher

/-- The answer to the challenge `e`. -/
def response (secrets : Secrets) (e : Nat) : Nat :=
  secrets.nonce * powMod secrets.witness e secrets.modulus % secrets.modulus

/-- Draws the randomness and computes the first message. -/
def commit (params : Params) (input : ProverInput) :
    Sampler (Except ProtocolError (Message × Secrets)) := do
  match ← input.common.check params with
  | .error e => return .error e
  | .ok moduli =>
    let nonce ← Sampler.unitTopFirst moduli.n
    let secrets := ⟨nonce, input.randomness.toNat % moduli.n, moduli.n⟩
    return .ok (.integer (firstMessage moduli nonce), secrets)

/-- The prover's part. -/
def proverRole (params : Params) : ProverRole ProverInput Secrets where
  soundnessBits := params.soundnessBits
  commit := commit params
  answer secrets c := .integer (response secrets c.exponent.toNat)

/-- A prover with the given parameters. -/
def prover (params : Params) : Except ProtocolError (Prover ProverInput Secrets) := do
  params.validate
  return .ofRole (proverRole params)

/-! ## Verifier -/

/-- Whether the messages `a` and `z` prove that `c` encrypts zero, under the challenge `e`. -/
def accepts (moduli : Moduli) (c a z e : Nat) : Bool :=
  a < moduli.cipher && z < moduli.n &&
    a.gcd moduli.n == 1 && z.gcd moduli.n == 1 && c.gcd moduli.n == 1 &&
    powMod z moduli.exponent moduli.cipher == a * powMod c e moduli.cipher % moduli.cipher

/-- The verifier's part. -/
def verifierRole (params : Params) : VerifierRole Statement (Nat × Nat) where
  soundnessBits := params.soundnessBits
  checkStatement statement := do
    return (← statement.check params).map fun _ => ()
  contents?
    | .integer a, .integer z => some (a, z)
    | _, _ => none
  accepts := fun statement (a, z) c => do
    return (← statement.moduli params.lengthParameter).map fun moduli =>
      accepts moduli statement.ciphertext.value a z c.exponent.toNat

/-- A verifier with the given parameters. -/
def verifier (params : Params) : Except ProtocolError (Verifier Statement (Nat × Nat)) := do
  params.validate
  return .ofRole (verifierRole params)

end SigmaProtocol.EncryptedZero
