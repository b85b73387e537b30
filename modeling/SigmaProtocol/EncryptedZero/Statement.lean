import SigmaProtocol.Bytes.Limbs
import SigmaProtocol.DamgardJurik
import SigmaProtocol.Transcript

/-!
# Statements about encryptions of zero

The statement says that a Damgård–Jurik ciphertext encrypts zero. Its witness is the randomness of
the encryption, which is held and written in whole limbs.
-/

namespace SigmaProtocol.EncryptedZero

open DamgardJurik

/-- The public statement: `ciphertext` encrypts zero under `publicKey`. -/
structure Statement where
  publicKey : PublicKey
  ciphertext : Ciphertext
deriving DecidableEq, Repr

/-- A statement and the randomness of its ciphertext. -/
structure ProverInput where
  common : Statement
  randomness : LimbNat
deriving BEq

namespace Statement

/-- Reads a statement. -/
def read? (v : Json) : Option Statement := do
  match ← Json.RecordForm.fields? ⟨["public_key", "ciphertext"], 2, false⟩ v with
  | [publicKey, ciphertext] =>
    return {
      publicKey := ← Json.required? JsonFormat.read? publicKey
      ciphertext := ← Json.required? JsonFormat.read? ciphertext }
  | _ => none

instance : JsonFormat Statement where
  write s := Json.record [
    ("public_key", JsonFormat.write s.publicKey),
    ("ciphertext", JsonFormat.write s.ciphertext)]
  read? := read?

/-- A record of two records with one integer each. -/
instance : Transcribed Statement where
  bytes s := Transcript.record [
    Transcript.record [Transcript.integer s.publicKey.modulus],
    Transcript.record [Transcript.integer s.ciphertext.value]]

end Statement

namespace ProverInput

/-- The input for a statement and its randomness, held in the fewest limbs. -/
def ofNat (common : Statement) (randomness : Nat) : ProverInput := ⟨common, .ofNat randomness⟩

/-- Reads an input. The randomness has as many limbs as its bytes fill. -/
def read? (v : Json) : Option ProverInput := do
  match ← Json.RecordForm.fields? ⟨["common", "randomness"], 2, false⟩ v with
  | [common, randomness] =>
    return {
      common := ← Json.required? JsonFormat.read? common
      randomness := .ofBytes (← Json.required? Json.readBytes? randomness) }
  | _ => none

instance : JsonFormat ProverInput where
  write input := Json.record [
    ("common", JsonFormat.write input.common),
    ("randomness", Json.writeBytes input.randomness.toBytes)]
  read? := read?

/-- A description for diagnostics, which shows the statement in decimal and hides the randomness. -/
def describe (input : ProverInput) : String :=
  "DjEncryptedZeroProverInput \x7b common: DjEncryptedZeroCommonInput \x7b " ++
    "public_key: DamgardJurikPublicKey \x7b modulus: " ++
    input.common.publicKey.modulus.repr ++
    " \x7d, ciphertext: DamgardJurikCiphertext \x7b cipher: " ++
    input.common.ciphertext.value.repr ++
    " \x7d \x7d, randomness: Secret<crypto_bigint::uint::boxed::BoxedUint>(...) \x7d"

end ProverInput

end SigmaProtocol.EncryptedZero
