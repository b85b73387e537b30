import SigmaProtocol.Challenge

/-!
# Provers

A prover commits to fresh randomness in its first message and uses that randomness up in its answer
to one challenge. A `ProverRole` says what a protocol commits to and how it answers; a `Prover` adds
the secrets that are waiting for a challenge. A call that is refused changes nothing.
-/

namespace SigmaProtocol

/-- The prover's part of a protocol, for inputs of type `I`; `P` holds the secrets between the two
messages. -/
structure ProverRole (I P : Type) where
  soundnessBits : UInt32
  /-- The first message and the secrets behind it. -/
  commit : I → Sampler (Except ProtocolError (Message × P))
  /-- The answer to a challenge. -/
  answer : P → Challenge → Message

/-- A prover. -/
structure Prover (I P : Type) where
  role : ProverRole I P
  /-- The secrets behind the last first message, until they are used. -/
  pending : Option P

namespace Prover

variable {I P : Type}

/-- A prover that has sent nothing. -/
def ofRole (role : ProverRole I P) : Prover I P := ⟨role, none⟩

/-- Computes the first message for an input. -/
def firstMessage (p : Prover I P) (input : I) :
    Sampler (Except ProtocolError Message × Prover I P) := do
  match ← p.role.commit input with
  | .error e => return (.error e, p)
  | .ok (message, secrets) => return (.ok message, { p with pending := some secrets })

/-- Computes the answer to a challenge. The challenge is checked before the secrets are taken. -/
def secondMessage (p : Prover I P) (c : Challenge) :
    Except Fault (Except ProtocolError Message × Prover I P) := do
  match ← c.validate p.role.soundnessBits, p.pending with
  | .error e, _ => return (.error e, p)
  | .ok (), none => return (.error .missingFirstMessage, p)
  | .ok (), some secrets => return (.ok (p.role.answer secrets c), { p with pending := none })

end Prover

end SigmaProtocol
