import SigmaProtocol.Challenge

/-!
# Verifiers

A verifier holds a statement, the challenge that it last sampled or was given, and the outcome of
the last proof that it checked. A `VerifierRole` says which statements a protocol takes and which
proofs it accepts. Checking a proof uses the challenge up, whatever comes of it.
-/

namespace SigmaProtocol

/-- The verifier's part of a protocol for statements of type `S`; `T` is what the two messages of a
proof hold. -/
structure VerifierRole (S T : Type) where
  soundnessBits : UInt32
  /-- Refuses a statement that the protocol cannot prove soundly. -/
  checkStatement : S → Except Fault (Except ProtocolError Unit)
  /-- What the two messages hold, if they are of the right kinds. -/
  contents? : Message → Message → Option T
  /-- Whether a proof of a statement is accepted under a challenge. -/
  accepts : S → T → Challenge → Except Fault (Except ProtocolError Bool)

/-- A verifier. -/
structure Verifier (S T : Type) where
  role : VerifierRole S T
  statement : Option S
  challenge : Option Challenge
  outcome : Option Bool

/-- What a verifier is waiting for, or what it has found. -/
inductive VerifierPhase
  | uninitialized
  | inputSet
  | challengeReady
  | verified (accepted : Bool)
deriving DecidableEq, Repr

namespace Verifier

variable {S T : Type}

/-- A verifier without a statement. -/
def ofRole (role : VerifierRole S T) : Verifier S T := ⟨role, none, none, none⟩

/-- Sets the statement to be proven. -/
def setStatement (v : Verifier S T) (statement : S) :
    Except Fault (Except ProtocolError Unit × Verifier S T) := do
  match ← v.role.checkStatement statement with
  | .error e => return (.error e, v)
  | .ok () => return (.ok (), { v with statement := some statement, outcome := none })

/-- Samples a challenge. -/
def sampleChallenge (v : Verifier S T) : Sampler (Verifier S T) := do
  let c ← Challenge.random v.role.soundnessBits
  return { v with challenge := some c }

/-- Takes a challenge from outside. -/
def setChallenge (v : Verifier S T) (c : Challenge) :
    Except Fault (Except ProtocolError Unit × Verifier S T) := do
  match ← c.validate v.role.soundnessBits with
  | .error e => return (.error e, v)
  | .ok () => return (.ok (), { v with challenge := some c })

/-- The verdict on a proof: whether it is accepted, or why it cannot be checked. -/
def judge (v : Verifier S T) (first second : Message) :
    Except Fault (Except ProtocolError Bool) :=
  match v.role.contents? first second, v.statement, v.challenge with
  | none, _, _ => .ok (.error .unexpectedMessage)
  | some _, none, _ => .ok (.error .missingInput)
  | some _, some _, none => .ok (.error .missingChallenge)
  | some contents, some statement, some c => v.role.accepts statement contents c

/-- Checks a proof. -/
def verify (v : Verifier S T) (first second : Message) :
    Except Fault (Except ProtocolError Bool × Verifier S T) := do
  match ← v.judge first second with
  | .error e => return (.error e, { v with challenge := none })
  | .ok accepted => return (.ok accepted, { v with challenge := none, outcome := some accepted })

/-- What the verifier is waiting for, or has found. -/
def phase (v : Verifier S T) : VerifierPhase :=
  match v.statement, v.challenge, v.outcome with
  | none, _, _ => .uninitialized
  | some _, some _, _ => .challengeReady
  | some _, none, some accepted => .verified accepted
  | some _, none, none => .inputSet

end Verifier

end SigmaProtocol
