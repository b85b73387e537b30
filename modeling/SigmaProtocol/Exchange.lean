import SigmaProtocol.Prover
import SigmaProtocol.Verifier

/-!
# Exchanges

One run of a protocol between a prover and a verifier that share a stream of random bytes.
-/

namespace SigmaProtocol

variable {I P S T : Type}

/-- The answer to the verifier's challenge and the verdict on it. -/
def respondAndVerify (p : Prover I P) (v : Verifier S T) (first : Message) :
    Except Fault (Except ProtocolError Bool × Prover I P × Verifier S T) := do
  match v.challenge with
  | none => return (.error .missingChallenge, p, v)
  | some c =>
    match ← p.secondMessage c with
    | (.error e, p) => return (.error e, p, v)
    | (.ok second, p) =>
      let (verdict, v) ← v.verify first second
      return (verdict, p, v)

/-- Runs one exchange: statement, first message, challenge, answer, verdict. The run ends at the
first call that is refused; what was done before stays done. -/
def exchange (p : Prover I P) (v : Verifier S T) (input : I) (statement : S) :
    Sampler (Except ProtocolError Bool × Prover I P × Verifier S T) :=
  if p.role.soundnessBits ≠ v.role.soundnessBits then
    pure (.error (.invalidParams .soundnessMismatch), p, v)
  else do
    match ← v.setStatement statement with
    | (.error e, v) => return (.error e, p, v)
    | (.ok (), v) =>
      match ← p.firstMessage input with
      | (.error e, p) => return (.error e, p, v)
      | (.ok first, p) => respondAndVerify p (← v.sampleChallenge) first

end SigmaProtocol
