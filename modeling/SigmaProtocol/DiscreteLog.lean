import SigmaProtocol.Exchange
import SigmaProtocol.Group.Basic

/-!
# The proof of a discrete logarithm

For a group of odd order `q` with the generator `g`, the witness of the statement `h` is an exponent
`w` with `h = g ^ w`.

1. The prover draws `r` below `q` and sends the encoding of `a = g ^ r`.
2. The verifier sends a challenge `e < 2 ^ t`.
3. The prover sends `z = r + e * w mod q`.

The verifier accepts if `z < q`, the first message is the encoding of an element `a`, and
`g ^ z = a * h ^ e`. The soundness parameter must be below the number of binary digits of `q`.
-/

namespace SigmaProtocol.DiscreteLog

/-- The public statement: the prover knows the logarithm of `h`. -/
structure Statement where
  h : Point
deriving DecidableEq, Repr

/-- A statement and the logarithm. -/
structure ProverInput where
  common : Statement
  /-- The exponent `w`, reduced or not. -/
  witness : LimbNat

/-- The input for a statement and its witness, held in the fewest limbs. -/
def ProverInput.ofNat (common : Statement) (witness : Nat) : ProverInput := ⟨common, .ofNat witness⟩

/-! ## Prover -/

/-- The secrets between the two messages. -/
structure Secrets where
  /-- The randomness `r` of the first message. -/
  nonce : Nat
  /-- The witness modulo the order. -/
  witness : Nat
deriving DecidableEq, Repr

/-- The first message for the randomness `r`, which is held at the width of the order. -/
def firstMessage (g : CurveGroup) (nonce : Nat) : Bytes :=
  g.toBytes (g.powSecret g.generator (.ofNatWithLimbs (groupCount 64 (bitLength g.order)) nonce))

/-- The answer to the challenge `e`. -/
def response (g : CurveGroup) (secrets : Secrets) (e : Nat) : Nat :=
  (secrets.nonce + e * secrets.witness) % g.order

/-- Draws the randomness and computes the first message. -/
def commit (g : CurveGroup) (input : ProverInput) :
    Sampler (Except ProtocolError (Message × Secrets)) := do
  let nonce ← Sampler.residueTopFirst g.order fun _ => true
  return .ok (.element (firstMessage g nonce), ⟨nonce, input.witness.toNat % g.order⟩)

/-- The prover's part. -/
def proverRole (g : CurveGroup) (params : Params) : ProverRole ProverInput Secrets where
  soundnessBits := params.soundnessBits
  commit := commit g
  answer secrets c := .integer (response g secrets c.exponent.toNat)

/-- A prover in a group, whose order must be odd. -/
def prover (g : CurveGroup) (params : Params) :
    Except ProtocolError (Prover ProverInput Secrets) := do
  params.validate
  params.requireSoundnessBelow (bitLength g.order)
  if g.order % 2 = 0 then .error (.invalidStatement .evenOrder)
  else .ok (.ofRole (proverRole g params))

/-! ## Verifier -/

/-- Whether the messages `a` and `z` prove the knowledge of the logarithm of `h`, under the
challenge `e`. -/
def accepts (g : CurveGroup) (h : Point) (a : Bytes) (z : Nat) (e : LimbNat) : Bool :=
  z < g.order &&
    match g.ofBytes a with
    | .error _ => false
    | .ok a => g.powGenerator z == g.mul a (g.powSecret h e)

/-- The verifier's part. -/
def verifierRole (g : CurveGroup) (params : Params) : VerifierRole Statement (Bytes × Nat) where
  soundnessBits := params.soundnessBits
  checkStatement statement :=
    .ok (if g.isMember statement.h then .ok () else .error (.invalidStatement .notMember))
  contents?
    | .element a, .integer z => some (a, z)
    | _, _ => none
  accepts := fun statement (a, z) c => .ok (.ok (accepts g statement.h a z c.exponent))

/-- A verifier in a group. -/
def verifier (g : CurveGroup) (params : Params) :
    Except ProtocolError (Verifier Statement (Bytes × Nat)) := do
  params.validate
  params.requireSoundnessBelow (bitLength g.order)
  return .ofRole (verifierRole g params)

end SigmaProtocol.DiscreteLog
