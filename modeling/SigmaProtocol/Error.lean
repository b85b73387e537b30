/-!
# Errors and faults

An error says why a protocol refuses a call. It names its cause; the wording is in `message`. A
fault says why a computation has no result at all. One fault is that the sum or the product of two
32-bit words is not a word.

* `Word.exists_add_of_lt`, `Word.add_of_le`: when there is a sum, and what it is.
* `Word.exists_mul_of_lt`, `Word.mul_of_le`: when there is a product, and what it is.
-/

namespace SigmaProtocol

/-! ## Errors -/

/-- What is wrong with protocol parameters. -/
inductive ParamsFlaw
  | zeroSoundness
  | zeroLength
  /-- Prover and verifier were built with different soundness parameters. -/
  | soundnessMismatch
deriving DecidableEq, Repr

/-- What is wrong with a statement. -/
inductive StatementFlaw
  | modulusTooSmall
  | evenModulus
  | evenOrder
  | notMember
deriving DecidableEq, Repr

/-- Why a prover or verifier refuses a call. -/
inductive ProtocolError
  /-- The statement allows only soundness parameters below `limit`. -/
  | soundness (bits : UInt32) (limit : Nat)
  | unexpectedMessage
  | missingInput
  | missingChallenge
  | invalidChallenge
  | missingFirstMessage
  | invalidParams (flaw : ParamsFlaw)
  | invalidStatement (flaw : StatementFlaw)
deriving DecidableEq, Repr

/-- The wording of a flaw. -/
def ParamsFlaw.message : ParamsFlaw → String
  | zeroSoundness => "the soundness parameter must be positive"
  | zeroLength => "the length parameter must be positive"
  | soundnessMismatch => "the prover and the verifier use different soundness parameters"

/-- The wording of a flaw. -/
def StatementFlaw.message : StatementFlaw → String
  | modulusTooSmall => "the modulus must be greater than 1"
  | evenModulus => "the modulus must be odd"
  | evenOrder => "the group order must be odd"
  | notMember => "the element is not a member of the group"

/-- The wording of an error. -/
def ProtocolError.message : ProtocolError → String
  | soundness bits limit =>
    "The soundness parameter (" ++ bits.toNat.repr ++
      " bits) is too large for the statement (limit: " ++ limit.repr ++ " bits)"
  | unexpectedMessage => "A protocol message has an unexpected type"
  | missingInput => "The statement has not been set"
  | missingChallenge => "The challenge has not been sampled or set"
  | invalidChallenge => "The challenge does not fit the soundness parameter"
  | missingFirstMessage =>
    "The first message has not been computed, or the response was already computed"
  | invalidParams flaw => "Invalid protocol parameters: " ++ flaw.message
  | invalidStatement flaw => "Invalid statement: " ++ flaw.message

/-! ## Faults -/

/-- Why a computation has no result at all. -/
inductive Fault
  /-- More random bytes were asked for than the stream holds. -/
  | exhausted
  /-- A residue modulo zero was asked for. -/
  | zeroModulus
  /-- A number that should be a 32-bit word is too large for one. -/
  | overflow
deriving DecidableEq, Repr

namespace Word

/-- The sum of two words, which has to be a word. -/
def add (a b : UInt32) : Except Fault UInt32 :=
  if a.toNat + b.toNat < UInt32.size then .ok (a + b) else .error .overflow

/-- The product of two words, which has to be a word. -/
def mul (a b : UInt32) : Except Fault UInt32 :=
  if a.toNat * b.toNat < UInt32.size then .ok (a * b) else .error .overflow

variable {a b : UInt32}

/-- A sum below `2 ^ 32` is a word, and the word is the sum. -/
theorem exists_add_of_lt (h : a.toNat + b.toNat < UInt32.size) :
    ∃ c, add a b = .ok c ∧ c.toNat = a.toNat + b.toNat :=
  ⟨a + b, if_pos h, (UInt32.toNat_add a b).trans (Nat.mod_eq_of_lt h)⟩

theorem add_of_le (h : UInt32.size ≤ a.toNat + b.toNat) : add a b = .error .overflow :=
  if_neg (Nat.not_lt.mpr h)

theorem exists_add_iff : (∃ c, add a b = .ok c) ↔ a.toNat + b.toNat < UInt32.size := by
  unfold add
  split
  · next h => exact iff_of_true ⟨_, rfl⟩ h
  · next h => exact iff_of_false nofun h

/-- A product below `2 ^ 32` is a word, and the word is the product. -/
theorem exists_mul_of_lt (h : a.toNat * b.toNat < UInt32.size) :
    ∃ c, mul a b = .ok c ∧ c.toNat = a.toNat * b.toNat :=
  ⟨a * b, if_pos h, (UInt32.toNat_mul a b).trans (Nat.mod_eq_of_lt h)⟩

theorem mul_of_le (h : UInt32.size ≤ a.toNat * b.toNat) : mul a b = .error .overflow :=
  if_neg (Nat.not_lt.mpr h)

theorem exists_mul_iff : (∃ c, mul a b = .ok c) ↔ a.toNat * b.toNat < UInt32.size := by
  unfold mul
  split
  · next h => exact iff_of_true ⟨_, rfl⟩ h
  · next h => exact iff_of_false nofun h

end Word

end SigmaProtocol
