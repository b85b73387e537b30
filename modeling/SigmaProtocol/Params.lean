import SigmaProtocol.Error
import SigmaProtocol.Json.Format

/-!
# Protocol parameters

The soundness parameter `t` bounds the chance of a cheating prover by `2 ^ -t`; the length
parameter `s` sets the moduli `n ^ s` and `n ^ (s + 1)` of Damgård–Jurik encryption. Both are 32-bit
words, of which only zero is refused.
-/

namespace SigmaProtocol

/-- The parameters that prover and verifier share. -/
structure Params where
  /-- The soundness parameter `t`. -/
  soundnessBits : UInt32 := 80
  /-- The length parameter `s`. -/
  lengthParameter : UInt32 := 1
deriving DecidableEq, Repr

namespace Params

/-- Refuses parameters that no protocol can use. -/
def validate (p : Params) : Except ProtocolError Unit :=
  if p.soundnessBits = 0 then .error (.invalidParams .zeroSoundness)
  else if p.lengthParameter = 0 then .error (.invalidParams .zeroLength)
  else .ok ()

theorem validate_of_ne_zero {p : Params} (ht : p.soundnessBits ≠ 0) (hs : p.lengthParameter ≠ 0) :
    p.validate = .ok () := by
  rw [validate, if_neg ht, if_neg hs]

/-- Nothing but zero is refused. -/
theorem validate_eq_ok_iff {p : Params} :
    p.validate = .ok () ↔ p.soundnessBits ≠ 0 ∧ p.lengthParameter ≠ 0 := by
  constructor
  · intro h
    unfold validate at h
    split at h
    · cases h
    · next ht =>
      split at h
      · cases h
      · next hs => exact ⟨ht, hs⟩
  · rintro ⟨ht, hs⟩
    exact validate_of_ne_zero ht hs

/-- Refuses a soundness parameter that is not below `limit`. -/
def requireSoundnessBelow (p : Params) (limit : Nat) : Except ProtocolError Unit :=
  if limit ≤ p.soundnessBits.toNat then .error (.soundness p.soundnessBits limit) else .ok ()

theorem requireSoundnessBelow_eq_ok_iff {p : Params} {limit : Nat} :
    p.requireSoundnessBelow limit = .ok () ↔ p.soundnessBits.toNat < limit := by
  unfold requireSoundnessBelow
  split
  · next h => simp [Nat.not_lt.mpr h]
  · next h => simp [Nat.lt_of_not_le h]

/-- Both fields may be absent and then have their defaults. -/
def form : Json.RecordForm := ⟨["soundness_bits", "length_parameter"], 0, false⟩

/-- Reads parameters. -/
def read? (v : Json) : Option Params := do
  match ← form.fields? v with
  | [soundnessBits, lengthParameter] =>
    return {
      soundnessBits := ← Json.withDefault? Json.readUInt32? 80 soundnessBits
      lengthParameter := ← Json.withDefault? Json.readUInt32? 1 lengthParameter }
  | _ => none

instance : JsonFormat Params where
  write p := Json.record [
    ("soundness_bits", .ofNat p.soundnessBits.toNat),
    ("length_parameter", .ofNat p.lengthParameter.toNat)]
  read? := read?

end Params

end SigmaProtocol
