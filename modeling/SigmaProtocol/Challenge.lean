import SigmaProtocol.Bytes.Limbs
import SigmaProtocol.Random
import SigmaProtocol.Shake256
import SigmaProtocol.Transcript

/-!
# Challenges

A challenge for the soundness parameter `t` is an integer below `2 ^ t`, written in `⌈t / 8⌉` bytes,
most significant byte first. It is drawn at random, given from outside, or derived from a transcript
by SHAKE-256. A challenge that was read is only checked where it is used.

The widths are computed in 32-bit words. For the last seven `t` there is no word for the number of
binary digits in `⌈t / 8⌉` bytes, and no challenge can be had.
-/

namespace SigmaProtocol

/-- The bytes of a challenge. -/
structure Challenge where
  bytes : Bytes
deriving DecidableEq, Repr

namespace Challenge

/-- `⌈t / 8⌉` as a 32-bit word. -/
def byteCount (bits : UInt32) : UInt32 := if bits % 8 = 0 then bits / 8 else bits / 8 + 1

/-- How many binary digits the bytes of a challenge have too many. -/
def excessBits (bits : UInt32) : Except Fault UInt32 := do
  return (← Word.mul 8 (byteCount bits)) - bits

/-- The bits of the most significant byte that a challenge below `2 ^ t` may use. -/
def topMask (bits : UInt32) : Except Fault UInt8 := do
  return 0xff >>> (← excessBits bits).toUInt8

/-- The challenge in `bytes` without its excess binary digits. -/
def ofMasked (bytes : Bytes) (bits : UInt32) : Except Fault Challenge :=
  match bytes with
  | [] => .ok ⟨[]⟩
  | top :: rest => do return ⟨(top &&& (← topMask bits)) :: rest⟩

/-- A uniformly random challenge. -/
def random (bits : UInt32) : Sampler Challenge := do
  ofMasked (← Sampler.bytes (byteCount bits).toNat) bits

/-- Refuses a challenge that has not exactly `⌈t / 8⌉` bytes or is not below `2 ^ t`. -/
def validate (c : Challenge) (bits : UInt32) : Except Fault (Except ProtocolError Unit) :=
  if c.bytes.length ≠ (byteCount bits).toNat then .ok (.error .invalidChallenge)
  else
    match c.bytes with
    | [] => .ok (.ok ())
    | top :: _ => do
      let mask ← topMask bits
      return if top &&& ~~~mask = 0 then .ok () else .error .invalidChallenge

/-- The challenge with the given bytes. -/
def ofBytes (bytes : Bytes) (bits : UInt32) : Except Fault (Except ProtocolError Challenge) := do
  let c : Challenge := ⟨bytes⟩
  return (← c.validate bits).map fun _ => c

/-- The challenge that a transcript determines. -/
def ofTranscript {S : Type} [Transcribed S] (dst : Bytes) (statement : S) (first : Message)
    (bits : UInt32) : Except Fault Challenge :=
  ofMasked (shake256 (transcript dst bits statement first) (byteCount bits).toNat) bits

/-- The challenge as an exponent. -/
def exponent (c : Challenge) : LimbNat := .ofBytes c.bytes

instance : JsonFormat Challenge where
  write c := Json.writeBytes c.bytes
  read? v := (Json.readBytes? v).map Challenge.mk

end Challenge

end SigmaProtocol
