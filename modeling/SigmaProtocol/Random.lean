import SigmaProtocol.Bytes
import SigmaProtocol.Error

/-!
# Random numbers from a stream of bytes

Randomness is a finite stream of bytes that is consumed from the front. A sampler turns a stream
into a value and the rest of the stream, or faults if the stream is too short.

Two samplers draw a residue modulo `m` by rejection: each draw is kept if it is below `m` and
otherwise thrown away together with the bytes it took. `residue` draws the whole number at once.
`residueTopFirst` draws the most significant limb first, and the other limbs only if that one is
not too large already. Both take a further condition on the residue, so that for instance only
units are kept. Every draw takes at least one byte, hence the recursion on the stream's length.
-/

namespace SigmaProtocol

/-- A computation that takes random bytes from the front of a stream. -/
abbrev Sampler (α : Type) := StateT Bytes (Except Fault) α

namespace Sampler

/-- The next `count` bytes. -/
def bytes (count : Nat) : Sampler Bytes := fun stream =>
  if count ≤ stream.length then .ok (stream.splitAt count) else .error .exhausted

/-- The number written by bytes whose least significant one comes first. -/
def littleEndian (bs : Bytes) : Nat := bs.foldr (fun b acc => b.toNat + 256 * acc) 0

/-- The candidate for a residue modulo `m` in a chunk of whole 32-bit words, least significant
byte first: the last word loses the binary digits that `m` has no use for. -/
def candidate (m : Nat) (chunk : Bytes) : Nat :=
  let words := groupCount 32 (bitLength m)
  let low := chunk.take (4 * (words - 1))
  let high := chunk.drop (4 * (words - 1))
  let excess := 32 * words - bitLength m
  littleEndian low + (littleEndian high >>> excess) <<< (32 * (words - 1))

/-- A uniformly random residue modulo `m` among those that `keep` allows. Each draw takes as many
32-bit words as `m` fills. -/
def residue (m : Nat) (keep : Nat → Bool) : Sampler Nat := fun stream =>
  let size := 4 * groupCount 32 (bitLength m)
  if m = 0 then .error .zeroModulus
  else if _ : 0 < size ∧ size ≤ stream.length then
    let v := candidate m (stream.take size)
    if v < m && keep v then .ok (v, stream.drop size) else residue m keep (stream.drop size)
  else .error .exhausted
termination_by stream => stream.length
decreasing_by
  simp only [List.length_drop]
  omega

/-- A uniformly random residue modulo `m` among those that `keep` allows. Each draw takes the most
significant 64-bit limb first, cut to the binary digits that the top limb of `m` has; while that
limb is above the top limb of `m` it is drawn again. Then follow the other limbs, least
significant first. -/
def residueTopFirst (m : Nat) (keep : Nat → Bool) : Sampler Nat := fun stream =>
  let limbs := groupCount 64 (bitLength m)
  let lower := 8 * (limbs - 1)
  let top := m >>> (64 * (limbs - 1))
  if _ : 8 ≤ stream.length then
    let high := littleEndian (stream.take 8) % (1 <<< bitLength top)
    if top < high then residueTopFirst m keep (stream.drop 8)
    else if 8 + lower ≤ stream.length then
      let rest := (stream.drop 8).drop lower
      let v := littleEndian ((stream.drop 8).take lower) + high <<< (64 * (limbs - 1))
      if v < m && keep v then .ok (v, rest) else residueTopFirst m keep rest
    else .error .exhausted
  else .error .exhausted
termination_by stream => stream.length
decreasing_by
  all_goals simp only [List.length_drop]; omega

/-- A uniformly random unit modulo `n`. -/
def unit (n : Nat) : Sampler Nat := residue n fun v => v.gcd n == 1

/-- A uniformly random unit modulo `n`, drawn with its top limb first. -/
def unitTopFirst (n : Nat) : Sampler Nat := residueTopFirst n fun v => v.gcd n == 1

end Sampler

end SigmaProtocol
