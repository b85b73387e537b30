import SigmaProtocol.Bytes

/-!
# SHAKE-256

The extendable-output hash of FIPS 202: the permutation Keccak-f[1600] in a sponge of rate 136
bytes, with the domain bits `1111` and the padding `10*1`. A state is 25 lanes of 64 bits, lane
`x + 5 * y` in column `x` and plane `y`; the bytes of a lane come least significant first.

* `length_shake256`: the output has the length asked for.
-/

namespace SigmaProtocol.Shake256

/-- The 1600 bits of a sponge. -/
abbrev State := Vector UInt64 25

/-- The state of an empty sponge. -/
def State.zero : State := Vector.replicate 25 0

/-! ## The permutation -/

/-- `w`, its bits moved up by `n < 64` places in a circle. -/
def rotate (w : UInt64) (n : UInt64) : UInt64 := (w <<< n) ||| (w >>> (64 - n))

/-- How far each lane is turned in the step ρ. -/
def offsets : Vector UInt64 25 := #v[
  0, 1, 62, 28, 27, 36, 44, 6, 55, 20, 3, 10, 43,
  25, 39, 41, 45, 15, 21, 8, 18, 2, 61, 56, 14]

/-- The constants of the step ι, one a round. -/
def roundConstants : List UInt64 := [
  0x0000000000000001, 0x0000000000008082, 0x800000000000808A, 0x8000000080008000,
  0x000000000000808B, 0x0000000080000001, 0x8000000080008081, 0x8000000000008009,
  0x000000000000008A, 0x0000000000000088, 0x0000000080008009, 0x000000008000000A,
  0x000000008000808B, 0x800000000000008B, 0x8000000000008089, 0x8000000000008003,
  0x8000000000008002, 0x8000000000000080, 0x000000000000800A, 0x800000008000000A,
  0x8000000080008081, 0x8000000000008080, 0x0000000080000001, 0x8000000080008008]

/-- Step θ: each lane takes up the parities of the column before it and, turned by one place, of
the column behind it. -/
def theta (s : State) : State :=
  let parity : Vector UInt64 5 := Vector.ofFn fun x =>
    s[x.val] ^^^ s[x.val + 5] ^^^ s[x.val + 10] ^^^ s[x.val + 15] ^^^ s[x.val + 20]
  let change : Vector UInt64 5 := Vector.ofFn fun x =>
    parity[(x.val + 4) % 5] ^^^ rotate parity[(x.val + 1) % 5] 1
  Vector.ofFn fun i => s[i] ^^^ change[i.val % 5]

/-- Steps ρ and π: lane `(x, y)` moves to `(y, 2x + 3y)`, turned by its offset. Read from the
target `(x, y)`, the lane comes from column `x + 3y` of plane `x`. -/
def rhoPi (s : State) : State :=
  Vector.ofFn fun i =>
    let x := i.val % 5
    let y := i.val / 5
    let source := (x + 3 * y) % 5 + 5 * x
    have : source < 25 := by omega
    rotate s[source] offsets[source]

/-- Step χ: within a plane each lane takes up the next but one where the next has no bit. -/
def chi (s : State) : State :=
  Vector.ofFn fun i =>
    let x := i.val % 5
    let plane := i.val - x
    have : plane + (x + 1) % 5 < 25 := by omega
    have : plane + (x + 2) % 5 < 25 := by omega
    s[i] ^^^ (~~~ s[plane + (x + 1) % 5] &&& s[plane + (x + 2) % 5])

/-- One round, with step ι last. -/
def round (s : State) (constant : UInt64) : State :=
  let t := chi (rhoPi (theta s))
  t.set 0 (t[0] ^^^ constant)

/-- The permutation Keccak-f[1600]. -/
def permute (s : State) : State := roundConstants.foldl round s

/-! ## The sponge -/

/-- The number of bytes that go in or come out between two permutations. -/
def rate : Nat := 136

/-- The eight bytes of a lane. -/
def laneBytes (w : UInt64) : Bytes := (Bytes.ofNat 8 w.toNat).reverse

/-- The lane with the first eight of `bs` as its bytes. -/
def laneOfBytes (bs : Bytes) : UInt64 := UInt64.ofNat (Bytes.toNat (bs.take 8).reverse)

/-- `s` after a block of at most `rate` bytes has gone in. -/
def absorbBlock (s : State) (block : Bytes) : State :=
  permute (Vector.ofFn fun i =>
    if i.val < 17 then s[i] ^^^ laneOfBytes (block.drop (8 * i.val)) else s[i])

/-- The last block: what is left of the input, filled up by the domain bits and the padding. -/
def padded (rest : Bytes) : Bytes :=
  if rest.length + 1 = rate then rest ++ [0x9F]
  else rest ++ 0x1F :: List.replicate (rate - rest.length - 2) 0 ++ [0x80]

/-- `s` after the whole input has gone in. -/
def absorb (s : State) (input : Bytes) : State :=
  if _ : input.length < rate then absorbBlock s (padded input)
  else absorb (absorbBlock s (input.take rate)) (input.drop rate)
termination_by input.length
decreasing_by
  have : 0 < rate := by decide
  simp only [List.length_drop]
  omega

/-- The bytes that a state gives out before the next permutation. -/
def block (s : State) : Bytes := (s.toList.take 17).flatMap laneBytes

/-- The next `count` bytes that `s` gives out. -/
def squeeze (s : State) (count : Nat) : Bytes :=
  if _ : count ≤ rate then (block s).take count
  else block s ++ squeeze (permute s) (count - rate)
termination_by count
decreasing_by
  have : 0 < rate := by decide
  omega

theorem length_block (s : State) : (block s).length = rate := by
  have h (ls : List UInt64) : (ls.flatMap laneBytes).length = 8 * ls.length := by
    induction ls with
    | nil => rfl
    | cons l ls ih => simp [laneBytes, ih]; omega
  simp [block, h, rate]

theorem length_squeeze (s : State) (count : Nat) : (squeeze s count).length = count := by
  fun_induction squeeze s count with
  | case1 s count h => simp [length_block, h]
  | case2 s count h ih => simp [length_block, ih]; omega

end SigmaProtocol.Shake256

namespace SigmaProtocol

/-- The first `count` bytes of the SHAKE-256 output for `input`. -/
def shake256 (input : Bytes) (count : Nat) : Bytes :=
  Shake256.squeeze (Shake256.absorb Shake256.State.zero input) count

/-- As many bytes come out as are asked for. -/
theorem length_shake256 (input : Bytes) (count : Nat) : (shake256 input count).length = count :=
  Shake256.length_squeeze _ _

end SigmaProtocol
