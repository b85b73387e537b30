import SigmaProtocol.Bytes

/-!
# Numbers of a fixed width

Secret numbers are held in a whole number of 64-bit limbs, and whatever is computed from them
walks over the whole width, so that the size of the value stays hidden. The width is visible in
two places: in the written form of a secret and in the number of steps of an exponentiation.

A division brings both numbers to the wider of the two widths. `widen` and `shorten` are told that
the new width is no smaller and no larger than the old one, so that no limb of a value is lost by
mistake.
-/

namespace SigmaProtocol

/-- A number held in one or more 64-bit limbs, least significant limb first. -/
structure LimbNat where
  /-- The limbs, least significant first. -/
  limbs : List UInt64
  /-- There is at least one limb, also for the value zero. -/
  limbs_ne_nil : limbs ≠ []
deriving Repr

namespace LimbNat

/-- The value that limbs hold. -/
def valueOf (limbs : List UInt64) : Nat := limbs.foldr (fun l acc => l.toNat + UInt64.size * acc) 0

/-- The value. -/
def toNat (n : LimbNat) : Nat := valueOf n.limbs

/-- The number of binary digits that the limbs have room for. -/
def precision (n : LimbNat) : Nat := 64 * n.limbs.length

/-- The value, written over the whole width, most significant byte first. -/
def toBytes (n : LimbNat) : Bytes := n.limbs.reverse.flatMap fun l => Bytes.ofNat 8 l.toNat

/-- Cuts a byte string, given from its last byte to its first, into limbs. -/
def limbsOfReversed : Bytes → List UInt64
  | [] => []
  | b :: bs => UInt64.ofNat (Bytes.toNat ((b :: bs).take 8).reverse) :: limbsOfReversed (bs.drop 7)
termination_by bs => bs.length
decreasing_by
  simp only [List.length_drop, List.length_cons]
  omega

/-- The limbs `ls`, or the single limb zero if there are none. -/
def ofLimbs (ls : List UInt64) : LimbNat :=
  if h : ls = [] then ⟨[0], by simp⟩ else ⟨ls, h⟩

theorem length_ofLimbs (ls : List UInt64) : (ofLimbs ls).limbs.length = max 1 ls.length := by
  unfold ofLimbs
  split
  · next h => simp [h]
  · next h =>
    have := List.length_pos_iff.mpr h
    show ls.length = _
    omega

/-- The number that `bs` writes, held in just as many limbs as the bytes fill, at least one. -/
def ofBytes (bs : Bytes) : LimbNat := ofLimbs (limbsOfReversed bs.reverse)

/-- `n` in the fewest limbs that hold it. -/
def ofNat (n : Nat) : LimbNat := ofBytes (Bytes.minimal n)

/-- The last `count` limbs of `n`, at least one. -/
def ofNatWithLimbs (count n : Nat) : LimbNat :=
  ofLimbs ((List.range count).map fun i => UInt64.ofNat (n >>> (64 * i)))

/-- Numbers are equal if their values are, whatever their widths. -/
instance : BEq LimbNat := ⟨fun a b => a.toNat == b.toNat⟩

/-! ## Widths -/

/-- `n` in `count` limbs, with zero limbs at the top; it may not have more. -/
def widen (n : LimbNat) (count : Nat) (_ : n.limbs.length ≤ count) : LimbNat :=
  ⟨n.limbs ++ List.replicate (count - n.limbs.length) 0, by simp [n.limbs_ne_nil]⟩

/-- The lowest `count` limbs of `n`; it may not have fewer. -/
def shorten (n : LimbNat) (count : Nat) (h : 0 < count ∧ count ≤ n.limbs.length) : LimbNat :=
  ⟨n.limbs.take count, List.length_pos_iff.mp (by rw [List.length_take]; omega)⟩

/-- The remainder of the division by `d`, in as many limbs as `n` has. -/
def rem (n d : LimbNat) : LimbNat := ofNatWithLimbs n.limbs.length (n.toNat % d.toNat)

@[simp] theorem length_widen (n : LimbNat) (count : Nat) (h : n.limbs.length ≤ count) :
    (n.widen count h).limbs.length = count := by
  simp only [widen, List.length_append, List.length_replicate]
  omega

@[simp] theorem length_shorten (n : LimbNat) (count : Nat)
    (h : 0 < count ∧ count ≤ n.limbs.length) : (n.shorten count h).limbs.length = count := by
  simp only [shorten, List.length_take]
  omega

theorem length_rem (n d : LimbNat) : (n.rem d).limbs.length = n.limbs.length := by
  have := List.length_pos_iff.mpr n.limbs_ne_nil
  rw [rem, ofNatWithLimbs, length_ofLimbs, List.length_map, List.length_range]
  omega

end LimbNat

/-! ## Odd moduli -/

/-- An odd number as a modulus. -/
structure OddModulus where
  value : LimbNat
  odd : value.toNat % 2 = 1

namespace OddModulus

/-- The modulus `m` in the fewest limbs that hold it; an even number is refused. -/
def ofNat? (m : Nat) : Option OddModulus :=
  if h : (LimbNat.ofNat m).toNat % 2 = 1 then some ⟨.ofNat m, h⟩ else none

/-- `n` modulo `m`, in as many limbs as `m` has. The division is done in the wider of the two
widths. -/
def reduce (m : OddModulus) (n : LimbNat) : LimbNat :=
  let count := max n.limbs.length m.value.limbs.length
  let dividend := n.widen count (Nat.le_max_left ..)
  let divisor := m.value.widen count (Nat.le_max_right ..)
  (dividend.rem divisor).shorten m.value.limbs.length
    ⟨List.length_pos_iff.mpr m.value.limbs_ne_nil, by
      rw [LimbNat.length_rem, LimbNat.length_widen]
      exact Nat.le_max_right ..⟩

end OddModulus

end SigmaProtocol
