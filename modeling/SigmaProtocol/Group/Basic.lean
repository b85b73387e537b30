import SigmaProtocol.Bytes.Limbs
import SigmaProtocol.Curve.Params
import SigmaProtocol.Curve.Point
import SigmaProtocol.Random

/-!
# Groups for discrete logarithms

A `CurveGroup` is a cyclic group of points of an elliptic curve, written multiplicatively, together
with the operations that the protocols need. The identity is the point at infinity. The protocols
use nothing but this interface; the groups themselves are built over binary curves and secp256k1.
-/

namespace SigmaProtocol

/-- A cyclic group of points. -/
structure CurveGroup where
  /-- A short description of the family of groups. -/
  family : String
  params : CurveParams
  generator : Point
  /-- Whether a point belongs to the group. -/
  isMember : Point → Bool
  /-- The group operation. -/
  mul : Point → Point → Point
  inverse : Point → Point
  /-- A power, for a public exponent. -/
  pow : Point → Nat → Point
  /-- A power, for a secret exponent. -/
  powSecret : Point → LimbNat → Point
  /-- The number of bytes of one encoded coordinate. -/
  coordinateWidth : Nat
  /-- The element with the given coordinates. -/
  ofCoordinates : Nat → Nat → Except ElementError Point
  /-- The length of the longest byte string that can be hidden in an element. -/
  maxEncodable : Nat
  /-- An element in which a byte string is hidden. -/
  encodeBytes : Bytes → Except ElementError Point
  /-- The byte string that is hidden in an element. -/
  decodeElement : Point → Except ElementError Bytes

namespace CurveGroup

/-- The order of the group. -/
def order (g : CurveGroup) : Nat := g.params.order

/-- A power of the generator. -/
def powGenerator (g : CurveGroup) (exponent : Nat) : Point := g.pow g.generator exponent

/-- The length of an encoded element. -/
def elementLength (g : CurveGroup) : Nat := 2 * g.coordinateWidth

/-- The canonical encoding of an element. -/
def toBytes (g : CurveGroup) (element : Point) : Bytes := element.encode g.coordinateWidth

/-- The element with the given canonical encoding. -/
def ofBytes (g : CurveGroup) (bs : Bytes) : Except ElementError Point := do
  match ← Point.decode g.coordinateWidth bs with
  | .infinity => return .infinity
  | .affine x y => g.ofCoordinates x y

/-- A uniformly random exponent below the order. -/
def randomExponent (g : CurveGroup) : Sampler Nat := Sampler.residue g.order fun _ => true

/-- A uniformly random element. -/
def randomElement (g : CurveGroup) : Sampler Point := do
  return g.powGenerator (← g.randomExponent)

/-! ## The ladder -/

/-- The pair of neighbouring powers after the low `count` binary digits of `exponent` have been
taken up, most significant one first. -/
def ladderLoop (mul : Point → Point → Point) (exponent : Nat) :
    (count : Nat) → (low high : Point) → Point
  | 0, low, _ => low
  | count + 1, low, high =>
    if exponent.testBit count then ladderLoop mul exponent count (mul low high) (mul high high)
    else ladderLoop mul exponent count (mul low low) (mul low high)

/-- A power by Montgomery's ladder over the whole width of the exponent: which operations are done
depends on the width alone. -/
def ladder (mul : Point → Point → Point) (base : Point) (exponent : LimbNat) : Point :=
  ladderLoop mul exponent.toNat exponent.precision .infinity base

end CurveGroup

end SigmaProtocol
