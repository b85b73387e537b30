import SigmaProtocol.Curve.Prime
import SigmaProtocol.Group.Basic

/-!
# The group secp256k1

The curve `y² = x³ + 7` modulo `2 ^ 256 - 2 ^ 32 - 977`. Its points form a group of prime order, so
that every point of the curve is a member. Exponents count modulo the order.

A byte string of at most 30 bytes is hidden in the abscissa of a point: its length, the bytes, zero
bytes, and a counter that is raised until some point of the curve has the abscissa.
-/

namespace SigmaProtocol.Secp256k1

/-- The curve. -/
def curve : PrimeCurve :=
  ⟨0xFFFFFFFFFFFFFFFFFFFFFFFFFFFFFFFFFFFFFFFFFFFFFFFFFFFFFFFEFFFFFC2F, 0, 7⟩

/-- The parameters of the group. -/
def params : PrimeCurveParams where
  name := "secp256k1"
  p := 0xFFFFFFFFFFFFFFFFFFFFFFFFFFFFFFFFFFFFFFFFFFFFFFFFFFFFFFFEFFFFFC2F
  a := 0
  b := 7
  generatorX := 0x79BE667EF9DCBBAC55A06295CE870B07029BFCDB2DCE28D959F2815B16F81798
  generatorY := 0x483ADA7726A3C4655DA4FBFC0E1108A8FD17B448A68554199C47D08FFB10D4B8
  order := 0xFFFFFFFFFFFFFFFFFFFFFFFFFFFFFFFEBAAEDCE6AF48A03BBFD25E8CD0364141
  cofactor := 1
  three_lt_p := by decide
  a_lt := by decide
  b_lt := by decide
  generatorX_lt := by decide
  generatorY_lt := by decide
  one_lt_order := by decide
  cofactor_ne_zero := by decide

/-- The number of bytes of a coordinate. -/
def width : Nat := 32

/-- The length of the longest byte string that can be hidden: an abscissa also holds the length and
the counter. -/
def maxEncodable : Nat := width - 2

/-- The value of an exponent modulo the order, by Horner's rule over its bytes. -/
def scalarOfBytes (bs : Bytes) : Nat :=
  bs.foldl (fun acc b => (acc * 256 + b.toNat) % params.order) 0

/-- The element with the given coordinates. -/
def ofCoordinates (x y : Nat) : Except ElementError Point :=
  if curve.contains x y then .ok (.affine x y) else .error .invalidElement

/-- The abscissa that is tried for `bs` with the given counter. -/
def abscissa (bs : Bytes) (counter : Nat) : Nat :=
  let padding := List.replicate (maxEncodable - bs.length) 0
  Bytes.toNat (UInt8.ofNat bs.length :: bs ++ padding ++ [UInt8.ofNat counter])

/-- An element in which `bs` is hidden. -/
def encodeBytes (bs : Bytes) : Except ElementError Point :=
  if maxEncodable < bs.length then .error (.wrongLength maxEncodable bs.length)
  else
    match (List.range 256).findSome? fun counter => curve.liftEven? (abscissa bs counter) with
    | none => .error .invalidElement
    | some element => .ok element

/-- The byte string that is hidden in an element. -/
def decodeElement : Point → Except ElementError Bytes
  | .infinity => .error .invalidElement
  | .affine x _ =>
    match Bytes.ofNat width x with
    | [] => .error .invalidElement
    | length :: rest =>
      if maxEncodable < length.toNat then .error .invalidElement
      else .ok (rest.take length.toNat)

end Secp256k1

/-- The group secp256k1. -/
def CurveGroup.secp256k1 : CurveGroup where
  family := "secp256k1"
  params := .prime Secp256k1.params
  generator := .affine Secp256k1.params.generatorX Secp256k1.params.generatorY
  isMember := Secp256k1.curve.hasPoint
  mul := Secp256k1.curve.add
  inverse := Secp256k1.curve.negate
  pow base exponent := Secp256k1.curve.multiply base (exponent % Secp256k1.params.order)
  powSecret base exponent :=
    Secp256k1.curve.multiply base (Secp256k1.scalarOfBytes exponent.toBytes)
  coordinateWidth := Secp256k1.width
  ofCoordinates := Secp256k1.ofCoordinates
  maxEncodable := Secp256k1.maxEncodable
  encodeBytes := Secp256k1.encodeBytes
  decodeElement := Secp256k1.decodeElement

end SigmaProtocol
