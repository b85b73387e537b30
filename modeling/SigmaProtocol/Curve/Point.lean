import SigmaProtocol.Bytes

/-!
# Points of elliptic curves

A point is infinity or has two affine coordinates. It is encoded as these in a fixed number of bytes
each, and infinity as zero bytes. The shortest form of a coordinate is filled up with zero bytes,
and a coordinate that is too wide loses its upper bytes.

* `Point.length_encode`: the encoding has a fixed length.
-/

namespace SigmaProtocol

/-- A point of an elliptic curve in affine coordinates. -/
inductive Point
  | infinity
  | affine (x y : Nat)
deriving DecidableEq, Repr

/-- The affine coordinates of a point other than infinity. -/
def Point.coordinates? : Point → Option (Nat × Nat)
  | infinity => none
  | affine x y => some (x, y)

/-! ## Errors of group operations -/

/-- An operation that not every group has. -/
inductive GroupOperation
  | encodeBytes
  | decodeElement
deriving DecidableEq, Repr

/-- The name of an operation. -/
def GroupOperation.text : GroupOperation → String
  | encodeBytes => "encode_bytes_to_element"
  | decodeElement => "decode_element_to_bytes"

/-- Why a group operation has no result. -/
inductive ElementError
  | invalidElement
  | wrongLength (expected actual : Nat)
  | unsupported (operation : GroupOperation)
deriving DecidableEq, Repr

/-- The wording of an error. -/
def ElementError.message : ElementError → String
  | invalidElement => "The given coordinates or bytes do not describe a member of this group"
  | wrongLength expected actual =>
    "Expected an encoding of " ++ expected.repr ++ " bytes, got " ++ actual.repr
  | unsupported operation => "`" ++ operation.text ++ "` is not supported by this group"

/-! ## The canonical encoding -/

namespace Point

/-- The encoding of a point with coordinates of `width` bytes. -/
def encode (width : Nat) : Point → Bytes
  | .infinity => List.replicate (2 * width) 0
  | .affine x y => Bytes.fit width (Bytes.minimal x) ++ Bytes.fit width (Bytes.minimal y)

/-- The point that is encoded by `bs` with coordinates of `width` bytes. -/
def decode (width : Nat) (bs : Bytes) : Except ElementError Point :=
  if bs.length ≠ 2 * width then .error (.wrongLength (2 * width) bs.length)
  else if bs.all (· == 0) then .ok .infinity
  else .ok (.affine (Bytes.toNat (bs.take width)) (Bytes.toNat (bs.drop width)))

theorem length_encode (width : Nat) (p : Point) : (p.encode width).length = 2 * width := by
  cases p with
  | infinity => simp [encode]
  | affine x y => simp [encode]; omega

end Point

end SigmaProtocol
