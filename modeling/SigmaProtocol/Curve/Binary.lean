import SigmaProtocol.Curve.BinaryField
import SigmaProtocol.Curve.Point

/-!
# Curves over binary fields

The curve `y² + xy = x³ + ax² + b` with its chord-and-tangent addition in affine coordinates. The
coordinates of a point are taken as they are given, whether they are on the curve or not, and two
points are the same only if their coordinates are the same numbers. Where a division fails the
result is infinity: on a curve over a field that happens only where the line through the points is
vertical.
-/

namespace SigmaProtocol

/-- The curve `y² + xy = x³ + ax² + b` over a binary field. -/
structure BinaryCurve where
  field : BinaryField
  /-- The coefficient `a`, reduced. -/
  a : Nat
  /-- The coefficient `b`, reduced. -/
  b : Nat
deriving DecidableEq, Repr

namespace BinaryCurve

/-- The curve with the given coefficients over the field of degree `m` with the given basis. -/
def ofBasis (m : Nat) (basis : Basis) (a b : Nat) : BinaryCurve :=
  let field := BinaryField.ofBasis m basis
  ⟨field, field.reduce a, field.reduce b⟩

/-- Whether `(x, y)` are field elements that satisfy the curve equation. -/
def contains (c : BinaryCurve) (x y : Nat) : Bool :=
  let f := c.field
  f.contains x && f.contains y &&
    let x2 := f.square x
    f.square y ^^^ f.mul x y == f.mul x2 x ^^^ f.mul c.a x2 ^^^ c.b

/-- `λ² + λ + a`, the part that the abscissas of sums and doubles share. -/
def slopeAbscissa (c : BinaryCurve) (slope : Nat) : Nat := c.field.square slope ^^^ slope ^^^ c.a

/-- The double of a point. -/
def double (c : BinaryCurve) : Point → Point
  | .infinity => .infinity
  | .affine x y =>
    let f := c.field
    match f.div? y x with
    | none => .infinity
    | some quotient =>
      let slope := x ^^^ quotient
      let x3 := c.slopeAbscissa slope
      .affine x3 (f.square x ^^^ f.mul slope x3 ^^^ x3)

/-- The sum of two points. -/
def add (c : BinaryCurve) : Point → Point → Point
  | .infinity, q => q
  | p, .infinity => p
  | .affine x1 y1, .affine x2 y2 =>
    if x1 = x2 then
      if y1 = y2 then c.double (.affine x1 y1) else .infinity
    else
      let f := c.field
      match f.div? (y1 ^^^ y2) (x1 ^^^ x2) with
      | none => .infinity
      | some slope =>
        let x3 := c.slopeAbscissa slope ^^^ (x1 ^^^ x2)
        .affine x3 (f.mul slope (x1 ^^^ x3) ^^^ x3 ^^^ y1)

/-- The negative of a point. -/
def negate : Point → Point
  | .infinity => .infinity
  | .affine x y => .affine x (x ^^^ y)

/-- The multiple `k * p`, over the binary digits of `k` from the top: double, then add. -/
def multiply (c : BinaryCurve) (p : Point) (k : Nat) : Point :=
  if k = 0 then .infinity
  else
    let doubled := c.double (multiply c p (k / 2))
    if k % 2 = 1 then c.add doubled p else doubled
termination_by k

end BinaryCurve

end SigmaProtocol
