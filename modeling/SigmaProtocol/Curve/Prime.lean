import SigmaProtocol.Curve.Point
import SigmaProtocol.Modular

/-!
# Curves over prime fields

The curve `y² = x³ + ax + b` modulo a prime `p` with its chord-and-tangent addition in affine
coordinates. All coordinates are residues below `p`, so that equal points have equal coordinates.
-/

namespace SigmaProtocol

/-- The curve `y² = x³ + ax + b` modulo `p`. -/
structure PrimeCurve where
  p : Nat
  a : Nat
  b : Nat
deriving DecidableEq, Repr

namespace PrimeCurve

/-- `x³ + ax + b`. -/
def rightSide (c : PrimeCurve) (x : Nat) : Nat := (x * x % c.p * x + c.a * x + c.b) % c.p

/-- Whether `(x, y)` are field elements that satisfy the curve equation. -/
def contains (c : PrimeCurve) (x y : Nat) : Bool :=
  x < c.p && y < c.p && y * y % c.p == c.rightSide x

/-- Whether a point is infinity or on the curve. -/
def hasPoint (c : PrimeCurve) : Point → Bool
  | .infinity => true
  | .affine x y => c.contains x y

/-- The third point on the line with the given slope through `(x1, y1)` and a point with the
abscissa `x2`, reflected. -/
def reflect (c : PrimeCurve) (slope x1 y1 x2 : Nat) : Point :=
  let x3 := subMod (slope * slope) (x1 + x2) c.p
  .affine x3 (subMod (slope * subMod x1 x3 c.p) y1 c.p)

/-- The double of a point. -/
def double (c : PrimeCurve) : Point → Point
  | .infinity => .infinity
  | .affine x y =>
    match inverse? (2 * y) c.p with
    | none => .infinity
    | some inv => c.reflect ((3 * x * x + c.a) * inv % c.p) x y x

/-- The sum of two points. -/
def add (c : PrimeCurve) : Point → Point → Point
  | .infinity, q => q
  | p, .infinity => p
  | .affine x1 y1, .affine x2 y2 =>
    if x1 = x2 then
      if y1 = y2 then c.double (.affine x1 y1) else .infinity
    else
      match inverse? (subMod x2 x1 c.p) c.p with
      | none => .infinity
      | some inv => c.reflect (subMod y2 y1 c.p * inv % c.p) x1 y1 x2

/-- The negative of a point. -/
def negate (c : PrimeCurve) : Point → Point
  | .infinity => .infinity
  | .affine x y => .affine x (subMod 0 y c.p)

/-- The multiple `k * p`, over the binary digits of `k` from the top: double, then add. -/
def multiply (c : PrimeCurve) (p : Point) (k : Nat) : Point :=
  if k = 0 then .infinity
  else
    let doubled := c.double (multiply c p (k / 2))
    if k % 2 = 1 then c.add doubled p else doubled
termination_by k

/-- The point with the abscissa `x` and an even ordinate, for a prime `p` of the form `4 * k + 3`,
where the square root of a square is its power to the `(p + 1) / 4`. -/
def liftEven? (c : PrimeCurve) (x : Nat) : Option Point :=
  let root := powMod (c.rightSide x) ((c.p + 1) / 4) c.p
  let y := if root % 2 = 0 then root else c.p - root
  if c.contains x y then some (.affine x y) else none

end PrimeCurve

end SigmaProtocol
