import SigmaProtocol.Curve.BinaryField

/-!
# Curve parameters

The parameters that a curve table may hold. Everything that is checked when an entry is read is
part of the type, so parameters in hand are well-formed. That the modulus of a binary field is
irreducible, that the generator is on the curve and that the order is right are not checked.
-/

namespace SigmaProtocol

/-- Parameters of the curve `y² + xy = x³ + ax² + b` over a binary field. -/
structure BinaryCurveParams where
  name : String
  /-- The degree of the field. -/
  m : Nat
  basis : Basis
  a : Nat
  b : Nat
  generatorX : Nat
  generatorY : Nat
  /-- The order of the subgroup that the generator spans. -/
  order : Nat
  /-- The index of that subgroup. -/
  cofactor : Nat
  two_le_m : 2 ≤ m
  basis_valid : basis.Valid m
  a_fits : bitLength a ≤ m
  b_fits : bitLength b ≤ m
  b_ne_zero : b ≠ 0
  generatorX_fits : bitLength generatorX ≤ m
  generatorY_fits : bitLength generatorY ≤ m
  one_lt_order : 1 < order
  cofactor_ne_zero : cofactor ≠ 0
deriving DecidableEq, Repr

/-- Parameters of a group of points over a binary field. -/
structure BinaryGroupParams where
  curve : BinaryCurveParams
  /-- Whether the parameters are declared as those of a Koblitz curve. -/
  koblitz : Bool
  koblitz_coefficients : koblitz = true → curve.a ≤ 1 ∧ curve.b = 1
deriving DecidableEq, Repr

/-- The same parameters without the declaration as a Koblitz curve. -/
def BinaryGroupParams.plain (params : BinaryGroupParams) : BinaryGroupParams :=
  ⟨params.curve, false, nofun⟩

/-- Parameters of the curve `y² = x³ + ax + b` modulo `p`. -/
structure PrimeCurveParams where
  name : String
  /-- The modulus of the field. -/
  p : Nat
  a : Nat
  b : Nat
  generatorX : Nat
  generatorY : Nat
  /-- The order of the subgroup that the generator spans. -/
  order : Nat
  /-- The index of that subgroup. -/
  cofactor : Nat
  three_lt_p : 3 < p
  a_lt : a < p
  b_lt : b < p
  generatorX_lt : generatorX < p
  generatorY_lt : generatorY < p
  one_lt_order : 1 < order
  cofactor_ne_zero : cofactor ≠ 0
deriving DecidableEq, Repr

/-- Parameters of a group of points on a curve. -/
inductive CurveParams
  | prime (params : PrimeCurveParams)
  | binary (params : BinaryGroupParams)
deriving DecidableEq, Repr

/-- The order of the group. -/
def CurveParams.order : CurveParams → Nat
  | prime params => params.order
  | binary params => params.curve.order

end SigmaProtocol
