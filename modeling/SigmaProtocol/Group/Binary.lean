import SigmaProtocol.Curve.Binary
import SigmaProtocol.Curve.Table
import SigmaProtocol.Group.Basic

/-!
# Groups over binary curves

The subgroup that a generator spans on a curve over a binary field. The generator is taken from the
parameters unchecked, unless its check is asked for. Byte strings cannot be hidden in elements.
-/

namespace SigmaProtocol

/-- The curve with the given parameters. -/
def BinaryCurveParams.toCurve (params : BinaryCurveParams) : BinaryCurve :=
  .ofBasis params.m params.basis params.a params.b

/-- What is checked when a group is built. -/
structure GroupOptions where
  /-- Refuse a generator that is not a member of the group. -/
  verifyGenerator : Bool := false
deriving DecidableEq, Repr

namespace GroupOptions

/-- Reads options. -/
def read? (v : Json) : Option GroupOptions := do
  match ← Json.RecordForm.fields? ⟨["verify_generator"], 0, false⟩ v with
  | [verifyGenerator] => return ⟨← Json.withDefault? Json.readBool? false verifyGenerator⟩
  | _ => none

instance : JsonFormat GroupOptions where
  write options := Json.record [("verify_generator", .bool options.verifyGenerator)]
  read? := read?

end GroupOptions

namespace BinaryCurve

/-- Whether a point of the curve belongs to the subgroup of the given order and index. On a curve
with the index 1 every point is taken to do so. -/
def inSubgroup (c : BinaryCurve) (order cofactor : Nat) (p : Point) : Bool :=
  p == .infinity || cofactor == 1 || c.multiply p order == .infinity

/-- Whether a point is infinity, or on the curve and in the subgroup. -/
def isMember (c : BinaryCurve) (order cofactor : Nat) : Point → Bool
  | .infinity => true
  | .affine x y => c.contains x y && c.inSubgroup order cofactor (.affine x y)

end BinaryCurve

namespace CurveGroup

/-- The group with the given parameters. -/
def binary (params : BinaryGroupParams) : CurveGroup :=
  let curve := params.curve.toCurve
  let isMember := curve.isMember params.curve.order params.curve.cofactor
  { family := "ECF2m"
    params := .binary params
    generator := .affine params.curve.generatorX params.curve.generatorY
    isMember
    mul := curve.add
    inverse := BinaryCurve.negate
    pow := curve.multiply
    powSecret := ladder curve.add
    coordinateWidth := groupCount 8 params.curve.m
    ofCoordinates := fun x y =>
      if isMember (.affine x y) then .ok (.affine x y) else .error .invalidElement
    maxEncodable := 0
    encodeBytes := fun _ => .error (.unsupported .encodeBytes)
    decodeElement := fun _ => .error (.unsupported .decodeElement) }

/-- The group with the given parameters, its generator checked if the options ask for it. -/
def binaryChecked (params : BinaryGroupParams) (options : GroupOptions) :
    Except TableError CurveGroup :=
  let g := binary params
  if options.verifyGenerator && !g.isMember g.generator then
    .error (.invalidGenerator params.curve.name)
  else .ok g

/-- The parameters of a binary curve in a table. -/
def binaryParams (table : CurveTable) (name : String) : Except TableError BinaryGroupParams := do
  match ← table.params name with
  | .binary params => return params
  | .prime _ => throw (.unsupportedField name "Fp")

/-- The group of a binary curve in a table. -/
def ofTable (table : CurveTable) (name : String) (options : GroupOptions) :
    Except TableError CurveGroup := do
  binaryChecked (← binaryParams table name) options

/-- The group of a binary curve that is always at hand. -/
def nist (name : String) : Except TableError CurveGroup := ofTable .nist name ⟨false⟩

end CurveGroup

end SigmaProtocol
