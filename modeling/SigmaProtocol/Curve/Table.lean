import SigmaProtocol.Curve.Params
import SigmaProtocol.Json.Format

/-!
# Curve tables

A curve table is a JSON object of named entries. Reading a table checks only the JSON form of its
entries; an entry is checked when its parameters are asked for, in a fixed order, and the first
check that fails gives the error.

Numbers are hexadecimal text (`Hex.natural?`). An entry for the field `F2m` must give `m`, `k1`,
`a`, `b`, `gx`, `gy`, `order` and `cofactor`, and for a pentanomial basis `k2` and `k3`; an entry
for the field `Fp` must give `p`, `a`, `b`, `gx`, `gy`, `order` and `cofactor`.
-/

namespace SigmaProtocol

/-- A key of a curve entry. -/
inductive CurveKey
  | m | k1 | p | a | b | gx | gy | order | cofactor
deriving DecidableEq, Repr

/-- The spelling of a key. -/
def CurveKey.text : CurveKey → String
  | m => "m"
  | k1 => "k1"
  | p => "p"
  | a => "a"
  | b => "b"
  | gx => "gx"
  | gy => "gy"
  | order => "order"
  | cofactor => "cofactor"

/-- Why curve parameters cannot be had. -/
inductive TableError
  | missingCurve (curve : String)
  | missingKey (curve : String) (key : CurveKey)
  | malformedValue (curve : String) (key : CurveKey)
  | malformedBasis (curve : String)
  | unsupportedField (curve field : String)
  | invalidGenerator (curve : String)
  /-- The table is not JSON of the right form. -/
  | malformedTable
  /-- The file with the table cannot be read as text. -/
  | unreadableFile
deriving DecidableEq, Repr

/-- The wording of an error; none is fixed for tables that cannot be read. -/
def TableError.message? : TableError → Option String
  | missingCurve curve => some ("Curve `" ++ curve ++ "` is not present in the parameter source")
  | missingKey curve key => some ("Curve `" ++ curve ++ "`: missing key `" ++ key.text ++ "`")
  | malformedValue curve key =>
    some ("Curve `" ++ curve ++ "`: malformed value for `" ++ key.text ++ "`")
  | malformedBasis curve =>
    some ("Curve `" ++ curve ++
      "`: the basis is neither a valid trinomial nor a valid pentanomial")
  | unsupportedField curve field =>
    some ("Curve `" ++ curve ++ "`: unsupported field type `" ++ field ++ "`")
  | invalidGenerator curve =>
    some ("Curve `" ++ curve ++ "`: the generator is not a member of the declared sub-group")
  | malformedTable => none
  | unreadableFile => none

/-- An entry of a curve table, as it is read. -/
structure CurveEntry where
  field : String
  m : Option UInt32 := none
  k1 : Option UInt32 := none
  k2 : Option UInt32 := none
  k3 : Option UInt32 := none
  p : Option String := none
  a : Option String := none
  b : Option String := none
  gx : Option String := none
  gy : Option String := none
  order : Option String := none
  cofactor : Option String := none
  koblitz : Bool := false
deriving DecidableEq, Repr

namespace CurveEntry

/-- The fields of an entry. Others are refused, and only the last may be left out of an array. -/
def form : Json.RecordForm :=
  ⟨["field", "m", "k1", "k2", "k3", "p", "a", "b", "gx", "gy", "order", "cofactor", "koblitz"],
    12, true⟩

/-- Reads an entry. -/
def read? (v : Json) : Option CurveEntry := do
  match ← form.fields? v with
  | [field, m, k1, k2, k3, p, a, b, gx, gy, order, cofactor, koblitz] =>
    return {
      field := ← Json.required? Json.text? field
      m := ← Json.optional? Json.readUInt32? m
      k1 := ← Json.optional? Json.readUInt32? k1
      k2 := ← Json.optional? Json.readUInt32? k2
      k3 := ← Json.optional? Json.readUInt32? k3
      p := ← Json.optional? Json.text? p
      a := ← Json.optional? Json.text? a
      b := ← Json.optional? Json.text? b
      gx := ← Json.optional? Json.text? gx
      gy := ← Json.optional? Json.text? gy
      order := ← Json.optional? Json.text? order
      cofactor := ← Json.optional? Json.text? cofactor
      koblitz := ← Json.withDefault? Json.readBool? false koblitz }
  | _ => none

/-! ## Checks -/

/-- A proof of `p`, or the error `e`. -/
def require (p : Prop) [Decidable p] (e : TableError) : Except TableError (PLift p) :=
  if h : p then .ok ⟨h⟩ else .error e

/-- The value of a key that must be present. -/
def present {α : Type} (curve : String) (key : CurveKey) (value : Option α) :
    Except TableError α :=
  match value with
  | none => .error (.missingKey curve key)
  | some v => .ok v

/-- The number behind a key that must be present. -/
def number (curve : String) (key : CurveKey) (value : Option String) : Except TableError Nat := do
  match Hex.natural? (← present curve key value) with
  | none => throw (.malformedValue curve key)
  | some n => return n

/-- The number behind a key, if it satisfies `p`. -/
def numberWith (p : Nat → Prop) [DecidablePred p] (curve : String) (key : CurveKey)
    (value : Option String) : Except TableError { n : Nat // p n } := do
  let n ← number curve key value
  let ⟨h⟩ ← require (p n) (.malformedValue curve key)
  return ⟨n, h⟩

/-- The basis of a binary field of degree `m`: a trinomial if the entry gives one middle exponent,
a pentanomial if it gives three. -/
def basis (entry : CurveEntry) (curve : String) (m : Nat) :
    Except TableError { basis : Basis // basis.Valid m } := do
  let k1 ← present curve .k1 entry.k1
  let basis ← match entry.k2, entry.k3 with
    | none, none => pure (Basis.trinomial k1.toNat)
    | some k2, some k3 => pure (Basis.pentanomial k1.toNat k2.toNat k3.toNat)
    | _, _ => throw (.malformedBasis curve)
  let ⟨h⟩ ← require (basis.Valid m) (.malformedBasis curve)
  return ⟨basis, h⟩

/-- The parameters of an entry for a binary field. -/
def binary (entry : CurveEntry) (curve : String) : Except TableError BinaryGroupParams := do
  let m := (← present curve .m entry.m).toNat
  let ⟨two_le_m⟩ ← require (2 ≤ m) (.malformedValue curve .m)
  let ⟨basis, basis_valid⟩ ← entry.basis curve m
  let fits := numberWith (bitLength · ≤ m) curve
  let ⟨a, a_fits⟩ ← fits .a entry.a
  let ⟨b, b_fits⟩ ← fits .b entry.b
  let ⟨b_ne_zero⟩ ← require (b ≠ 0) (.malformedValue curve .b)
  let ⟨generatorX, generatorX_fits⟩ ← fits .gx entry.gx
  let ⟨generatorY, generatorY_fits⟩ ← fits .gy entry.gy
  let ⟨order, one_lt_order⟩ ← numberWith (1 < ·) curve .order entry.order
  let ⟨cofactor, cofactor_ne_zero⟩ ← numberWith (· ≠ 0) curve .cofactor entry.cofactor
  let params : BinaryCurveParams := {
    name := curve
    m, basis, a, b, generatorX, generatorY, order, cofactor, two_le_m, basis_valid, a_fits, b_fits,
    b_ne_zero, generatorX_fits, generatorY_fits, one_lt_order, cofactor_ne_zero }
  if entry.koblitz then
    let ⟨ha⟩ ← require (params.a ≤ 1) (.malformedValue curve .a)
    let ⟨hb⟩ ← require (params.b = 1) (.malformedValue curve .b)
    return ⟨params, true, fun _ => ⟨ha, hb⟩⟩
  else
    return ⟨params, false, nofun⟩

/-- The parameters of an entry for a prime field. -/
def prime (entry : CurveEntry) (curve : String) : Except TableError PrimeCurveParams := do
  let ⟨p, three_lt_p⟩ ← numberWith (3 < ·) curve .p entry.p
  let residue := numberWith (· < p) curve
  let ⟨a, a_lt⟩ ← residue .a entry.a
  let ⟨b, b_lt⟩ ← residue .b entry.b
  let ⟨generatorX, generatorX_lt⟩ ← residue .gx entry.gx
  let ⟨generatorY, generatorY_lt⟩ ← residue .gy entry.gy
  let ⟨order, one_lt_order⟩ ← numberWith (1 < ·) curve .order entry.order
  let ⟨cofactor, cofactor_ne_zero⟩ ← numberWith (· ≠ 0) curve .cofactor entry.cofactor
  return {
    name := curve
    p, a, b, generatorX, generatorY, order, cofactor, three_lt_p, a_lt, b_lt, generatorX_lt,
    generatorY_lt, one_lt_order, cofactor_ne_zero }

/-- The parameters of an entry. -/
def params (entry : CurveEntry) (curve : String) : Except TableError CurveParams :=
  if entry.field = "F2m" then .binary <$> entry.binary curve
  else if entry.field = "Fp" then .prime <$> entry.prime curve
  else .error (.unsupportedField curve entry.field)

end CurveEntry

/-! ## Tables -/

/-- A curve table. -/
structure CurveTable where
  /-- The entries in the order they were read; of several with one name the last one counts. -/
  entries : List (String × CurveEntry)
deriving Repr

namespace CurveTable

/-- The names of all curves, each once, in the order of their code points. -/
def names (table : CurveTable) : List String :=
  (table.entries.map (·.1)).eraseDups.mergeSort fun a b => decide (a ≤ b)

/-- The entry of a name. -/
def entry? (table : CurveTable) (name : String) : Option CurveEntry :=
  table.entries.reverse.lookup name

/-- The parameters of a curve. -/
def params (table : CurveTable) (name : String) : Except TableError CurveParams :=
  match table.entry? name with
  | none => .error (.missingCurve name)
  | some entry => entry.params name

/-- Reads a table. -/
def read? : Json → Option CurveTable
  | .object members => do
    return ⟨← members.mapM fun (key, v) => do return (← key, ← CurveEntry.read? v)⟩
  | _ => none

/-- The table in a JSON text. -/
def ofText (text : String) : Except TableError CurveTable :=
  match (Json.parse? text).bind read? with
  | none => .error .malformedTable
  | some table => .ok table

/-- The table in a file; `none` stands for a file that does not exist. -/
def ofFile (contents : Option ByteArray) : Except TableError CurveTable :=
  match contents.bind String.fromUTF8? with
  | none => .error .unreadableFile
  | some text => ofText text

/-- Binary curves that are always at hand: NIST's B-163, K-163, B-233 and K-233. -/
def nist : CurveTable := ⟨[
  ("B-163", {
    field := "F2m", m := some 163, k1 := some 3, k2 := some 6, k3 := some 7
    a := some "1"
    b := some "020A601907B8C953CA1481EB10512F78744A3205FD"
    gx := some "03F0EBA16286A2D57EA0991168D4994637E8343E36"
    gy := some "00D51FBC6C71A0094FA2CDD545B11C5C0C797324F1"
    order := some "040000000000000000000292FE77E70C12A4234C33"
    cofactor := some "2" }),
  ("K-163", {
    field := "F2m", m := some 163, k1 := some 3, k2 := some 6, k3 := some 7
    a := some "1"
    b := some "1"
    gx := some "02FE13C0537BBC11ACAA07D793DE4E6D5E5C94EEE8"
    gy := some "0289070FB05D38FF58321F2E800536D538CCDAA3D9"
    order := some "04000000000000000000020108A2E0CC0D99F8A5EF"
    cofactor := some "2"
    koblitz := true }),
  ("B-233", {
    field := "F2m", m := some 233, k1 := some 74
    a := some "1"
    b := some "0066647EDE6C332C7F8C0923BB58213B333B20E9CE4281FE115F7D8F90AD"
    gx := some "00FAC9DFCBAC8313BB2139F1BB755FEF65BC391F8B36F8F8EB7371FD558B"
    gy := some "01006A08A41903350678E58528BEBF8A0BEFF867A7CA36716F7E01F81052"
    order := some "01000000000000000000000000000013E974E72F8A6922031D2603CFE0D7"
    cofactor := some "2" }),
  ("K-233", {
    field := "F2m", m := some 233, k1 := some 74
    a := some "0"
    b := some "1"
    gx := some "017232BA853A7E731AF129F22FF4149563A419C26BF50A4C9D6EEFAD6126"
    gy := some "01DB537DECE819B7F70F555A67C427A8CD9BF18AEB9B56E0C11056FAE6A3"
    order := some "8000000000000000000000000000069D5BB915BCD46EFB1AD5F173ABDF"
    cofactor := some "4"
    koblitz := true })]⟩

/-- The curve that is used when none is named. -/
def defaultCurve : String := "B-163"

end CurveTable

end SigmaProtocol
