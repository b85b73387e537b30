import SigmaProtocol.Json.Reader
import SigmaProtocol.Json.Writer

/-!
# JSON formats of values

`JsonFormat` pairs the writer of a type with its reader. The formats here are those that the
protocol values are put together from:

* a natural number is an array of its 32-bit words, least significant first, written without
  zero words at the end and read with any;
* a byte string is `0x` and two digits a byte;
* a record is an object with its fields in any order, or an array of its fields in declaration
  order. A repeated field is refused. Fields that are not known are ignored unless the record
  refuses them, but then the keys of all fields must denote texts.

Main statements: `readNat?_writeNat` and `readBytes?_writeBytes`, that reading undoes writing.
-/

namespace SigmaProtocol

/-- How the values of a type are written and read as JSON. -/
class JsonFormat (α : Type) where
  /-- The JSON form of a value. -/
  write : α → Json
  /-- The value of a JSON form. -/
  read? : Json → Option α

namespace Json

/-- The compact JSON text of `a`. -/
def textOf {α : Type} [JsonFormat α] (a : α) : String := (JsonFormat.write a).render

/-- The value that a JSON text stands for. -/
def ofText? {α : Type} [JsonFormat α] (text : String) : Option α := do
  JsonFormat.read? (← parse? text)

/-! ## Numbers and byte strings -/

/-- A natural number below `bound`. -/
def readBelow? (bound : Nat) (v : Json) : Option Nat := do
  let n ← v.natural?
  if n < bound then some n else none

/-- A 32-bit number. -/
def readUInt32? (v : Json) : Option UInt32 := (readBelow? UInt32.size v).map UInt32.ofNat

/-- A 64-bit number. -/
def readUInt64? (v : Json) : Option UInt64 := (readBelow? UInt64.size v).map UInt64.ofNat

/-- A truth value. -/
def readBool? : Json → Option Bool
  | .bool b => some b
  | _ => none

/-- A natural number of any size, as the array of its 32-bit words. -/
def writeNat (n : Nat) : Json := .array ((wordsOfNat n).map fun w => .ofNat w.toNat)

/-- Reads an array of 32-bit words. -/
def readNat? : Json → Option Nat
  | .array items => (items.mapM readUInt32?).map natOfWords
  | _ => none

/-- A byte string, as hexadecimal text behind `0x`. -/
def writeBytes (bs : Bytes) : Json := .text (String.ofList ('0' :: 'x' :: Hex.ofBytes bs))

/-- Reads hexadecimal text behind `0x`. -/
def readBytes? (v : Json) : Option Bytes := do
  match (← v.text?).toList with
  | '0' :: 'x' :: digits => Hex.toBytes? digits
  | _ => none

theorem readBelow?_ofNat {bound n : Nat} (h : n < bound) :
    readBelow? bound (.ofNat n) = some n := by
  simp only [readBelow?, natural?_ofNat, bind, Option.bind, if_pos h]

theorem readUInt32?_ofNat (w : UInt32) : readUInt32? (.ofNat w.toNat) = some w := by
  rw [readUInt32?, readBelow?_ofNat w.toNat_lt_size, Option.map_some, UInt32.ofNat_toNat]

theorem readUInt64?_ofNat (w : UInt64) : readUInt64? (.ofNat w.toNat) = some w := by
  rw [readUInt64?, readBelow?_ofNat w.toNat_lt_size, Option.map_some, UInt64.ofNat_toNat]

/-- The words of a number, written one by one, are read back as the number. -/
theorem readNat?_writeNat (n : Nat) : readNat? (writeNat n) = some n := by
  have h (ws : List UInt32) :
      (ws.map fun w => Json.ofNat w.toNat).mapM readUInt32? = some ws := by
    induction ws with
    | nil => rfl
    | cons w ws ih => simp [readUInt32?_ofNat, ih]
  simp [writeNat, readNat?, h, natOfWords_wordsOfNat]

theorem readBytes?_writeBytes (bs : Bytes) : readBytes? (writeBytes bs) = some bs := by
  simp [writeBytes, readBytes?, text?, Hex.toBytes?_ofBytes]

/-! ## Records -/

/-- The fields of a record form. -/
structure RecordForm where
  /-- The names of the fields, in declaration order. -/
  names : List String
  /-- How many fields, counted from the front, an array must give. -/
  required : Nat
  /-- Whether fields that are not named are refused. -/
  closed : Bool

/-- The values of the fields of a record, in declaration order, with `none` for an absent one. -/
def RecordForm.fields? (form : RecordForm) : Json → Option (List (Option Json))
  | .array items =>
    if form.required ≤ items.length ∧ items.length ≤ form.names.length then
      some (items.map some ++ List.replicate (form.names.length - items.length) none)
    else none
  | .object members => do
    let members ← members.mapM fun (key, v) => key.map fun k => (k, v)
    let known := members.filter fun m => form.names.contains m.1
    let keys : List String := known.map (·.1)
    if form.closed && known.length != members.length then none
    else if keys.Nodup then some (form.names.map fun name => known.lookup name)
    else none
  | _ => none

/-- The value of a field that may be absent or `null`. -/
def optional? {α : Type} (read? : Json → Option α) : Option Json → Option (Option α)
  | none => some none
  | some .null => some none
  | some v => (read? v).map some

/-- The value of a field that has a default when it is absent. -/
def withDefault? {α : Type} (read? : Json → Option α) (default : α) : Option Json → Option α
  | none => some default
  | some v => read? v

/-- The value of a field that must be present. -/
def required? {α : Type} (read? : Json → Option α) (field : Option Json) : Option α :=
  field.bind read?

/-- A record with the given fields, as an object. -/
def record (fields : List (String × Json)) : Json :=
  .object (fields.map fun (name, v) => (some name, v))

end Json

instance : JsonFormat Nat := ⟨Json.writeNat, Json.readNat?⟩

instance : JsonFormat Bytes := ⟨Json.writeBytes, Json.readBytes?⟩

end SigmaProtocol
