/-!
# JSON documents

The values of RFC 8259, close enough to the text that each reader can apply its own rules: a
number stays the text it was written as, members keep their order and may repeat a key, and a
string may denote no text at all, because its escapes name half a surrogate pair.

* `Json.natural?_ofNat`: a natural number is read back from its numeral.
-/

namespace SigmaProtocol

/-- A JSON value. -/
inductive Json where
  | null
  | bool (b : Bool)
  /-- A number, as written. -/
  | number (numeral : List Char)
  /-- A string; `none` if its escapes leave half a surrogate pair unmatched. -/
  | text (t : Option String)
  | array (items : List Json)
  /-- The members in their order; a key is a string like any other. -/
  | object (members : List (Option String × Json))

/-- A lexical element of a JSON text. -/
inductive Token where
  | openObject
  | closeObject
  | openArray
  | closeArray
  | colon
  | comma
  | null
  | bool (b : Bool)
  | number (numeral : List Char)
  | text (t : Option String)
deriving DecidableEq, Repr

namespace Json

/-- The number `n`. -/
def ofNat (n : Nat) : Json := .number (Nat.toDigits 10 n)

/-- The natural number that is written with neither sign, fraction nor exponent. -/
def natural? : Json → Option Nat
  | .number numeral =>
    if numeral.all Char.isDigit then some (Nat.ofDigitChars 10 numeral 0) else none
  | _ => none

/-- The text of a string, if it denotes one. -/
def text? : Json → Option String
  | .text t => t
  | _ => none

theorem natural?_ofNat (n : Nat) : (ofNat n).natural? = some n := by
  have h : (Nat.toDigits 10 n).all Char.isDigit = true := by
    rw [List.all_eq_true]
    exact fun c hc => Nat.isDigit_of_mem_toDigits (by decide) (by decide) hc
  simp [ofNat, natural?, h, Nat.ofDigitChars_toDigits]

end Json

end SigmaProtocol
