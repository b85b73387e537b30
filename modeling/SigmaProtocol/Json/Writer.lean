import SigmaProtocol.Json.Basic
import SigmaProtocol.Bytes.Hex

/-!
# Compact JSON text

A value is written through its tokens, without blanks, its members in their order. A string that
denotes no text is written as the escape of half a surrogate pair.
-/

namespace SigmaProtocol.Json

mutual

/-- The tokens of a value. -/
def tokens : Json → List Token
  | .null => [.null]
  | .bool b => [.bool b]
  | .number numeral => [.number numeral]
  | .text t => [.text t]
  | .array [] => [.openArray, .closeArray]
  | .array (v :: vs) => .openArray :: tokens v ++ itemTokens vs ++ [.closeArray]
  | .object [] => [.openObject, .closeObject]
  | .object ((key, v) :: ms) =>
    .openObject :: .text key :: .colon :: tokens v ++ memberTokens ms ++ [.closeObject]

/-- The tokens of the items behind the first one. -/
def itemTokens : List Json → List Token
  | [] => []
  | v :: vs => .comma :: tokens v ++ itemTokens vs

/-- The tokens of the members behind the first one. -/
def memberTokens : List (Option String × Json) → List Token
  | [] => []
  | (key, v) :: ms => .comma :: .text key :: .colon :: tokens v ++ memberTokens ms

end

/-- One character inside a string: a quote, a backslash and the control characters are escaped. -/
def charText (c : Char) : List Char :=
  if c = '"' then ['\\', '"']
  else if c = '\\' then ['\\', '\\']
  else if c.toNat < 0x20 then
    ['\\', 'u', '0', '0', Hex.digit (c.toNat / 16), Hex.digit (c.toNat % 16)]
  else [c]

end Json

/-- The characters of a token. -/
def Token.chars : Token → List Char
  | .openObject => ['\x7b']
  | .closeObject => ['\x7d']
  | .openArray => ['[']
  | .closeArray => [']']
  | .colon => [':']
  | .comma => [',']
  | .null => ['n', 'u', 'l', 'l']
  | .bool true => ['t', 'r', 'u', 'e']
  | .bool false => ['f', 'a', 'l', 's', 'e']
  | .number numeral => numeral
  | .text (some s) => '"' :: s.toList.flatMap Json.charText ++ ['"']
  | .text none => ['"', '\\', 'u', 'd', '8', '0', '0', '"']

/-- The compact text of a value. -/
def Json.render (v : Json) : String := String.ofList (v.tokens.flatMap Token.chars)

end SigmaProtocol
