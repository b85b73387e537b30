import SigmaProtocol.Json.Lexer

/-!
# From JSON tokens to values

A builder takes one token at a time. It keeps the arrays and objects that are still open,
innermost first, and what it expects next. Nesting is bounded by the text alone.
-/

namespace SigmaProtocol.Json

/-- An array or object that is still open. -/
inductive Frame where
  /-- An array; its finished items are `reversed`, last one first. -/
  | array (reversed : List Json)
  /-- An object whose finished members are `reversed`, last one first, at the member `key`. -/
  | object (reversed : List (Option String × Json)) (key : Option String)

/-- What a builder expects next. -/
inductive Place where
  | value
  /-- The first item of an array, or its end. -/
  | firstItem
  /-- The first member of an object, or its end. -/
  | firstMember
  /-- A further member of an object with the finished members `reversed`. -/
  | member (reversed : List (Option String × Json))
  /-- The colon behind a key. -/
  | colon (reversed : List (Option String × Json)) (key : Option String)
  /-- What follows the finished value `v`: a comma, the end of what is around it, or nothing. -/
  | done (v : Json)

/-- A builder. -/
structure Builder where
  /-- What is open, innermost first. -/
  stack : List Frame
  place : Place

namespace Builder

/-- A builder that has read nothing. -/
def initial : Builder := ⟨[], .value⟩

/-- Takes the first token of a value. -/
def startValue (stack : List Frame) : Token → Option Builder
  | .null => some ⟨stack, .done .null⟩
  | .bool b => some ⟨stack, .done (.bool b)⟩
  | .number numeral => some ⟨stack, .done (.number numeral)⟩
  | .text t => some ⟨stack, .done (.text t)⟩
  | .openArray => some ⟨.array [] :: stack, .firstItem⟩
  | .openObject => some ⟨stack, .firstMember⟩
  | _ => none

/-- Takes one token; `none` if no JSON text goes on with it. -/
def step (b : Builder) (token : Token) : Option Builder :=
  match b.place, token with
  | .value, token => startValue b.stack token
  | .firstItem, .closeArray => some ⟨b.stack.tail, .done (.array [])⟩
  | .firstItem, token => startValue b.stack token
  | .firstMember, .closeObject => some ⟨b.stack, .done (.object [])⟩
  | .firstMember, .text key => some ⟨b.stack, .colon [] key⟩
  | .member members, .text key => some ⟨b.stack, .colon members key⟩
  | .colon members key, .colon => some ⟨.object members key :: b.stack, .value⟩
  | .done v, token =>
    match b.stack, token with
    | .array items :: rest, .comma => some ⟨.array (v :: items) :: rest, .value⟩
    | .array items :: rest, .closeArray => some ⟨rest, .done (.array (v :: items).reverse)⟩
    | .object members key :: rest, .comma => some ⟨rest, .member ((key, v) :: members)⟩
    | .object members key :: rest, .closeObject =>
      some ⟨rest, .done (.object ((key, v) :: members).reverse)⟩
    | _, _ => none
  | _, _ => none

/-- The value of the whole text, if it may end here. -/
def finish (b : Builder) : Option Json :=
  match b.stack, b.place with
  | [], .done v => some v
  | _, _ => none

end Builder

/-- The value with the tokens `ts`. -/
def ofTokens? (ts : List Token) : Option Json := do
  (← ts.foldlM Builder.step Builder.initial).finish

/-- The value that a JSON text writes. -/
def parse? (text : String) : Option Json := do ofTokens? (← tokens? text.toList)

end SigmaProtocol.Json
