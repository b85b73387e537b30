import SigmaProtocol.Bytes.Hex
import SigmaProtocol.Json.Basic

/-!
# From characters to JSON tokens

A scanner takes one character at a time. It is between two tokens or inside one: in a word, in a
number, whose grammar it follows phase by phase, or in a string. It keeps the tokens read so far.

Strings are taken as the grammar has them. Whether their escapes pair up as surrogates decides
only whether they denote a text.
-/

namespace SigmaProtocol.Json

/-! ## Numbers -/

/-- How far a number has been read. -/
inductive NumberPhase where
  /-- Behind the minus sign. -/
  | sign
  /-- Behind a leading zero, which no digit may follow. -/
  | zero
  /-- Inside the integral digits. -/
  | whole
  /-- Behind the decimal point. -/
  | point
  /-- Inside the decimal places. -/
  | places
  /-- Behind the exponent mark. -/
  | mark
  /-- Behind the sign of the exponent. -/
  | markSign
  /-- Inside the digits of the exponent. -/
  | power
deriving DecidableEq, Repr

namespace NumberPhase

/-- The phase behind a first integral digit. -/
def ofDigit (c : Char) : NumberPhase := if c = '0' then .zero else .whole

/-- The phase behind `c`, if the number goes on with it. -/
def next? (phase : NumberPhase) (c : Char) : Option NumberPhase :=
  match phase with
  | .sign => if c.isDigit then some (ofDigit c) else none
  | .zero => if c = '.' then some .point else if c = 'e' ∨ c = 'E' then some .mark else none
  | .whole =>
    if c.isDigit then some .whole else if c = '.' then some .point
    else if c = 'e' ∨ c = 'E' then some .mark else none
  | .point => if c.isDigit then some .places else none
  | .places =>
    if c.isDigit then some .places else if c = 'e' ∨ c = 'E' then some .mark else none
  | .mark =>
    if c.isDigit then some .power else if c = '+' ∨ c = '-' then some .markSign else none
  | .markSign => if c.isDigit then some .power else none
  | .power => if c.isDigit then some .power else none

/-- Whether a number may end here. -/
def complete : NumberPhase → Bool
  | .zero | .whole | .places | .power => true
  | _ => false

end NumberPhase

/-! ## Strings -/

/-- The part of a string that has been read. -/
structure PartialText where
  /-- The characters, last one first. -/
  reversed : List Char
  /-- The first half of a surrogate pair whose second half must follow at once. -/
  pending : Option Nat
  /-- Whether every surrogate so far has found its other half. -/
  paired : Bool
deriving Repr

namespace PartialText

/-- The beginning of a string. -/
def empty : PartialText := ⟨[], none, true⟩

/-- Takes up a character. -/
def push (t : PartialText) (c : Char) : PartialText :=
  ⟨c :: t.reversed, none, t.paired && t.pending.isNone⟩

/-- Takes up a UTF-16 unit that was written as an escape. -/
def pushUnit (t : PartialText) (unit : Nat) : PartialText :=
  if 0xDC00 ≤ unit ∧ unit ≤ 0xDFFF then
    match t.pending with
    | some high =>
      let code := 0x10000 + (high - 0xD800) * 0x400 + (unit - 0xDC00)
      ⟨Char.ofNat code :: t.reversed, none, t.paired⟩
    | none => { t with paired := false }
  else if 0xD800 ≤ unit ∧ unit ≤ 0xDBFF then
    ⟨t.reversed, some unit, t.paired && t.pending.isNone⟩
  else t.push (Char.ofNat unit)

/-- The text of the whole string, if it denotes one. -/
def finish (t : PartialText) : Option String :=
  if t.paired && t.pending.isNone then some (String.ofList t.reversed.reverse) else none

end PartialText

/-- The character that a backslash and `c` stand for. -/
def escaped? : Char → Option Char
  | '"' => some '"'
  | '\\' => some '\\'
  | '/' => some '/'
  | 'b' => some '\x08'
  | 'f' => some '\x0c'
  | 'n' => some '\n'
  | 'r' => some '\r'
  | 't' => some '\t'
  | _ => none

/-! ## The scanner -/

/-- Where a scanner is. -/
inductive Mode where
  | between
  /-- Inside a word that must go on with `rest`. -/
  | word (rest : List Char) (token : Token)
  /-- Inside a number whose characters so far are `reversed`, last one first. -/
  | number (phase : NumberPhase) (reversed : List Char)
  | string (t : PartialText)
  /-- Behind a backslash. -/
  | escape (t : PartialText)
  /-- Inside an escaped unit of which `count` digits are still to come. -/
  | unit (t : PartialText) (count : Nat) (value : Nat)
deriving Repr

/-- A scanner: where it is, and the tokens before that, last one first. -/
structure Scanner where
  mode : Mode
  reversed : List Token
deriving Repr

namespace Scanner

/-- A scanner that has read nothing. -/
def initial : Scanner := ⟨.between, []⟩

/-- Takes the first character of a token or a blank. -/
def start (tokens : List Token) (c : Char) : Option Scanner :=
  match c with
  | ' ' | '\t' | '\n' | '\r' => some ⟨.between, tokens⟩
  | '\x7b' => some ⟨.between, .openObject :: tokens⟩
  | '\x7d' => some ⟨.between, .closeObject :: tokens⟩
  | '[' => some ⟨.between, .openArray :: tokens⟩
  | ']' => some ⟨.between, .closeArray :: tokens⟩
  | ':' => some ⟨.between, .colon :: tokens⟩
  | ',' => some ⟨.between, .comma :: tokens⟩
  | 'n' => some ⟨.word ['u', 'l', 'l'] .null, tokens⟩
  | 't' => some ⟨.word ['r', 'u', 'e'] (.bool true), tokens⟩
  | 'f' => some ⟨.word ['a', 'l', 's', 'e'] (.bool false), tokens⟩
  | '-' => some ⟨.number .sign ['-'], tokens⟩
  | '"' => some ⟨.string .empty, tokens⟩
  | c => if c.isDigit then some ⟨.number (.ofDigit c) [c], tokens⟩ else none

/-- Takes one character; `none` if no JSON text goes on with it. -/
def step (s : Scanner) (c : Char) : Option Scanner :=
  match s.mode with
  | .between => start s.reversed c
  | .word [] _ => none
  | .word (expected :: rest) token =>
    if c = expected then
      if rest = [] then some ⟨.between, token :: s.reversed⟩
      else some ⟨.word rest token, s.reversed⟩
    else none
  | .number phase read =>
    match phase.next? c with
    | some phase' => some ⟨.number phase' (c :: read), s.reversed⟩
    | none => if phase.complete then start (.number read.reverse :: s.reversed) c else none
  | .string t =>
    if c = '"' then some ⟨.between, .text t.finish :: s.reversed⟩
    else if c = '\\' then some ⟨.escape t, s.reversed⟩
    else if c.toNat < 0x20 then none
    else some ⟨.string (t.push c), s.reversed⟩
  | .escape t =>
    if c = 'u' then some ⟨.unit t 4 0, s.reversed⟩
    else (escaped? c).map fun e => ⟨.string (t.push e), s.reversed⟩
  | .unit t count value =>
    (Hex.value? c).map fun d =>
      let value := value * 16 + d
      if count ≤ 1 then ⟨.string (t.pushUnit value), s.reversed⟩
      else ⟨.unit t (count - 1) value, s.reversed⟩

/-- The tokens of the whole text, if it may end here. -/
def finish (s : Scanner) : Option (List Token) :=
  match s.mode with
  | .between => some s.reversed.reverse
  | .number phase read =>
    if phase.complete then some (.number read.reverse :: s.reversed).reverse else none
  | _ => none

end Scanner

/-- The tokens of a JSON text. -/
def tokens? (cs : List Char) : Option (List Token) := do
  (← cs.foldlM Scanner.step Scanner.initial).finish

end SigmaProtocol.Json
