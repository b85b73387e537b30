import SigmaProtocol.Json.Format
import SigmaProtocol.Params

/-!
# Messages and transcripts

The prover sends messages of two kinds: integers and group elements in their canonical encoding.

A transcript is the byte string that a non-interactive challenge is derived from: the domain tag
behind its length, the soundness parameter, the statement and the first message.

A type of statements says how its values are written into a transcript. Integers, byte strings and
records are written behind a count; text and the bytes of group elements are written as they are.
All numbers are big-endian.
-/

namespace SigmaProtocol

/-! ## Messages -/

/-- A message that a prover sends. -/
inductive Message
  | integer (n : Nat)
  /-- A group element in its canonical encoding. -/
  | element (bytes : Bytes)
deriving DecidableEq, Repr

namespace Message

/-- Reads a message: an object whose only key names the kind. -/
def read? : Json → Option Message
  | .object [(some "Integer", v)] => (Json.readNat? v).map integer
  | .object [(some "GroupElement", v)] => (Json.readBytes? v).map element
  | _ => none

instance : JsonFormat Message where
  write
    | integer n => Json.record [("Integer", Json.writeNat n)]
    | element bytes => Json.record [("GroupElement", Json.writeBytes bytes)]
  read? := read?

end Message

/-! ## Transcripts -/

/-- How the values of a type are written into a transcript. -/
class Transcribed (α : Type) where
  /-- The bytes of a value. -/
  bytes : α → Bytes

namespace Transcript

/-- A count of words, bytes or fields, in 16 bytes. -/
def count (n : Nat) : Bytes := Bytes.ofNat 16 n

/-- An integer: the number of its 32-bit words, then the words, least significant first. -/
def integer (n : Nat) : Bytes :=
  let words := wordsOfNat n
  count words.length ++ words.flatMap fun w => Bytes.ofNat 4 w.toNat

/-- A record: the number of its fields, then the fields. -/
def record (fields : List Bytes) : Bytes := count fields.length ++ fields.flatten

/-- A 32-bit word. -/
def word (w : UInt32) : Bytes := Bytes.ofNat 4 w.toNat

/-- A message: the number of its kind, then an integer, or the bytes of a group element. -/
def message : Message → Bytes
  | .integer n => Bytes.ofNat 4 0 ++ integer n
  | .element bytes => Bytes.ofNat 4 1 ++ bytes

end Transcript

open Transcript

/-- The empty statement writes nothing. -/
instance : Transcribed Unit := ⟨fun _ => []⟩

/-- A byte string is written behind its length. -/
instance : Transcribed Bytes := ⟨fun bs => count bs.length ++ bs⟩

/-- A text is written as its UTF-8 bytes. -/
instance : Transcribed String := ⟨fun s => s.toUTF8.toList⟩

/-- A pair of integers. -/
instance : Transcribed (Nat × Nat) := ⟨fun (a, b) => record [integer a, integer b]⟩

instance : Transcribed Message := ⟨message⟩

instance : Transcribed Params :=
  ⟨fun p => record [word p.soundnessBits, word p.lengthParameter]⟩

/-- The transcript of a statement and a first message under the domain tag `dst`. -/
def transcript {S : Type} [Transcribed S] (dst : Bytes) (bits : UInt32) (statement : S)
    (first : Message) : Bytes :=
  Bytes.ofNat 8 dst.length ++ dst ++ word bits ++ Transcribed.bytes statement ++ message first

end SigmaProtocol
