import SigmaProtocol.Transcript

/-!
# Inputs of oblivious transfer

The sender of a batch of transfers has two messages for each transfer. The messages for the choice
bit 0 are packed back to back into one buffer and those for the choice bit 1 into another, so that
all messages of a buffer have the same length.
-/

namespace SigmaProtocol.ObliviousTransfer

/-- What is wrong with the layout of an input. -/
inductive LayoutError
  | zeroCount
  /-- A buffer of `length` bytes does not split into `count` messages. -/
  | notDivisible (length count : Nat)
deriving DecidableEq, Repr

/-- The wording of an error. -/
def LayoutError.message : LayoutError → String
  | zeroCount => "The number of transfers must be positive"
  | notDivisible length count =>
    "A buffer of " ++ length.repr ++ " bytes cannot be split into " ++ count.repr ++
      " equal messages"

/-- The sender's input to a batch of transfers. -/
structure SenderInput where
  /-- The messages for the choice bit 0, back to back. -/
  x0 : Bytes
  /-- The messages for the choice bit 1, back to back. -/
  x1 : Bytes
  /-- The number of transfers. -/
  numOts : UInt64
deriving DecidableEq, Repr

namespace SenderInput

/-- The length of one message in `x0`; zero if there are no transfers. -/
def x0ItemLength (input : SenderInput) : Nat := input.x0.length / input.numOts.toNat

/-- The length of one message in `x1`; zero if there are no transfers. -/
def x1ItemLength (input : SenderInput) : Nat := input.x1.length / input.numOts.toNat

/-- Refuses a buffer that does not split into `count` messages of one length. -/
def checkBuffer (buffer : Bytes) (count : Nat) : Except LayoutError Unit :=
  if buffer.length % count = 0 then .ok () else .error (.notDivisible buffer.length count)

/-- Refuses an input without transfers, or one whose buffers do not split evenly. -/
def validate (input : SenderInput) : Except LayoutError Unit :=
  if input.numOts = 0 then .error .zeroCount
  else do
    checkBuffer input.x0 input.numOts.toNat
    checkBuffer input.x1 input.numOts.toNat

/-- The message number `index` of a buffer of messages of `length` bytes; empty out of range. -/
def item (buffer : Bytes) (index length : Nat) : Bytes :=
  if (index + 1) * length ≤ buffer.length then (buffer.drop (index * length)).take length else []

/-- The two messages of the transfer number `index`. -/
def pair (input : SenderInput) (index : Nat) : Bytes × Bytes :=
  (item input.x0 index input.x0ItemLength, item input.x1 index input.x1ItemLength)

/-- The message pairs of the first `limit` transfers. -/
def firstPairs (input : SenderInput) (limit : Nat) : Except LayoutError (List (Bytes × Bytes)) := do
  input.validate
  return (List.range (min limit input.numOts.toNat)).map input.pair

/-- The message pairs of all transfers. -/
def pairs (input : SenderInput) : Except LayoutError (List (Bytes × Bytes)) :=
  input.firstPairs input.numOts.toNat

/-- Reads an input. -/
def read? (v : Json) : Option SenderInput := do
  match ← Json.RecordForm.fields? ⟨["x0", "x1", "num_ots"], 3, false⟩ v with
  | [x0, x1, numOts] =>
    return {
      x0 := ← Json.required? Json.readBytes? x0
      x1 := ← Json.required? Json.readBytes? x1
      numOts := ← Json.required? Json.readUInt64? numOts }
  | _ => none

instance : JsonFormat SenderInput where
  write input := Json.record [
    ("x0", Json.writeBytes input.x0),
    ("x1", Json.writeBytes input.x1),
    ("num_ots", .ofNat input.numOts.toNat)]
  read? := read?

/-- The buffers are written as they are, the number of transfers in eight bytes. -/
instance : Transcribed SenderInput where
  bytes input := Transcript.record [input.x0, input.x1, Bytes.ofNat 8 input.numOts.toNat]

end SenderInput

end SigmaProtocol.ObliviousTransfer
