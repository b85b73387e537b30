import SigmaProtocol.Challenge
import SigmaProtocol.EncryptedZero.Statement
import SigmaProtocol.Group.Binary
import SigmaProtocol.ObliviousTransfer
import SigmaProtocol.Params
import SigmaProtocol.Proofs.Json.Text
import SigmaProtocol.Proofs.Limbs

/-!
# Values are read back from their text

A format is lawful if its reader undoes its writer and all numbers that it writes are numbers by
the grammar. A lawful format takes a value through its text, because the text gives back the JSON
form that was written. The formats of the protocol values are lawful one by one, the larger ones
from the ones inside them.

* `Json.RecordForm.fields?_record`: a record gives back the fields it was written with.
* `Json.readsBack`: what the law of a format means for texts.
* `Json.readsBack_protocolValues`: all formats of the protocol.
-/

namespace SigmaProtocol

/-- A format whose reader undoes its writer. -/
class LawfulJsonFormat (α : Type) [JsonFormat α] : Prop where
  valid_write : ∀ a : α, (JsonFormat.write a).Valid
  read?_write : ∀ a : α, JsonFormat.read? (JsonFormat.write a) = some a

namespace Json

/-! ## What the formats are put together from -/

@[simp]
theorem valid_ofNat (n : Nat) : (ofNat n).Valid := .number (isNumeral_toDigits n)

@[simp]
theorem valid_writeNat (n : Nat) : (writeNat n).Valid := by
  refine .array fun v hv => ?_
  obtain ⟨w, -, rfl⟩ := List.mem_map.mp hv
  exact valid_ofNat _

@[simp]
theorem valid_writeBytes (bs : Bytes) : (writeBytes bs).Valid := .text _

theorem valid_record {fields : List (String × Json)} (h : ∀ f ∈ fields, f.2.Valid) :
    (record fields).Valid := by
  refine .object fun m hm => ?_
  obtain ⟨f, hf, rfl⟩ := List.mem_map.mp hm
  exact h f hf

/-- Where no two names agree, each field is found under its name. -/
theorem lookup_of_nodup {fields : List (String × Json)} (hnodup : (fields.map Prod.fst).Nodup)
    {f : String × Json} (hf : f ∈ fields) : fields.lookup f.1 = some f.2 := by
  obtain ⟨before, behind, rfl⟩ := List.append_of_mem hf
  rw [List.map_append, List.nodup_append] at hnodup
  refine List.lookup_eq_some_iff.mpr ⟨before, behind, rfl, fun g hg => ?_⟩
  have hne := hnodup.2.2 g.1 (List.mem_map_of_mem hg) f.1 (by simp)
  simpa using hne.symm

/-- A record gives back the fields it was written with. -/
theorem RecordForm.fields?_record {form : RecordForm} {fields : List (String × Json)}
    (hnames : fields.map Prod.fst = form.names) (hnodup : form.names.Nodup) :
    form.fields? (record fields) = some (fields.map fun f => some f.2) := by
  have hkeys : fields.mapM (fun f => some f) = some fields :=
    (List.mapM_pure (f := id)).trans (congrArg some (List.map_id fields))
  -- No member is dropped as unknown, since all names are names of the form.
  have hknown : fields.filter (fun m => form.names.contains m.1) = fields := by
    refine List.filter_eq_self.mpr fun f hf => ?_
    rw [List.contains_iff_mem, ← hnames]
    exact List.mem_map_of_mem hf
  have hvalues : form.names.map (fun name => fields.lookup name) =
      fields.map fun f => some f.2 := by
    rw [← hnames, List.map_map]
    exact List.map_congr_left fun f hf => lookup_of_nodup (hnames ▸ hnodup) hf
  simp only [fields?, record, List.mapM_map, Function.comp_def, Option.map_some, hkeys, hknown,
    hnames, hvalues, Option.bind_eq_bind, Option.bind_some]
  simp [hnodup]

end Json

/-! ## The formats of the protocol values -/

open Json

instance : LawfulJsonFormat Message where
  valid_write
    | .integer n => valid_record (by simp)
    | .element bytes => valid_record (by simp)
  read?_write
    | .integer n => by
      simp [JsonFormat.read?, JsonFormat.write, Message.read?, record, readNat?_writeNat]
    | .element bytes => by
      simp [JsonFormat.read?, JsonFormat.write, Message.read?, record, readBytes?_writeBytes]

instance : LawfulJsonFormat Challenge where
  valid_write c := valid_writeBytes c.bytes
  read?_write c := by simp [JsonFormat.read?, JsonFormat.write, readBytes?_writeBytes]

instance : LawfulJsonFormat Params where
  valid_write p := valid_record (by simp)
  read?_write p := by
    simp [JsonFormat.read?, JsonFormat.write, Params.read?, Params.form, RecordForm.fields?_record,
      withDefault?, readUInt32?_ofNat]

instance : LawfulJsonFormat GroupOptions where
  valid_write options := valid_record (by simpa using .bool _)
  read?_write options := by
    simp [JsonFormat.read?, JsonFormat.write, GroupOptions.read?, RecordForm.fields?_record,
      withDefault?, readBool?]

instance : LawfulJsonFormat DamgardJurik.PublicKey where
  valid_write key := valid_record (by simp)
  read?_write key := by
    simp [JsonFormat.read?, JsonFormat.write, RecordForm.fields?_record, required?,
      readNat?_writeNat]

instance : LawfulJsonFormat DamgardJurik.Ciphertext where
  valid_write c := valid_record (by simp)
  read?_write c := by
    simp [JsonFormat.read?, JsonFormat.write, RecordForm.fields?_record, required?,
      readNat?_writeNat]

instance : LawfulJsonFormat EncryptedZero.Statement where
  valid_write s := valid_record (by simp [LawfulJsonFormat.valid_write])
  read?_write s := by
    change EncryptedZero.Statement.read? (record [
      ("public_key", JsonFormat.write s.publicKey),
      ("ciphertext", JsonFormat.write s.ciphertext)]) = some s
    simp [EncryptedZero.Statement.read?, RecordForm.fields?_record, required?,
      LawfulJsonFormat.read?_write]

-- The randomness is written over its whole width, so that it comes back in as many limbs.
instance : LawfulJsonFormat EncryptedZero.ProverInput where
  valid_write input := valid_record (by simp [LawfulJsonFormat.valid_write])
  read?_write input := by
    change EncryptedZero.ProverInput.read? (record [
      ("common", JsonFormat.write input.common),
      ("randomness", writeBytes input.randomness.toBytes)]) = some input
    simp [EncryptedZero.ProverInput.read?, RecordForm.fields?_record, required?,
      LawfulJsonFormat.read?_write, readBytes?_writeBytes, LimbNat.ofBytes_toBytes]

instance : LawfulJsonFormat ObliviousTransfer.SenderInput where
  valid_write input := valid_record (by simp)
  read?_write input := by
    simp [JsonFormat.read?, JsonFormat.write, ObliviousTransfer.SenderInput.read?,
      RecordForm.fields?_record, required?, readBytes?_writeBytes, readUInt64?_ofNat]

/-! ## Texts -/

namespace Json

/-- Reading undoes writing for the values of a type, and what has been read from any text is read
again from the text it is written as. The value that is read has the same fields, which is more
than that it counts as equal. -/
structure ReadsBack (α : Type) [JsonFormat α] : Prop where
  ofText?_textOf : ∀ a : α, ofText? (textOf a) = some a
  ofText?_rewritten : ∀ {text : String} {a : α}, ofText? text = some a →
    ofText? (textOf a) = some a

theorem readsBack (α : Type) [JsonFormat α] [LawfulJsonFormat α] : ReadsBack α :=
  have h (a : α) : ofText? (textOf a) = some a := by
    rw [ofText?, textOf, parse?_render (LawfulJsonFormat.valid_write a)]
    exact LawfulJsonFormat.read?_write a
  ⟨h, fun {_ a} _ => h a⟩

/-- **Values.** Every value of the protocol is read back from its compact text, the randomness of a
prover in the limbs it was held in. -/
theorem readsBack_protocolValues :
    ReadsBack Message ∧ ReadsBack Challenge ∧
    ReadsBack DamgardJurik.PublicKey ∧ ReadsBack DamgardJurik.Ciphertext ∧
    ReadsBack EncryptedZero.Statement ∧ ReadsBack EncryptedZero.ProverInput ∧
    ReadsBack ObliviousTransfer.SenderInput ∧ ReadsBack Params ∧ ReadsBack GroupOptions :=
  ⟨readsBack _, readsBack _, readsBack _, readsBack _, readsBack _, readsBack _, readsBack _,
    readsBack _, readsBack _⟩

-- Integers are written without zero words at their end, secrets with all of their zero limbs.
example : textOf (⟨⟨⟨0⟩, ⟨2 ^ 32⟩⟩, ⟨[3, 0], by simp⟩⟩ : EncryptedZero.ProverInput) =
    "\x7b\"common\":\x7b\"public_key\":\x7b\"modulus\":[]\x7d," ++
      "\"ciphertext\":\x7b\"cipher\":[0,1]\x7d\x7d," ++
      "\"randomness\":\"0x00000000000000000000000000000003\"\x7d" := by
  decide +kernel

end Json

end SigmaProtocol
