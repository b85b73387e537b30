import SigmaProtocol.EncryptedZero.Statement
import SigmaProtocol.Proofs.Challenge
import SigmaProtocol.Proofs.FiatShamir.Field

/-!
# What a transcript binds

A challenge that is derived from a transcript is for one domain tag, one soundness parameter, one
statement and one first message only if no other ones have the same transcript. The domain tag
stands behind its length and the soundness parameter has a fixed width, so that both are always
bound. The rest is bound if the statement can be told from the first message that follows it.

The length of the domain tag is written in eight bytes and other counts are written in sixteen. A
larger count would wrap around; no byte string and no number in memory has one.

* `transcript_eq_iff_append`: the part that is always bound.
* `Separates.transcript_eq_iff`: the whole, if statements are told apart from what follows.
* `transcript_injective`: this holds for the statements of the protocols.
-/

namespace SigmaProtocol

open Transcript

section Transcript

variable {S : Type} [Transcribed S] {R : S → S → Prop} {dst dst' : Bytes} {bits bits' : UInt32}
  {statement statement' : S} {first first' : Message}

theorem transcript_eq_append (dst : Bytes) (bits : UInt32) (statement : S) (first : Message) :
    transcript dst bits statement first = (Bytes.ofNat 8 dst.length ++ dst) ++
      (word bits ++ (Transcribed.bytes statement ++ message first)) := by
  simp only [transcript, List.append_assoc]

/-- The domain tag and the soundness parameter are always bound, and the rest as one string. -/
theorem transcript_eq_iff_append (hdst : dst.length < 2 ^ 64) (hdst' : dst'.length < 2 ^ 64) :
    transcript dst bits statement first = transcript dst' bits' statement' first' ↔
      dst = dst' ∧ bits = bits' ∧ Transcribed.bytes statement ++ message first =
        Transcribed.bytes statement' ++ message first' := by
  rw [transcript_eq_append, transcript_eq_append]
  constructor
  · intro h
    obtain ⟨htag, h⟩ := separates_bytes 8 ⟨hdst, hdst'⟩ h
    obtain ⟨hbits, h⟩ := separates_word trivial h
    exact ⟨htag, hbits, h⟩
  · rintro ⟨rfl, rfl, h⟩
    rw [h]

/-- A statement that can be told from what follows is bound together with the first message. -/
theorem Separates.transcript_eq_iff (hS : Separates R Transcribed.bytes)
    (hdst : dst.length < 2 ^ 64) (hdst' : dst'.length < 2 ^ 64) (hR : R statement statement') :
    transcript dst bits statement first = transcript dst' bits' statement' first' ↔
      dst = dst' ∧ bits = bits' ∧ statement = statement' ∧ first = first' := by
  rw [transcript_eq_iff_append hdst hdst']
  refine and_congr_right fun _ => and_congr_right fun _ => ⟨fun h => ?_, ?_⟩
  · obtain ⟨hstatement, hfirst⟩ := hS hR h
    exact ⟨hstatement, message_injective hfirst⟩
  · rintro ⟨rfl, rfl⟩
    rfl

end Transcript

/-! ## Records -/

theorem Separates.record_singleton {α : Type} {R : α → α → Prop} {write : α → Bytes}
    (h : Separates R write) : Separates R fun a => record [write a] := by
  simpa [record] using h.behind (count 1)

theorem Separates.record_pair {α β : Type} {R : α → α → Prop} {Q : β → β → Prop}
    {write : α → Bytes} {write' : β → Bytes} (h : Separates R write) (h' : Separates Q write') :
    Separates (fun p p' : α × β => R p.1 p'.1 ∧ Q p.2 p'.2)
      fun p => record [write p.1, write' p.2] := by
  simpa [record] using (h.append h').behind (count 2)

/-! ## Statements of the protocols -/

theorem separates_params :
    Separates (fun _ _ => True) (Transcribed.bytes : Params → Bytes) := by
  have hinj : Function.Injective fun p : Params => (p.soundnessBits, p.lengthParameter) := by
    rintro ⟨bits, len⟩ ⟨bits', len'⟩ h
    obtain ⟨rfl, rfl⟩ := Prod.mk.inj h
    rfl
  exact ((separates_word.record_pair separates_word).comap hinj).mono fun _ => ⟨trivial, trivial⟩

/-- The types of statements whose every part has a fixed width or stands behind a count, and what
it means that the counts of a statement fit the bytes that they are written in. -/
inductive CountedStatement : (S : Type) → [Transcribed S] → (S → Prop) → Prop
  | encryptedZero : CountedStatement EncryptedZero.Statement fun s =>
    CountsWords s.publicKey.modulus ∧ CountsWords s.ciphertext.value
  /-- A byte string, such as the encoding of a group element. -/
  | bytes : CountedStatement Bytes fun bs => bs.length < 2 ^ 128
  | integers : CountedStatement (Nat × Nat) fun p => CountsWords p.1 ∧ CountsWords p.2
  | params : CountedStatement Params fun _ => True
  | unit : CountedStatement Unit fun _ => True

theorem CountedStatement.separates {S : Type} [Transcribed S] {Fits : S → Prop}
    (hS : CountedStatement S Fits) :
    Separates (fun s s' => Fits s ∧ Fits s') (Transcribed.bytes : S → Bytes) := by
  cases hS with
  | encryptedZero =>
    have hinj : Function.Injective fun s : EncryptedZero.Statement =>
        (s.publicKey.modulus, s.ciphertext.value) := by
      rintro ⟨⟨n⟩, ⟨c⟩⟩ ⟨⟨n'⟩, ⟨c'⟩⟩ h
      obtain ⟨rfl, rfl⟩ := Prod.mk.inj h
      rfl
    exact ((separates_integer.record_singleton.record_pair
      separates_integer.record_singleton).comap hinj).mono and_and_and_comm.mp
  | bytes => exact separates_bytes 16
  | integers =>
    exact (separates_integer.record_pair separates_integer).mono and_and_and_comm.mp
  | params => exact separates_params.mono fun _ => trivial
  | unit => exact fun _ _ _ _ _ h => ⟨rfl, h⟩

/-- **Binding.** What is hashed to a challenge is the transcript. For the statements of the
protocols different domain tags, soundness parameters, statements or first messages have different
transcripts. -/
theorem transcript_injective {S : Type} [Transcribed S] {Fits : S → Prop}
    (hS : CountedStatement S Fits) {dst dst' : Bytes} (hdst : dst.length < 2 ^ 64)
    (hdst' : dst'.length < 2 ^ 64) {statement statement' : S} (hstatement : Fits statement)
    (hstatement' : Fits statement') {bits bits' : UInt32} {first first' : Message} :
    (∀ (tag : Bytes) (s : S) (message : Message) (t : UInt32),
      Challenge.ofTranscript tag s message t = Challenge.ofMasked
        (shake256 (transcript tag t s message) (Challenge.byteCount t).toNat) t) ∧
    (transcript dst bits statement first = transcript dst' bits' statement' first' ↔
      dst = dst' ∧ bits = bits' ∧ statement = statement' ∧ first = first') :=
  ⟨Challenge.ofTranscript_eq,
    hS.separates.transcript_eq_iff hdst hdst' ⟨hstatement, hstatement'⟩⟩

/-- Another first message for the same statement and the tag `test`. -/
theorem transcript_ne_of_first :
    transcript [0x74, 0x65, 0x73, 0x74] 80 (77, 5) (.integer 1234) ≠
      transcript [0x74, 0x65, 0x73, 0x74] 80 (77, 5) (.integer 1235) := by
  have hfits : CountsWords 77 ∧ CountsWords 5 :=
    ⟨countsWords_of_lt (k := 1) (by decide) (by decide),
      countsWords_of_lt (k := 1) (by decide) (by decide)⟩
  intro h
  obtain ⟨-, -, -, hfirst⟩ :=
    (transcript_injective .integers (by decide) (by decide) hfits hfits).2.mp h
  exact absurd hfirst (by decide)

end SigmaProtocol
