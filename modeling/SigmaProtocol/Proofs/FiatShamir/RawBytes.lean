import SigmaProtocol.ObliviousTransfer
import SigmaProtocol.Proofs.FiatShamir.Binding

/-!
# Raw byte strings in a transcript

The buffers of a batch of transfers, the bytes of a group element and a text are written without
their length. A transcript binds them together with what follows, but not where one ends and the
next begins: bytes that move over that boundary leave the transcript as it is. Whoever derives a
challenge for such a statement has to know the lengths from elsewhere.

* `transcript_eq_iff_buffers`: the two buffers of a batch of transfers count as one.
* `transcript_eq_of_extends`: bytes move from the first message into the statement.
* `transcript_binds_up_to_lengths`: what is bound, and that it is no more.
* `transcript_not_injective`: different statements and first messages with one transcript.
-/

namespace SigmaProtocol

open ObliviousTransfer Transcript

/-! ## Text -/

private theorem toList_loop_eq (bs : ByteArray) (i : Nat) (acc : Bytes) :
    ByteArray.toList.loop bs i acc = acc.reverse ++ bs.data.toList.drop i := by
  fun_induction ByteArray.toList.loop bs i acc with
  | case1 i acc hlt ih =>
    have hi : i < bs.data.toList.length := hlt
    have hget : bs.get! i = bs.data.toList[i] := getElem!_pos bs.data i hi
    rw [ih, List.drop_eq_getElem_cons hi, List.reverse_cons, hget, List.append_assoc,
      List.singleton_append]
  | case2 i acc hge =>
    have hi : bs.data.toList.length ≤ i := Nat.le_of_not_lt hge
    rw [List.drop_eq_nil_of_le hi, List.append_nil]

theorem bytes_text (s : String) : Transcribed.bytes s = s.toByteArray.data.toList :=
  toList_loop_eq s.toByteArray 0 []

theorem length_bytes_text (s : String) : (Transcribed.bytes s).length = s.utf8ByteSize :=
  congrArg List.length (bytes_text s)

theorem bytes_text_append (s t : String) :
    Transcribed.bytes (s ++ t) = Transcribed.bytes s ++ Transcribed.bytes t := by
  rw [bytes_text, bytes_text, bytes_text, String.toByteArray_append, ByteArray.toList_data_append]

theorem bytes_text_injective : Function.Injective (Transcribed.bytes : String → Bytes) := by
  intro s t h
  rw [bytes_text, bytes_text] at h
  exact String.toByteArray_inj.mp (ByteArray.ext (Array.toList_inj.mp h))

/-- The text that is written like the kind of a group element. -/
theorem bytes_text_element : Transcribed.bytes "\x00\x00\x00\x01" = Bytes.ofNat 4 1 := by
  rw [bytes_text]
  decide

theorem separates_text : Separates (fun s t : String => s.utf8ByteSize = t.utf8ByteSize)
    (Transcribed.bytes : String → Bytes) :=
  .of_length (fun h => by rw [length_bytes_text, length_bytes_text, h])
    fun _ h => bytes_text_injective h

/-! ## Buffers -/

namespace ObliviousTransfer.SenderInput

/-- The buffers of two inputs have the same lengths. -/
def SameLengths (a b : SenderInput) : Prop :=
  a.x0.length = b.x0.length ∧ a.x1.length = b.x1.length

theorem bytes_eq (a : SenderInput) :
    Transcribed.bytes a = count 3 ++ (a.x0 ++ (a.x1 ++ Bytes.ofNat 8 a.numOts.toNat)) := by
  simp [Transcribed.bytes, record]

theorem separates : Separates SameLengths (Transcribed.bytes : SenderInput → Bytes) := by
  intro a b rest rest' hlength h
  have hinj : Function.Injective fun a : SenderInput => (a.x0, a.x1, a.numOts) := by
    rintro ⟨x0, x1, n⟩ ⟨y0, y1, n'⟩ h
    simpa using h
  have hfields := ((separates_raw.append (separates_raw.append separates_uint64)).behind
    (count 3)).comap hinj
  rw [bytes_eq, bytes_eq] at h
  exact hfields ⟨hlength.1, hlength.2, trivial⟩ h

end ObliviousTransfer.SenderInput

/-- The buffers count as one: where the first ends is not bound. -/
theorem transcript_eq_iff_buffers {dst : Bytes} {bits : UInt32} {n : UInt64} {first : Message}
    {x0 x1 y0 y1 : Bytes} :
    transcript dst bits (⟨x0, x1, n⟩ : SenderInput) first =
      transcript dst bits (⟨y0, y1, n⟩ : SenderInput) first ↔ x0 ++ x1 = y0 ++ y1 := by
  rw [transcript_eq_append, transcript_eq_append, List.append_right_inj, List.append_right_inj,
    List.append_left_inj, SenderInput.bytes_eq, SenderInput.bytes_eq, List.append_right_inj,
    ← List.append_assoc, ← List.append_assoc, List.append_left_inj]

/-! ## The end of a statement -/

/-- If the bytes of `s'` are those of `s` with more behind them that begins like a group element,
then the first message after `s` may be part of `s'`. -/
theorem transcript_eq_of_extends {S : Type} [Transcribed S] {s s' : S} {tail : Bytes}
    (h : Transcribed.bytes s' = Transcribed.bytes s ++ (Bytes.ofNat 4 1 ++ tail)) (dst : Bytes)
    (bits : UInt32) (rest : Bytes) :
    transcript dst bits s' (.element rest) =
      transcript dst bits s (.element (tail ++ (Bytes.ofNat 4 1 ++ rest))) := by
  simp only [transcript, message, h, List.append_assoc]

/-- The types of statements that hold raw byte strings, when the byte strings of two statements
have the same lengths, and which statements are raw. -/
inductive RawStatement : (S : Type) → [Transcribed S] → (S → S → Prop) → (S → Prop) → Prop
  | senderInput : RawStatement SenderInput SenderInput.SameLengths fun _ => True
  /-- Of the messages only group elements are raw; the words of an integer are counted. -/
  | message : RawStatement Message Message.Comparable fun m => ∃ bs, m = .element bs
  | text : RawStatement String (fun s t => s.utf8ByteSize = t.utf8ByteSize) fun _ => True

variable {S : Type} [Transcribed S] {SameLengths : S → S → Prop} {Raw : S → Prop}

theorem RawStatement.separates (hS : RawStatement S SameLengths Raw) :
    Separates SameLengths (Transcribed.bytes : S → Bytes) := by
  cases hS with
  | senderInput => exact SenderInput.separates
  | message => exact separates_message
  | text => exact separates_text

/-- A raw statement can be continued by bytes that begin like a group element. -/
theorem RawStatement.exists_extends (hS : RawStatement S SameLengths Raw) {s : S} (hs : Raw s) :
    ∃ (s' : S) (tail : Bytes), s' ≠ s ∧
      Transcribed.bytes s' = Transcribed.bytes s ++ (Bytes.ofNat 4 1 ++ tail) := by
  cases hS with
  | senderInput =>
    -- The second buffer takes up its own count and the kind of the message, and the count is
    -- written once more behind it.
    refine ⟨⟨s.x0, s.x1 ++ (Bytes.ofNat 8 s.numOts.toNat ++ Bytes.ofNat 4 1), s.numOts⟩,
      Bytes.ofNat 8 s.numOts.toNat, fun h => ?_, ?_⟩
    · have hlength := congrArg (fun a => a.x1.length) h
      simp at hlength
    · simp [SenderInput.bytes_eq]
  | message =>
    obtain ⟨bs, rfl⟩ := hs
    refine ⟨.element (bs ++ Bytes.ofNat 4 1), [], fun h => ?_, ?_⟩
    · have hlength := congrArg List.length (Message.element.inj h)
      simp at hlength
    · simp [Transcribed.bytes, Transcript.message]
  | text =>
    refine ⟨s ++ "\x00\x00\x00\x01", [], fun h => ?_, ?_⟩
    · have hlength := congrArg String.length h
      simp at hlength
    · rw [bytes_text_append, bytes_text_element, List.append_nil]

/-- A transcript binds statements only together with what follows and with the lengths of the
byte strings that they hold. -/
structure BindsUpToLengths (S : Type) [Transcribed S] (SameLengths : S → S → Prop)
    (Raw : S → Prop) : Prop where
  /-- The domain tag and the soundness parameter are bound, and the bytes of the statement and the
  first message as one string. -/
  eq_iff_append : ∀ {dst dst' : Bytes} {bits bits' : UInt32} {s s' : S} {first first' : Message},
    dst.length < 2 ^ 64 → dst'.length < 2 ^ 64 →
      (transcript dst bits s first = transcript dst' bits' s' first' ↔
        dst = dst' ∧ bits = bits' ∧
          Transcribed.bytes s ++ message first = Transcribed.bytes s' ++ message first')
  /-- For byte strings of the same lengths the statement and the first message are bound. -/
  eq_iff : ∀ {dst dst' : Bytes} {bits bits' : UInt32} {s s' : S} {first first' : Message},
    dst.length < 2 ^ 64 → dst'.length < 2 ^ 64 → SameLengths s s' →
      (transcript dst bits s first = transcript dst' bits' s' first' ↔
        dst = dst' ∧ bits = bits' ∧ s = s' ∧ first = first')
  /-- Otherwise they are not: to each raw statement there is another one with the same transcripts,
  which takes the beginning of the first message for its own end. The challenges are the same
  then. -/
  exists_eq : ∀ {s : S}, Raw s → ∃ (s' : S) (start : Bytes), s' ≠ s ∧
    ∀ (dst : Bytes) (bits : UInt32) (rest : Bytes),
      transcript dst bits s' (.element rest) = transcript dst bits s (.element (start ++ rest)) ∧
        Challenge.ofTranscript dst s' (.element rest) bits =
          Challenge.ofTranscript dst s (.element (start ++ rest)) bits

/-- For the statements that hold raw byte strings this is what is bound. -/
theorem transcript_binds_up_to_lengths (hS : RawStatement S SameLengths Raw) :
    BindsUpToLengths S SameLengths Raw where
  eq_iff_append := transcript_eq_iff_append
  eq_iff := hS.separates.transcript_eq_iff
  exists_eq := by
    intro s hs
    obtain ⟨s', tail, hne, hextends⟩ := hS.exists_extends hs
    refine ⟨s', tail ++ Bytes.ofNat 4 1, hne, fun dst bits rest => ?_⟩
    have htranscript := transcript_eq_of_extends hextends dst bits rest
    rw [← List.append_assoc] at htranscript
    exact ⟨htranscript, Challenge.ofTranscript_eq_of_transcript_eq htranscript⟩

/-- Buffers of the same lengths. -/
theorem transcript_ne_of_buffers :
    transcript [] 80 (⟨[0], [1], 1⟩ : SenderInput) (.integer 0) ≠
      transcript [] 80 (⟨[1], [0], 1⟩ : SenderInput) (.integer 0) := by
  have hdst : ([] : Bytes).length < 2 ^ 64 := by decide
  have hlengths : SenderInput.SameLengths ⟨[0], [1], 1⟩ ⟨[1], [0], 1⟩ := ⟨rfl, rfl⟩
  have hbinds := transcript_binds_up_to_lengths .senderInput
  intro h
  obtain ⟨-, -, hinput, -⟩ := (hbinds.eq_iff hdst hdst hlengths).mp h
  exact absurd hinput (by decide)

/-- Different inputs, both of a valid layout, different messages and different texts that have one
transcript, the last two with different first messages. The inputs have one challenge. -/
theorem transcript_not_injective :
    ((⟨[0], [], 1⟩ : SenderInput).validate = .ok () ∧
      (⟨[], [0], 1⟩ : SenderInput).validate = .ok () ∧
      (⟨[0], [], 1⟩ : SenderInput) ≠ ⟨[], [0], 1⟩ ∧
      transcript [] 80 (⟨[0], [], 1⟩ : SenderInput) (.integer 0) =
        transcript [] 80 (⟨[], [0], 1⟩ : SenderInput) (.integer 0) ∧
      Challenge.ofTranscript [] (⟨[0], [], 1⟩ : SenderInput) (.integer 0) 80 =
        Challenge.ofTranscript [] (⟨[], [0], 1⟩ : SenderInput) (.integer 0) 80) ∧
    (Message.element [0, 0, 0, 1] ≠ .element [] ∧
      transcript [] 80 (Message.element [0, 0, 0, 1]) (.element []) =
        transcript [] 80 (Message.element []) (.element [0, 0, 0, 1])) ∧
    "\x00\x00\x00\x01" ≠ "" ∧
      transcript [] 80 "\x00\x00\x00\x01" (.element []) =
        transcript [] 80 "" (.element [0, 0, 0, 1]) := by
  have hinputs : transcript [] 80 (⟨[0], [], 1⟩ : SenderInput) (.integer 0) =
      transcript [] 80 (⟨[], [0], 1⟩ : SenderInput) (.integer 0) :=
    transcript_eq_iff_buffers.mpr rfl
  refine ⟨⟨by decide, by decide, by decide, hinputs,
    Challenge.ofTranscript_eq_of_transcript_eq hinputs⟩, ⟨by decide, rfl⟩, by decide, ?_⟩
  have hextends := bytes_text_append "" "\x00\x00\x00\x01"
  rw [bytes_text_element, ← List.append_nil (Bytes.ofNat 4 1)] at hextends
  exact transcript_eq_of_extends hextends [] 80 []

end SigmaProtocol
