import SigmaProtocol.Proofs.Limbs
import SigmaProtocol.Transcript

/-!
# Fields of a transcript

A transcript is written field after field, with nothing in between. A field can be told from what
follows it if its width is fixed or is itself written in front of it; the bytes of a group element
and of a text cannot, unless their length is known from elsewhere. `Separates R write` says that
values which `R` relates are told apart by what `write` writes for them, whatever follows. For most
fields `R` only asks that counts fit the bytes they are written in; for raw byte strings it asks
that their lengths agree.

* `Separates.append`: one field after another.
* `Separates.counted`: data behind its size.
* `separates_integer`: integers are told apart.
* `separates_message`: so are messages, if the bytes of group elements have the same length.
* `message_injective`: at the end of a transcript nothing has to be asked.
-/

namespace SigmaProtocol

/-- Values that `R` relates are told apart by what is written for them, whatever follows. -/
def Separates {α : Type} (R : α → α → Prop) (write : α → Bytes) : Prop :=
  ∀ ⦃a a' : α⦄ ⦃rest rest' : Bytes⦄, R a a' → write a ++ rest = write a' ++ rest' →
    a = a' ∧ rest = rest'

namespace Separates

variable {α β : Type} {R : α → α → Prop} {Q : β → β → Prop} {write : α → Bytes}
  {write' : β → Bytes}

/-- Values that are written in the same number of bytes are told apart by these. -/
theorem of_length (hlength : ∀ {a a'}, R a a' → (write a).length = (write a').length)
    (hinj : ∀ {a a'}, R a a' → write a = write a' → a = a') : Separates R write := by
  intro a a' rest rest' hR h
  obtain ⟨hwrite, hrest⟩ := List.append_inj h (hlength hR)
  exact ⟨hinj hR hwrite, hrest⟩

theorem mono {R' : α → α → Prop} (h : Separates R write) (hR : ∀ {a a'}, R' a a' → R a a') :
    Separates R' write :=
  fun _ _ _ _ hR' heq => h (hR hR') heq

/-- What determines a value may be written in its place. -/
theorem comap {f : β → α} (h : Separates R write) (hf : Function.Injective f) :
    Separates (fun b b' => R (f b) (f b')) fun b => write (f b) := by
  intro b b' rest rest' hR heq
  obtain ⟨hb, hrest⟩ := h hR heq
  exact ⟨hf hb, hrest⟩

/-- Bytes that are the same for all values do not matter. -/
theorem behind (constant : Bytes) (h : Separates R write) :
    Separates R fun a => constant ++ write a := by
  intro a a' rest rest' hR heq
  rw [List.append_assoc, List.append_assoc, List.append_right_inj] at heq
  exact h hR heq

theorem append (h : Separates R write) (h' : Separates Q write') :
    Separates (fun p p' : α × β => R p.1 p'.1 ∧ Q p.2 p'.2) fun p => write p.1 ++ write' p.2 := by
  intro p p' rest rest' hR heq
  rw [List.append_assoc, List.append_assoc] at heq
  obtain ⟨hfst, heq⟩ := h hR.1 heq
  obtain ⟨hsnd, hrest⟩ := h' hR.2 heq
  exact ⟨Prod.ext hfst hsnd, hrest⟩

end Separates

/-! ## Numbers of a fixed width -/

theorem Bytes.ofNat_inj {len n n' : Nat} (hn : n < 256 ^ len) (hn' : n' < 256 ^ len)
    (h : ofNat len n = ofNat len n') : n = n' := by
  rw [← Nat.mod_eq_of_lt hn, ← Nat.mod_eq_of_lt hn', ← toNat_ofNat, h, toNat_ofNat]

theorem separates_ofNat (len : Nat) :
    Separates (fun n n' => n < 256 ^ len ∧ n' < 256 ^ len) (Bytes.ofNat len) :=
  .of_length (fun _ => by rw [Bytes.length_ofNat, Bytes.length_ofNat])
    fun hn h => Bytes.ofNat_inj hn.1 hn.2 h

theorem separates_word : Separates (fun _ _ => True) Transcript.word := by
  have hinj : Function.Injective UInt32.toNat := fun _ _ h => UInt32.toNat_inj.mp h
  exact ((separates_ofNat 4).comap hinj).mono fun _ => ⟨UInt32.toNat_lt _, UInt32.toNat_lt _⟩

theorem separates_uint64 :
    Separates (fun _ _ => True) fun n : UInt64 => Bytes.ofNat 8 n.toNat := by
  have hinj : Function.Injective UInt64.toNat := fun _ _ h => UInt64.toNat_inj.mp h
  exact ((separates_ofNat 8).comap hinj).mono fun _ => ⟨UInt64.toNat_lt _, UInt64.toNat_lt _⟩

/-! ## Data behind its size -/

/-- Data is told apart behind its size, if it is for data of the same size. -/
theorem Separates.counted {α : Type} {R : α → α → Prop} {write : α → Bytes} {size : α → Nat}
    (len : Nat) (h : Separates (fun a a' => R a a' ∧ size a = size a') write) :
    Separates (fun a a' => R a a' ∧ size a < 256 ^ len ∧ size a' < 256 ^ len)
      fun a => Bytes.ofNat len (size a) ++ write a := by
  rintro a a' rest rest' ⟨hR, hsize⟩ heq
  rw [List.append_assoc, List.append_assoc] at heq
  -- The sizes are read first, and then the data is known to have one size.
  obtain ⟨hsizes, heq⟩ := separates_ofNat len hsize heq
  exact h ⟨hR, hsizes⟩ heq

/-- Raw byte strings are told apart if their lengths agree. -/
theorem separates_raw :
    Separates (fun bs bs' : Bytes => bs.length = bs'.length) fun bs => bs :=
  .of_length (fun h => h) fun _ h => h

/-- A byte string behind its length needs nothing but room for the length. -/
theorem separates_bytes (len : Nat) :
    Separates (fun bs bs' : Bytes => bs.length < 256 ^ len ∧ bs'.length < 256 ^ len)
      fun bs => Bytes.ofNat len bs.length ++ bs := by
  have h : Separates (fun bs bs' : Bytes => True ∧ bs.length = bs'.length) fun bs => bs :=
    separates_raw.mono And.right
  exact (h.counted len).mono fun hsize => ⟨trivial, hsize⟩

/-! ## Integers -/

theorem wordsOfNat_injective : Function.Injective wordsOfNat :=
  Function.LeftInverse.injective natOfWords_wordsOfNat

theorem length_flatMap_word (ws : List UInt32) :
    (ws.flatMap fun w => Bytes.ofNat 4 w.toNat).length = 4 * ws.length := by
  induction ws with
  | nil => rfl
  | cons w ws ih =>
    rw [List.flatMap_cons, List.length_append, Bytes.length_ofNat, ih, List.length_cons]
    omega

/-- Lists of words are told apart if their lengths agree. -/
theorem separates_words : Separates (fun ws ws' : List UInt32 => ws.length = ws'.length)
    fun ws => ws.flatMap fun w => Bytes.ofNat 4 w.toNat := by
  -- The induction is on the words of the first list; the lengths keep the second in step.
  intro ws
  induction ws with
  | nil =>
    intro ws' rest rest' hlength heq
    obtain rfl := List.length_eq_zero_iff.mp hlength.symm
    exact ⟨rfl, heq⟩
  | cons w ws ih =>
    intro ws' rest rest' hlength heq
    cases ws' with
    | nil => cases hlength
    | cons w' ws' =>
      simp only [List.flatMap_cons, List.append_assoc] at heq
      obtain ⟨rfl, htail⟩ := separates_word trivial heq
      obtain ⟨rfl, hrest⟩ := ih (Nat.succ.inj hlength) htail
      exact ⟨rfl, hrest⟩

theorem length_wordsOfNat_le {n k : Nat} (h : n < UInt32.size ^ k) :
    (wordsOfNat n).length ≤ k := by
  induction k generalizing n with
  | zero =>
    obtain rfl : n = 0 := by simpa using h
    simp [wordsOfNat]
  | succ k ih =>
    rw [wordsOfNat]
    split
    · exact Nat.zero_le _
    · exact Nat.succ_le_succ (ih (Nat.div_lt_of_lt_mul (by rwa [pow_succ'] at h)))

/-- The number of words of `n` fits the bytes that it is written in. -/
def CountsWords (n : Nat) : Prop := (wordsOfNat n).length < 256 ^ 16

theorem countsWords_of_lt {n k : Nat} (h : n < UInt32.size ^ k) (hk : k < 256 ^ 16) :
    CountsWords n :=
  (length_wordsOfNat_le h).trans_lt hk

/-- Integers are told apart, since the words stand behind their number. -/
theorem separates_integer :
    Separates (fun n n' => CountsWords n ∧ CountsWords n') Transcript.integer := by
  have h : Separates (fun ws ws' : List UInt32 => True ∧ ws.length = ws'.length)
      fun ws => ws.flatMap fun w => Bytes.ofNat 4 w.toNat := separates_words.mono And.right
  exact ((h.counted 16).comap wordsOfNat_injective).mono fun hsize => ⟨trivial, hsize⟩

/-! ## Messages -/

/-- The number of its kind tells what a message holds. -/
theorem message_append_cases {m m' : Message} {rest rest' : Bytes}
    (h : Transcript.message m ++ rest = Transcript.message m' ++ rest') :
    (∃ n n', m = .integer n ∧ m' = .integer n' ∧
      Transcript.integer n ++ rest = Transcript.integer n' ++ rest') ∨
    ∃ bs bs', m = .element bs ∧ m' = .element bs' ∧ bs ++ rest = bs' ++ rest' := by
  have hkind : Bytes.ofNat 4 0 ≠ Bytes.ofNat 4 1 := by decide
  cases m with
  | integer n =>
    cases m' with
    | integer n' =>
      simp only [Transcript.message, List.append_assoc, List.append_right_inj] at h
      exact .inl ⟨n, n', rfl, rfl, h⟩
    | element bs' =>
      simp only [Transcript.message, List.append_assoc] at h
      exact absurd (List.append_inj_left h (by simp)) hkind
  | element bs =>
    cases m' with
    | integer n' =>
      simp only [Transcript.message, List.append_assoc] at h
      exact absurd (List.append_inj_left h (by simp)).symm hkind
    | element bs' =>
      simp only [Transcript.message, List.append_assoc, List.append_right_inj] at h
      exact .inr ⟨bs, bs', rfl, rfl, h⟩

/-- What is asked of two messages for them to be told apart from what follows. -/
def Message.Comparable : Message → Message → Prop
  | .integer n, .integer n' => CountsWords n ∧ CountsWords n'
  | .element bs, .element bs' => bs.length = bs'.length
  | _, _ => True

theorem separates_message : Separates Message.Comparable Transcript.message := by
  intro m m' rest rest' hR h
  obtain ⟨n, n', rfl, rfl, hfield⟩ | ⟨bs, bs', rfl, rfl, hfield⟩ := message_append_cases h
  · obtain ⟨rfl, hrest⟩ := separates_integer hR hfield
    exact ⟨rfl, hrest⟩
  · obtain ⟨rfl, hrest⟩ := separates_raw hR hfield
    exact ⟨rfl, hrest⟩

/-- At the end of a transcript the length of what is left takes the part of a count. -/
theorem message_injective : Function.Injective Transcript.message := by
  intro m m' h
  obtain ⟨n, n', rfl, rfl, hfield⟩ | ⟨bs, bs', rfl, rfl, hfield⟩ :=
    message_append_cases (congrArg (· ++ []) h)
  -- Nothing follows the words, so that their number can be read off the length.
  · have hwords := List.append_inj_right (List.append_cancel_right hfield)
      (by simp [Transcript.count])
    have hlength := congrArg List.length hwords
    rw [length_flatMap_word, length_flatMap_word] at hlength
    obtain ⟨hn, -⟩ := separates_words (by omega) (congrArg (· ++ []) hwords)
    rw [wordsOfNat_injective hn]
  · rw [List.append_cancel_right hfield]

end SigmaProtocol
