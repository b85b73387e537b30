import SigmaProtocol.Challenge
import SigmaProtocol.Proofs.Limbs
import SigmaProtocol.Proofs.Random

/-!
# Valid challenges

A challenge is valid for `t` exactly if it has `⌈t / 8⌉` bytes that write a number below `2 ^ t`.
For the last seven `t` the number of digits in these bytes is no 32-bit word, and then there is no
valid challenge at all.

* `Challenge.topMask_of_lt`, `Challenge.topMask_of_le`: the mask of the top byte, if there is one.
* `Challenge.validate_iff`: which challenges are valid.
* `Challenge.exponent_inj`: different valid challenges are different exponents.
* `Challenge.validate_random`, `Challenge.ofBytes_eq_ok_iff`, `Challenge.validate_ofTranscript`:
  however a challenge is had, it is valid.
-/

namespace SigmaProtocol

namespace Challenge

/-! ## Widths -/

theorem toNat_byteCount (bits : UInt32) : (byteCount bits).toNat = (bits.toNat + 7) / 8 := by
  have hlt := bits.toNat_lt
  have hmod : bits % 8 = 0 ↔ bits.toNat % 8 = 0 := by
    rw [← UInt32.toNat_inj, UInt32.toNat_mod]
    rfl
  unfold byteCount
  split
  · next h =>
    have := hmod.mp h
    simp only [UInt32.toNat_div, UInt32.reduceToNat]
    omega
  · next h =>
    have := mt hmod.mpr h
    simp only [UInt32.toNat_add, UInt32.toNat_div, UInt32.reduceToNat]
    omega

/-- The number of digits in `⌈t / 8⌉` bytes is a word for all but the last seven `t`. -/
theorem excessBits_of_lt {bits : UInt32} (h : bits.toNat + 7 < 2 ^ 32) :
    ∃ k, excessBits bits = .ok k ∧ k.toNat = 8 * (byteCount bits).toNat - bits.toNat := by
  have hcount := toNat_byteCount bits
  have hfits : 8 * (byteCount bits).toNat < 2 ^ 32 := by omega
  obtain ⟨w, hw, hproduct⟩ := Word.exists_mul_of_lt (a := 8) hfits
  simp only [UInt32.reduceToNat] at hproduct
  refine ⟨w - bits, except_bind_eq_ok.mpr ⟨w, hw, rfl⟩, ?_⟩
  rw [UInt32.toNat_sub]
  omega

theorem excessBits_of_le {bits : UInt32} (h : 2 ^ 32 ≤ bits.toNat + 7) :
    excessBits bits = .error .overflow := by
  have hcount := toNat_byteCount bits
  have hlarge : 2 ^ 32 ≤ 8 * (byteCount bits).toNat := by omega
  exact except_bind_of_error (Word.mul_of_le (a := 8) hlarge)

/-- The mask of the top byte leaves the numbers of at most `8 - k` binary digits. -/
theorem and_compl_mask_eq_zero_iff (top : UInt8) {k : Nat} (hk : k < 8) :
    top &&& ~~~(0xff >>> UInt8.ofNat k) = 0 ↔ top.toNat < 2 ^ (8 - k) := by
  -- There are few enough bytes and masks to try them all.
  have h : ∀ v : BitVec 8, ∀ k : Fin 8,
      UInt8.ofBitVec v &&& ~~~(0xff >>> UInt8.ofNat k) = 0 ↔ v.toNat < 2 ^ (8 - k.val) := by
    decide +kernel
  exact h top.toBitVec ⟨k, hk⟩

/-- What has been masked passes the check of the mask. -/
theorem mask_and_compl_mask (top mask : UInt8) : top &&& mask &&& ~~~mask = 0 := by
  rw [UInt8.and_assoc, UInt8.and_not_self]
  exact UInt8.and_zero

/-! ## Validity -/

theorem topMask_of_lt {bits : UInt32} (h : bits.toNat + 7 < 2 ^ 32) :
    topMask bits =
      .ok (0xff >>> UInt8.ofNat (8 * (byteCount bits).toNat - bits.toNat)) := by
  obtain ⟨k, hk, hexcess⟩ := excessBits_of_lt h
  rw [← hexcess, UInt8.ofNat_uInt32ToNat, topMask, hk]
  rfl

theorem topMask_of_le {bits : UInt32} (h : 2 ^ 32 ≤ bits.toNat + 7) :
    topMask bits = .error .overflow :=
  except_bind_of_error (excessBits_of_le h)

/-- The first byte of a challenge keeps the binary digits that the other bytes have no room for. -/
theorem topMask_eq {top : UInt8} {rest : Bytes} {bits : UInt32} (hbits : bits.toNat + 7 < 2 ^ 32)
    (h : (top :: rest).length = (byteCount bits).toNat) :
    ∃ k < 8, topMask bits = .ok (0xff >>> UInt8.ofNat k) ∧
      2 ^ bits.toNat = 2 ^ (8 - k) * 256 ^ rest.length := by
  have hcount := toNat_byteCount bits
  obtain ⟨k, hk⟩ : ∃ k, 8 * (byteCount bits).toNat - bits.toNat = k := ⟨_, rfl⟩
  have hmask := topMask_of_lt hbits
  rw [List.length_cons] at h
  rw [hk] at hmask
  have hsplit : bits.toNat = 8 - k + 8 * rest.length := by omega
  refine ⟨k, by omega, hmask, ?_⟩
  rw [hsplit, pow_add, pow_mul, show 2 ^ 8 = 256 from rfl]

/-- The check either says that a challenge is valid, or refuses it, or has no result. -/
theorem eq_invalidChallenge_of_validate {c : Challenge} {bits : UInt32} {e : ProtocolError}
    (h : c.validate bits = .ok (.error e)) : e = .invalidChallenge := by
  unfold validate at h
  split at h
  · cases h
    rfl
  · split at h
    · cases h
    · obtain ⟨mask, -, h⟩ := except_bind_eq_ok.mp h
      have h := Except.ok.inj h
      split at h
      · cases h
      · exact (Except.error.inj h).symm

/-- A challenge can be checked if its digits can be counted. -/
theorem exists_validate {bits : UInt32} (h : bits.toNat + 7 < 2 ^ 32) (c : Challenge) :
    ∃ outcome, c.validate bits = .ok outcome := by
  unfold validate
  split
  · exact ⟨_, rfl⟩
  · split
    · exact ⟨_, rfl⟩
    · exact ⟨_, except_bind_eq_ok.mpr ⟨_, topMask_of_lt h, rfl⟩⟩

/-- A challenge of the right length cannot be checked if its digits cannot be counted. -/
theorem validate_of_le {c : Challenge} {bits : UInt32} (h : 2 ^ 32 ≤ bits.toNat + 7)
    (hlength : c.bytes.length = (byteCount bits).toNat) :
    c.validate bits = .error .overflow := by
  have hcount := toNat_byteCount bits
  obtain ⟨_ | ⟨top, rest⟩⟩ := c
  · simp only [List.length_nil] at hlength
    omega
  · rw [validate, if_neg (not_not.mpr hlength)]
    exact except_bind_of_error (topMask_of_le h)

/-- Which challenges are valid: the bytes have the right number, and the number that they write is
below `2 ^ t`. -/
theorem validate_iff (c : Challenge) (bits : UInt32) :
    c.validate bits = .ok (.ok ()) ↔
      c.bytes.length = (byteCount bits).toNat ∧ Bytes.toNat c.bytes < 2 ^ bits.toNat ∧
        bits.toNat + 7 < 2 ^ 32 := by
  obtain hbits | hbits := lt_or_ge (bits.toNat + 7) (2 ^ 32)
  · obtain ⟨bytes⟩ := c
    unfold validate
    by_cases hlength : bytes.length = (byteCount bits).toNat
    · rw [if_neg (not_not.mpr hlength), and_iff_right hlength, and_iff_left hbits]
      cases bytes with
      | nil => simp
      | cons top rest =>
        obtain ⟨k, hk, hmask, hpow⟩ := topMask_eq hbits hlength
        -- Whether the number is below the power of two is decided by its first byte.
        rw [hpow, ← Nat.div_lt_iff_lt_mul (by positivity), Bytes.toNat_cons_div,
          ← and_compl_mask_eq_zero_iff top hk]
        simp only [hmask]
        show Except.ok (if _ then Except.ok () else _) = .ok (.ok ()) ↔ _
        simp
    · simp [hlength]
  · refine iff_of_false (fun h => ?_) fun h => h.2.2.not_ge hbits
    by_cases hlength : c.bytes.length = (byteCount bits).toNat
    · rw [validate_of_le hbits hlength] at h
      cases h
    · rw [validate, if_pos hlength] at h
      cases h

/-- Different valid challenges are different exponents. -/
theorem exponent_inj {c c' : Challenge} {bits : UInt32} (hc : c.validate bits = .ok (.ok ()))
    (hc' : c'.validate bits = .ok (.ok ())) (h : c.exponent.toNat = c'.exponent.toNat) :
    c = c' := by
  obtain ⟨hlength, -⟩ := (validate_iff c bits).mp hc
  obtain ⟨hlength', -⟩ := (validate_iff c' bits).mp hc'
  rw [exponent, exponent, LimbNat.toNat_ofBytes, LimbNat.toNat_ofBytes] at h
  exact congrArg Challenge.mk (Bytes.eq_of_toNat_eq (hlength.trans hlength'.symm) h)

theorem exponent_lt {c : Challenge} {bits : UInt32} (hc : c.validate bits = .ok (.ok ())) :
    c.exponent.toNat < 2 ^ bits.toNat := by
  rw [exponent, LimbNat.toNat_ofBytes]
  exact ((validate_iff c bits).mp hc).2.1

/-! ## Origins -/

theorem ofBytes_eq_ok_iff {bytes : Bytes} {bits : UInt32} {c : Challenge} :
    ofBytes bytes bits = .ok (.ok c) ↔
      c = ⟨bytes⟩ ∧ validate ⟨bytes⟩ bits = .ok (.ok ()) := by
  constructor
  · intro h
    obtain ⟨outcome, hvalid, h⟩ := except_bind_eq_ok.mp h
    obtain ⟨⟨⟩, rfl, hbytes⟩ := except_map_eq_ok.mp (Except.ok.inj h)
    exact ⟨hbytes.symm, hvalid⟩
  · rintro ⟨rfl, hvalid⟩
    exact except_bind_eq_ok.mpr ⟨_, hvalid, rfl⟩

theorem exists_ofMasked {bits : UInt32} (h : bits.toNat + 7 < 2 ^ 32) (bytes : Bytes) :
    ∃ c, ofMasked bytes bits = .ok c := by
  cases bytes with
  | nil => exact ⟨_, rfl⟩
  | cons top rest => exact ⟨_, except_bind_eq_ok.mpr ⟨_, topMask_of_lt h, rfl⟩⟩

theorem ofMasked_of_le {bytes : Bytes} {bits : UInt32} (h : 2 ^ 32 ≤ bits.toNat + 7)
    (hlength : bytes.length = (byteCount bits).toNat) :
    ofMasked bytes bits = .error .overflow := by
  have hcount := toNat_byteCount bits
  cases bytes with
  | nil =>
    rw [List.length_nil] at hlength
    omega
  | cons top rest => exact except_bind_of_error (topMask_of_le h)

/-- Bytes of the right number are a valid challenge once their first byte has been masked. -/
theorem validate_ofMasked {bytes : Bytes} {bits : UInt32} {c : Challenge}
    (hlength : bytes.length = (byteCount bits).toNat) (h : ofMasked bytes bits = .ok c) :
    c.validate bits = .ok (.ok ()) := by
  cases bytes with
  | nil =>
    cases h
    simp [validate, ← hlength]
  | cons top rest =>
    obtain ⟨mask, hmask, h⟩ := except_bind_eq_ok.mp h
    cases h
    refine (if_neg (not_not.mpr hlength)).trans (except_bind_eq_ok.mpr ⟨_, hmask, ?_⟩)
    rw [mask_and_compl_mask]
    rfl

theorem validate_random {bits : UInt32} {stream rest : Bytes} {c : Challenge}
    (h : random bits stream = .ok (c, rest)) : c.validate bits = .ok (.ok ()) := by
  obtain ⟨bytes, middle, hbytes, h⟩ := Sampler.bind_eq_ok.mp h
  exact validate_ofMasked (Sampler.length_of_bytes hbytes) (Sampler.lift_eq_ok.mp h).1

section Transcript

variable {S : Type} [Transcribed S] {dst : Bytes} {statement : S} {first : Message} {bits : UInt32}

/-- What is hashed is the transcript: the domain tag, `t`, the statement and the first message. -/
theorem ofTranscript_eq (dst : Bytes) (statement : S) (first : Message) (bits : UInt32) :
    ofTranscript dst statement first bits =
      ofMasked (shake256 (transcript dst bits statement first) (byteCount bits).toNat) bits :=
  rfl

/-- A challenge depends on the statement and the first message by their transcript alone. -/
theorem ofTranscript_eq_of_transcript_eq {S' : Type} [Transcribed S'] {dst' : Bytes}
    {statement' : S'} {first' : Message}
    (h : transcript dst bits statement first = transcript dst' bits statement' first') :
    ofTranscript dst statement first bits = ofTranscript dst' statement' first' bits := by
  rw [ofTranscript_eq, ofTranscript_eq, h]

theorem validate_ofTranscript {c : Challenge} (h : ofTranscript dst statement first bits = .ok c) :
    c.validate bits = .ok (.ok ()) :=
  validate_ofMasked (length_shake256 _ _) h

theorem exists_ofTranscript (h : bits.toNat + 7 < 2 ^ 32) (dst : Bytes) (statement : S)
    (first : Message) : ∃ c, ofTranscript dst statement first bits = .ok c :=
  exists_ofMasked h _

end Transcript

end Challenge

end SigmaProtocol
