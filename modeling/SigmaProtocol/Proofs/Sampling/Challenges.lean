import SigmaProtocol.Proofs.Run
import SigmaProtocol.Proofs.Sampling.Count

/-!
# Challenges are the numbers below a power of two

A challenge for `t` is `⌈t / 8⌉` bytes with a number below `2 ^ t`. Reading takes exactly these.
Sampling takes `⌈t / 8⌉` bytes off the stream and clears the excess binary digits at the front, so
that each number comes from as many byte strings as there are ways to set those digits. How many
digits are in excess is computed in a word, and there is a challenge for all `t` but the last seven.

* `Challenge.toNat_ofMasked`: clearing the excess digits is a remainder modulo `2 ^ t`.
* `Challenge.areExponents`: what reading, sampling and deriving a challenge give.
-/

namespace SigmaProtocol.Challenge

variable {bits : UInt32}

/-- The challenge is `⌈t / 8⌉` bytes that write a number below `2 ^ t`. -/
def IsBelow (c : Challenge) (bits : UInt32) : Prop :=
  c.bytes.length = (bits.toNat + 7) / 8 ∧ c.bytes.toNat < 2 ^ bits.toNat

theorem validate_iff_isBelow (c : Challenge) (bits : UInt32) :
    c.validate bits = .ok (.ok ()) ↔ c.IsBelow bits ∧ bits.toNat + 7 < 2 ^ 32 := by
  rw [validate_iff, toNat_byteCount, IsBelow, and_assoc]

/-! ## Reading -/

theorem ofBytes_eq_ok_iff_isBelow {bs : Bytes} {c : Challenge} :
    ofBytes bs bits = .ok (.ok c) ↔
      c = ⟨bs⟩ ∧ IsBelow ⟨bs⟩ bits ∧ bits.toNat + 7 < 2 ^ 32 := by
  rw [ofBytes_eq_ok_iff, validate_iff_isBelow]

/-- What is not a challenge is refused. -/
theorem ofBytes_eq_error_iff {bs : Bytes} (h : bits.toNat + 7 < 2 ^ 32) :
    ofBytes bs bits = .ok (.error .invalidChallenge) ↔ ¬ IsBelow ⟨bs⟩ bits := by
  obtain ⟨outcome, hvalid⟩ := exists_validate h ⟨bs⟩
  have hread : ofBytes bs bits = .ok (outcome.map fun _ => ⟨bs⟩) :=
    except_bind_eq_ok.mpr ⟨_, hvalid, rfl⟩
  have hbelow := validate_iff_isBelow ⟨bs⟩ bits
  rw [and_iff_left h, hvalid] at hbelow
  rw [hread, ← hbelow]
  rcases outcome with e | ⟨⟩
  · obtain rfl := eq_invalidChallenge_of_validate hvalid
    exact iff_of_true rfl nofun
  · exact iff_of_false nofun (not_not.mpr rfl)

/-- A verifier takes a challenge that could have been read, and nothing else of it changes. -/
theorem setChallenge_eq_ok_iff {S T : Type} {v v' : Verifier S T} {c : Challenge} :
    v.setChallenge c = .ok (.ok (), v') ↔ v' = { v with challenge := some c } ∧
      c.IsBelow v.role.soundnessBits ∧ v.role.soundnessBits.toNat + 7 < 2 ^ 32 := by
  rw [← validate_iff_isBelow]
  constructor
  · intro h
    obtain ⟨outcome, hvalid, h⟩ := except_bind_eq_ok.mp h
    rcases outcome with e | ⟨⟩
    · cases h
    · cases h
      exact ⟨rfl, hvalid⟩
  · rintro ⟨rfl, hvalid⟩
    exact Verifier.setChallenge_of_validate hvalid

/-! ## Sampling -/

/-- The mask of the top byte keeps the last `8 - k` binary digits. -/
theorem toNat_and_mask (top : UInt8) {k : Nat} (hk : k < 8) :
    (top &&& 0xff >>> UInt8.ofNat k).toNat = top.toNat % 2 ^ (8 - k) := by
  have h : ∀ v : BitVec 8, ∀ k : Fin 8,
      (UInt8.ofBitVec v &&& 0xff >>> UInt8.ofNat k).toNat = v.toNat % 2 ^ (8 - k.val) := by
    decide +kernel
  exact h top.toBitVec ⟨k, hk⟩

theorem toNat_ofMasked (hbits : bits.toNat + 7 < 2 ^ 32) {bs : Bytes} {c : Challenge}
    (h : bs.length = (byteCount bits).toNat) (hc : ofMasked bs bits = .ok c) :
    c.bytes.toNat = bs.toNat % 2 ^ bits.toNat := by
  cases bs with
  | nil =>
    cases hc
    simp
  | cons top rest =>
    obtain ⟨k, hk, hmask, hpow⟩ := topMask_eq hbits h
    obtain ⟨mask, hmask', hc⟩ := except_bind_eq_ok.mp hc
    cases hmask.symm.trans hmask'
    cases hc
    rw [Bytes.toNat_cons, toNat_and_mask top hk, hpow, Nat.mul_comm (2 ^ (8 - k)), Nat.mod_mul,
      Bytes.toNat_cons_mod, Bytes.toNat_cons_div]
    ring

theorem random_of_ofMasked {bs : Bytes} {c : Challenge} (h : bs.length = (byteCount bits).toNat)
    (hc : ofMasked bs bits = .ok c) (rest : Bytes) : random bits (bs ++ rest) = .ok (c, rest) :=
  Sampler.bind_eq_ok.mpr ⟨bs, rest, Sampler.bytes_append h rest, Sampler.lift_eq_ok.mpr ⟨hc, rfl⟩⟩

theorem random_eq_exhausted {stream : Bytes} (h : stream.length < (byteCount bits).toNat) :
    random bits stream = .error .exhausted := by
  have hbytes : Sampler.bytes (byteCount bits).toNat stream = .error .exhausted :=
    if_neg (not_le.mpr h)
  exact Sampler.bind_of_error hbytes

/-- A challenge that uses a stream up is the stream's number modulo `2 ^ t`. -/
theorem random_exponent_iff (hbits : bits.toNat + 7 < 2 ^ 32) {bs : Bytes} {k : Nat}
    (h : bs.length = (byteCount bits).toNat) :
    (∃ c, random bits bs = .ok (c, []) ∧ c.exponent.toNat = k) ↔
      bs.toNat % 2 ^ bits.toNat = k := by
  obtain ⟨c, hc⟩ := exists_ofMasked hbits bs
  have hrandom := random_of_ofMasked h hc []
  rw [List.append_nil] at hrandom
  rw [hrandom, ← toNat_ofMasked hbits h hc]
  simp [exponent, LimbNat.toNat_ofBytes]

/-! ## All origins together -/

/-- How a challenge for the soundness parameter `bits` comes about, and which numbers it can be. -/
structure AreExponents (bits : UInt32) : Prop where
  ofBytes_ok_iff (bs : Bytes) (c : Challenge) : ofBytes bs bits = .ok (.ok c) ↔
    c = ⟨bs⟩ ∧ IsBelow ⟨bs⟩ bits ∧ bits.toNat + 7 < 2 ^ 32
  /-- Anything else is refused. -/
  ofBytes_error_iff (bs : Bytes) : bits.toNat + 7 < 2 ^ 32 →
    (ofBytes bs bits = .ok (.error .invalidChallenge) ↔ ¬ IsBelow ⟨bs⟩ bits)
  /-- A verifier takes the challenges that could have been read. -/
  setChallenge_ok_iff {S T : Type} (v v' : Verifier S T) (c : Challenge) :
    v.role.soundnessBits = bits →
      (v.setChallenge c = .ok (.ok (), v') ↔ v' = { v with challenge := some c } ∧
        c.IsBelow bits ∧ bits.toNat + 7 < 2 ^ 32)
  toNat_exponent (bs : Bytes) : (exponent ⟨bs⟩).toNat = bs.toNat
  /-- Sampling takes `⌈t / 8⌉` bytes off the stream. -/
  random_ok (bs rest : Bytes) : bits.toNat + 7 < 2 ^ 32 → bs.length = (bits.toNat + 7) / 8 →
    ∃ c, random bits (bs ++ rest) = .ok (c, rest) ∧ c.IsBelow bits
  random_exhausted (stream : Bytes) : stream.length < (bits.toNat + 7) / 8 →
    random bits stream = .error .exhausted
  /-- Each number below `2 ^ t` comes from the same number of byte strings. -/
  random_uniform (k : Nat) : bits.toNat + 7 < 2 ^ 32 → k < 2 ^ bits.toNat →
    Bytes.count ((bits.toNat + 7) / 8)
        (fun bs => ∃ c, random bits bs = .ok (c, []) ∧ c.exponent.toNat = k) =
      2 ^ (8 * ((bits.toNat + 7) / 8) - bits.toNat)
  ofTranscript_valid {S : Type} [Transcribed S] (dst : Bytes) (statement : S) (first : Message) :
    bits.toNat + 7 < 2 ^ 32 →
      ∃ c, ofTranscript dst statement first bits = .ok c ∧ c.validate bits = .ok (.ok ())

/-- The challenges are the numbers below `2 ^ t`, and sampling is uniform on them. -/
theorem areExponents (bits : UInt32) : AreExponents bits where
  ofBytes_ok_iff _ _ := ofBytes_eq_ok_iff_isBelow
  ofBytes_error_iff _ h := ofBytes_eq_error_iff h
  setChallenge_ok_iff := by
    rintro S T v v' c rfl
    exact setChallenge_eq_ok_iff
  toNat_exponent := LimbNat.toNat_ofBytes
  random_ok := by
    intro bs rest hbits h
    rw [← toNat_byteCount] at h
    obtain ⟨c, hc⟩ := exists_ofMasked hbits bs
    exact ⟨c, random_of_ofMasked h hc rest,
      ((validate_iff_isBelow _ _).mp (validate_ofMasked h hc)).1⟩
  random_exhausted _ h := random_eq_exhausted (h.trans_eq (toNat_byteCount bits).symm)
  random_uniform := by
    intro k hbits hk
    -- Equally many numbers of that many bytes have each remainder.
    rw [Bytes.count_congr fun bs h =>
      random_exponent_iff hbits (h.trans (toNat_byteCount bits).symm)]
    exact Bytes.count_mod (by omega) hk
  ofTranscript_valid := by
    intro S _ dst statement first hbits
    obtain ⟨c, hc⟩ := exists_ofTranscript hbits dst statement first
    exact ⟨c, hc, validate_ofTranscript hc⟩

end SigmaProtocol.Challenge
