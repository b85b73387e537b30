import SigmaProtocol.Bytes.Range
import SigmaProtocol.Proofs.EncryptedZero.Roles
import SigmaProtocol.Proofs.Run

/-!
# Special soundness of the proof of an encryption of zero

Two answers to different challenges show that some power of the ciphertext is an `N`-th power. The
difference of the challenges is less than each prime factor of `n`, hence coprime to `N`, and so the
ciphertext itself is an `N`-th power.

* `EncryptedZero.encryptsZero_iff`: what an encryption of zero is.
* `EncryptedZero.special_soundness`: what is not an encryption of zero is accepted under at most one
  challenge.
-/

namespace SigmaProtocol.EncryptedZero

open DamgardJurik

/-- The number `c` is congruent to an encryption of zero with a unit. -/
def EncryptsZero (n s c : Nat) : Prop :=
  ∃ r : Nat, r.Coprime n ∧ c ≡ r ^ n ^ s [MOD n ^ (s + 1)]

theorem encryptsZero_iff {n c : Nat} {s : UInt32} (hn : n ≠ 0) :
    EncryptsZero n s.toNat c ↔ ∃ r : Nat, r.Coprime n ∧
      PublicKey.encryptWith ⟨n⟩ 0 r s = .ok ⟨c % n ^ (s.toNat + 1)⟩ := by
  refine exists_congr fun r => and_congr_right fun _ => ?_
  rw [encryptWith_zero hn, Except.ok.injEq, Ciphertext.mk.injEq]
  exact eq_comm

/-! ## Extraction -/

/-- The quotient of the answers has the power `c ^ (e₁ - e₂)`, and as the exponents `n ^ s` and
`e₁ - e₂` are coprime, `c` has a root itself. -/
theorem encryptsZero_of_accepts {n c a z₁ z₂ e₁ e₂ : Nat} {s : UInt32} (hn : 1 < n)
    (hlt : e₂ < e₁) (hcoprime : (e₁ - e₂).Coprime n)
    (h₁ : accepts (moduli n s) c a z₁ e₁ = true) (h₂ : accepts (moduli n s) c a z₂ e₂ = true) :
    EncryptsZero n s.toNat c := by
  rw [accepts_iff] at h₁ h₂
  obtain ⟨-, -, ha, hz₁, hc, heq₁⟩ := h₁
  obtain ⟨-, -, -, hz₂, -, heq₂⟩ := h₂
  have : NeZero (n ^ (s.toNat + 1)) := ⟨(Nat.pow_pos (by omega)).ne'⟩
  let unit {x : Nat} (hx : x.Coprime n) : (ZMod (n ^ (s.toNat + 1)))ˣ :=
    ZMod.unitOfCoprime x (hx.pow_right _)
  -- All numbers of the equation are units, so that it can be divided.
  have hunit {z e : Nat} (hz : z.Coprime n)
      (heq : z ^ n ^ s.toNat ≡ a * c ^ e [MOD n ^ (s.toNat + 1)]) :
      unit hz ^ n ^ s.toNat = unit ha * unit hc ^ e := by
    rw [← ZMod.natCast_eq_natCast_iff] at heq
    ext
    push_cast at heq ⊢
    exact heq
  have hquotient : (unit hz₁ / unit hz₂) ^ n ^ s.toNat = unit hc ^ (e₁ - e₂) := by
    rw [div_pow, hunit hz₁ heq₁, hunit hz₂ heq₂, mul_div_mul_left_eq_div, pow_sub _ hlt.le,
      div_eq_mul_inv]
  obtain ⟨r, hr⟩ := exists_pow_eq_of_coprime (hcoprime.pow_right s.toNat) hquotient
  refine ⟨(r : ZMod (n ^ (s.toNat + 1))).val, ?_, ?_⟩
  · exact (ZMod.val_coe_unit_coprime r).coprime_dvd_right (dvd_pow_self n (Nat.succ_ne_zero _))
  · rw [← ZMod.natCast_eq_natCast_iff, Nat.cast_pow, ZMod.natCast_zmod_val,
      ← Units.val_pow_eq_pow_val, hr]
    rfl

/-! ## Challenges -/

theorem bitLength_mul_le (p q : Nat) : bitLength (p * q) ≤ bitLength p + bitLength q := by
  rw [bitLength_le_iff_lt, pow_add]
  exact Nat.mul_lt_mul'' (lt_two_pow_bitLength p) (lt_two_pow_bitLength q)

/-- The difference of two challenges is coprime to a public key with large prime factors. -/
theorem coprime_of_lt_two_pow {p q t d : Nat} (hp : p.Prime) (hq : q.Prime)
    (hbits : bitLength p = bitLength q) (ht : t < bitLength (p * q) / 3) (hd : 0 < d)
    (hlt : d < 2 ^ t) : d.Coprime (p * q) := by
  have hle := bitLength_mul_le p q
  have htp : 2 ^ t ≤ p := two_pow_le_of_lt_bitLength (by omega)
  have htq : 2 ^ t ≤ q := two_pow_le_of_lt_bitLength (by omega)
  refine Nat.Coprime.mul_right ?_ ?_
  · exact (Nat.coprime_of_lt_prime hd.ne' (hlt.trans_le htp) hp).symm
  · exact (Nat.coprime_of_lt_prime hd.ne' (hlt.trans_le htq) hq).symm

theorem accepts_of_accepts {params : Params} {v : Verifier Statement (Nat × Nat)} {n c : Nat}
    {e : Challenge} {first second : Message} (hv : verifier params = .ok v)
    (h : v.Accepts ⟨⟨n⟩, ⟨c⟩⟩ e first second) :
    1 < n ∧ params.soundnessBits.toNat < bitLength n / 3 ∧
      e.validate params.soundnessBits = .ok (.ok ()) ∧
      ∃ a z, first = .integer a ∧ second = .integer z ∧
        accepts (moduli n params.lengthParameter) c a z e.exponent.toNat = true := by
  rw [verifier_eq_ok hv] at h
  obtain ⟨hstatement, he, ⟨a, z⟩, hcontents, haccepts⟩ := Verifier.accepts_ofRole_iff.mp h
  obtain ⟨_, hcheck⟩ := checkStatement_eq_ok_iff.mp hstatement
  obtain ⟨hn, -, -, hsoundness, -⟩ := check_eq_ok_iff.mp hcheck
  obtain ⟨m, hmoduli, haccepts⟩ := accepts_verifierRole_iff.mp haccepts
  obtain ⟨-, -, -, rfl⟩ := moduli_eq_ok_iff.mp hmoduli
  obtain ⟨rfl, rfl⟩ := contents?_eq_some_iff.mp hcontents
  exact ⟨hn, hsoundness, he, a, z, rfl, rfl, haccepts⟩

/-- **Special soundness.** With a public key of two prime factors of the same size, two proofs with
the same first message that are accepted under different challenges show that the ciphertext
encrypts zero; otherwise a first message is accepted under one challenge at most. -/
theorem special_soundness {params : Params} {p q : Nat} (hp : p.Prime) (hq : q.Prime)
    (hbits : bitLength p = bitLength q) {v : Verifier Statement (Nat × Nat)}
    (hv : verifier params = .ok v) (c : Nat) :
    (∀ {first second₁ second₂ : Message} {e₁ e₂ : Challenge},
      v.Accepts ⟨⟨p * q⟩, ⟨c⟩⟩ e₁ first second₁ → v.Accepts ⟨⟨p * q⟩, ⟨c⟩⟩ e₂ first second₂ →
        e₁ ≠ e₂ → EncryptsZero (p * q) params.lengthParameter.toNat c) ∧
    (¬ EncryptsZero (p * q) params.lengthParameter.toNat c → ∀ first : Message,
      {e : Challenge | ∃ second, v.Accepts ⟨⟨p * q⟩, ⟨c⟩⟩ e first second}.Subsingleton) := by
  have hextract {first second₁ second₂ : Message} {e₁ e₂ : Challenge}
      (h₁ : v.Accepts ⟨⟨p * q⟩, ⟨c⟩⟩ e₁ first second₁)
      (h₂ : v.Accepts ⟨⟨p * q⟩, ⟨c⟩⟩ e₂ first second₂)
      (hlt : e₂.exponent.toNat < e₁.exponent.toNat) :
      EncryptsZero (p * q) params.lengthParameter.toNat c := by
    obtain ⟨hn, hsoundness, he₁, a, z₁, rfl, -, haccepts₁⟩ := accepts_of_accepts hv h₁
    obtain ⟨-, -, -, a', z₂, ha, -, haccepts₂⟩ := accepts_of_accepts hv h₂
    cases ha
    refine encryptsZero_of_accepts hn hlt ?_ haccepts₁ haccepts₂
    exact coprime_of_lt_two_pow hp hq hbits hsoundness (Nat.sub_pos_of_lt hlt)
      ((Nat.sub_le _ _).trans_lt (Challenge.exponent_lt he₁))
  have hsound {first second₁ second₂ : Message} {e₁ e₂ : Challenge}
      (h₁ : v.Accepts ⟨⟨p * q⟩, ⟨c⟩⟩ e₁ first second₁)
      (h₂ : v.Accepts ⟨⟨p * q⟩, ⟨c⟩⟩ e₂ first second₂) (hne : e₁ ≠ e₂) :
      EncryptsZero (p * q) params.lengthParameter.toNat c := by
    obtain ⟨-, -, he₁, -⟩ := accepts_of_accepts hv h₁
    obtain ⟨-, -, he₂, -⟩ := accepts_of_accepts hv h₂
    rcases Nat.lt_trichotomy e₁.exponent.toNat e₂.exponent.toNat with hlt | heq | hlt
    · exact hextract h₂ h₁ hlt
    · exact absurd (Challenge.exponent_inj he₁ he₂ heq) hne
    · exact hextract h₁ h₂ hlt
  refine ⟨hsound, fun hnot first => ?_⟩
  rintro e₁ ⟨second₁, h₁⟩ e₂ ⟨second₂, h₂⟩
  by_contra hne
  exact hnot (hsound h₁ h₂ hne)

/-- Two accepted proofs for the ciphertext `2 ^ 35`. -/
theorem special_soundness_thirtyFive : EncryptsZero (5 * 7) 1 (2 ^ 35 % 35 ^ 2) ∧
    ∃ r : Nat, r.Coprime (5 * 7) ∧
      PublicKey.encryptWith ⟨5 * 7⟩ 0 r 1 = .ok ⟨2 ^ 35 % 35 ^ 2 % (5 * 7) ^ 2⟩ := by
  have hv : verifier ⟨1, 1⟩ = .ok (.ofRole (verifierRole ⟨1, 1⟩)) := rfl
  have haccepts (e : Challenge) (z : Nat) (he : e.validate 1 = .ok (.ok ()))
      (h : (verifierRole ⟨1, 1⟩).accepts ⟨⟨5 * 7⟩, ⟨2 ^ 35 % 35 ^ 2⟩⟩ (3 ^ 35 % 35 ^ 2, z) e
        = .ok (.ok true)) :
      (Verifier.ofRole (verifierRole ⟨1, 1⟩)).Accepts ⟨⟨5 * 7⟩, ⟨2 ^ 35 % 35 ^ 2⟩⟩ e
        (.integer (3 ^ 35 % 35 ^ 2)) (.integer z) :=
    Verifier.accepts_ofRole_iff.mpr ⟨rfl, he, _, rfl, h⟩
  have h₀ := haccepts ⟨[0]⟩ 3 (by decide) (by decide +kernel)
  have h₁ := haccepts ⟨[1]⟩ 6 (by decide) (by decide +kernel)
  have hzero : EncryptsZero (5 * 7) 1 (2 ^ 35 % 35 ^ 2) :=
    (special_soundness (by norm_num) (by norm_num) (by decide) hv _).1 h₀ h₁ (by decide)
  exact ⟨hzero, (encryptsZero_iff (s := 1) (by decide)).mp hzero⟩

end SigmaProtocol.EncryptedZero
