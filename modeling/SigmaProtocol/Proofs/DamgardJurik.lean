import SigmaProtocol.DamgardJurik
import SigmaProtocol.Proofs.Modular.Units

/-!
# What an encryption determines

Messages count modulo `n ^ s`, because `n ^ s` is a multiple of the order of `n + 1`, and the
randomness counts modulo `n`, because congruences lift along the power to `n ^ s`. So the product of
two encryptions is an encryption of the sum. Conversely an encryption determines both residues, if
`n` is odd and coprime to the number of units modulo `n`. Then each unit modulo `n ^ (s + 1)` is an
encryption, because there are as many of them as pairs of a message and a randomness.

* `DamgardJurik.encryptWith_eq`: what an encryption computes.
* `DamgardJurik.encryptWith_add`: encryption is homomorphic.
* `DamgardJurik.encryptWith_bijOn`: each unit is decrypted in exactly one way.
-/

namespace SigmaProtocol.DamgardJurik

open PublicKey

variable {n s : Nat}

/-- The residue that the message `x.1` is encrypted to with the randomness `x.2`. -/
def residue (n s : Nat) (x : Nat × Nat) : Nat := (n + 1) ^ x.1 * x.2 ^ n ^ s % n ^ (s + 1)

theorem residue_eq_of_modEq {m₁ m₂ r₁ r₂ : Nat} (hm : m₁ ≡ m₂ [MOD n ^ s]) (hr : r₁ ≡ r₂ [MOD n]) :
    residue n s (m₁, r₁) = residue n s (m₂, r₂) :=
  mul_pow_modEq_of_modEq hm hr

/-- That the message is reduced before the power is taken does not show. -/
theorem encryptWith_eq (hn : n ≠ 0) (m r : Nat) (s : UInt32) :
    encryptWith ⟨n⟩ m r s = .ok ⟨residue n s.toNat (m, r)⟩ := by
  have hreduced : residue n s.toNat (m % n ^ s.toNat, r) = residue n s.toNat (m, r) :=
    residue_eq_of_modEq (Nat.mod_modEq _ _) rfl
  simp only [encryptWith, plaintextModulus, hn, if_false, powMod_eq, ← Nat.mul_mod, ← hreduced]
  rfl

/-! ## Homomorphism -/

theorem residue_add (n s m₁ r₁ m₂ r₂ : Nat) : residue n s (m₁ + m₂, r₁ * r₂) =
    residue n s (m₁, r₁) * residue n s (m₂, r₂) % n ^ (s + 1) := by
  rw [residue, residue, residue, ← Nat.mul_mod]
  congr 1
  ring

/-- **Homomorphism.** The product of two encryptions encrypts the sum of the messages, and an
encryption depends on the residues of the message and of the randomness alone. -/
theorem encryptWith_add (hn : n ≠ 0) (s : UInt32) :
    (∀ m₁ r₁ m₂ r₂ : Nat, ∃ c₁ c₂ : Nat, encryptWith ⟨n⟩ m₁ r₁ s = .ok ⟨c₁⟩ ∧
        encryptWith ⟨n⟩ m₂ r₂ s = .ok ⟨c₂⟩ ∧
        encryptWith ⟨n⟩ (m₁ + m₂) (r₁ * r₂) s = .ok ⟨c₁ * c₂ % n ^ (s.toNat + 1)⟩) ∧
      ∀ {m₁ r₁ m₂ r₂ : Nat}, m₁ ≡ m₂ [MOD n ^ s.toNat] → r₁ ≡ r₂ [MOD n] →
        encryptWith ⟨n⟩ m₁ r₁ s = encryptWith ⟨n⟩ m₂ r₂ s := by
  refine ⟨fun m₁ r₁ m₂ r₂ => ?_, fun hm hr => ?_⟩
  · refine ⟨_, _, encryptWith_eq hn m₁ r₁ s, encryptWith_eq hn m₂ r₂ s, ?_⟩
    rw [encryptWith_eq hn, residue_add]
  · rw [encryptWith_eq hn, encryptWith_eq hn, residue_eq_of_modEq hm hr]

/-- The sum of the messages wraps around, and the randomness shares a factor with the key. -/
theorem encryptWith_add_six :
    (∃ c₁ c₂ : Nat, encryptWith ⟨6⟩ 20 4 2 = .ok ⟨c₁⟩ ∧ encryptWith ⟨6⟩ 30 10 2 = .ok ⟨c₂⟩ ∧
      encryptWith ⟨6⟩ 50 40 2 = .ok ⟨c₁ * c₂ % 6 ^ 3⟩) ∧
      encryptWith ⟨6⟩ 50 40 2 = encryptWith ⟨6⟩ 14 4 2 := by
  obtain ⟨hadd, hresidue⟩ := encryptWith_add (n := 6) (by decide) 2
  exact ⟨hadd 20 4 30 10, hresidue (by decide) (by decide)⟩

/-! ## Unique decryption -/

theorem mapsTo_residue (hn : n ≠ 0) (s : Nat) :
    Set.MapsTo (residue n s) {x | x.1 < n ^ s ∧ x.2 < n ∧ x.2.Coprime n}
      {c | c < n ^ (s + 1) ∧ c.Coprime n} := by
  rintro ⟨m, r⟩ ⟨-, -, hr⟩
  refine ⟨Nat.mod_lt _ (Nat.pow_pos (Nat.pos_of_ne_zero hn)), ?_⟩
  rw [residue, coprime_mod_iff (dvd_pow_self n (Nat.succ_ne_zero s))]
  exact (coprime_add_one_pow n m).mul_left (hr.pow_left _)

/-- It determines the message and the randomness, since both are below their moduli. -/
theorem injOn_residue (hodd : n % 2 = 1) (hcoprime : n.Coprime n.totient) (s : Nat) :
    Set.InjOn (residue n s) {x | x.1 < n ^ s ∧ x.2 < n ∧ x.2.Coprime n} := by
  rintro ⟨m₁, r₁⟩ ⟨hm₁, hr₁, hunit₁⟩ ⟨m₂, r₂⟩ ⟨hm₂, hr₂, hunit₂⟩ h
  obtain ⟨hm, hr⟩ := (mul_pow_modEq_iff hodd hcoprime hunit₁ hunit₂).mp h
  exact Prod.ext (hm.eq_of_lt_of_lt hm₁ hm₂) (hr.eq_of_lt_of_lt hr₁ hr₂)

/-- An injection between finite sets of the same size is onto. -/
theorem surjOn_residue (hodd : n % 2 = 1) (hcoprime : n.Coprime n.totient) (s : Nat) :
    Set.SurjOn (residue n s) {x | x.1 < n ^ s ∧ x.2 < n ∧ x.2.Coprime n}
      {c | c < n ^ (s + 1) ∧ c.Coprime n} := by
  have hinputs : {x : Nat × Nat | x.1 < n ^ s ∧ x.2 < n ∧ x.2.Coprime n} =
      (Finset.range (n ^ s) ×ˢ units n n : Finset (Nat × Nat)) := by
    ext x
    simp [mem_units_iff]
  have houtputs : {c : Nat | c < n ^ (s + 1) ∧ c.Coprime n} = units n (n ^ (s + 1)) := by
    ext c
    simp [mem_units_iff]
  have hmaps := mapsTo_residue (n := n) (by omega) s
  have hinj := injOn_residue hodd hcoprime s
  rw [hinputs] at hinj
  rw [hinputs, houtputs] at hmaps ⊢
  refine Finset.surjOn_of_injOn_of_card_le _ hmaps hinj ?_
  rw [card_units_pow, Finset.card_product, Finset.card_range]
  exact le_rfl

/-- **Unique decryption.** Each unit modulo `n ^ (s + 1)` encrypts exactly one message below `n ^ s`
with exactly one unit below `n` as the randomness. Any two encryptions with units are equal exactly
if the residues of the messages and of the randomness are. -/
theorem encryptWith_bijOn (hodd : n % 2 = 1) (hcoprime : n.Coprime n.totient) (s : UInt32) :
    Set.BijOn (fun x : Nat × Nat => encryptWith ⟨n⟩ x.1 x.2 s)
        {x | x.1 < n ^ s.toNat ∧ x.2 < n ∧ x.2.Coprime n}
        {y | ∃ c < n ^ (s.toNat + 1), c.Coprime n ∧ y = .ok ⟨c⟩} ∧
      ∀ {m₁ r₁ m₂ r₂ : Nat}, r₁.Coprime n → r₂.Coprime n →
        (encryptWith ⟨n⟩ m₁ r₁ s = encryptWith ⟨n⟩ m₂ r₂ s ↔
          m₁ ≡ m₂ [MOD n ^ s.toNat] ∧ r₁ ≡ r₂ [MOD n]) := by
  have heq (x : Nat × Nat) : encryptWith ⟨n⟩ x.1 x.2 s = .ok ⟨residue n s.toNat x⟩ :=
    encryptWith_eq (by omega) x.1 x.2 s
  have hiff {x y : Nat × Nat} : encryptWith ⟨n⟩ x.1 x.2 s = encryptWith ⟨n⟩ y.1 y.2 s ↔
      residue n s.toNat x = residue n s.toNat y := by
    rw [heq, heq, Except.ok.injEq, Ciphertext.mk.injEq]
  refine ⟨⟨?_, ?_, ?_⟩, fun {m₁ r₁ m₂ r₂} hr₁ hr₂ => ?_⟩
  · intro x hx
    obtain ⟨hlt, hunit⟩ := mapsTo_residue (by omega) s.toNat hx
    exact ⟨_, hlt, hunit, heq x⟩
  · intro x hx y hy h
    exact injOn_residue hodd hcoprime s.toNat hx hy (hiff.mp h)
  · rintro _ ⟨c, hlt, hunit, rfl⟩
    obtain ⟨x, hx, rfl⟩ := surjOn_residue hodd hcoprime s.toNat ⟨hlt, hunit⟩
    exact ⟨x, hx, heq x⟩
  · exact (hiff (x := (m₁, r₁)) (y := (m₂, r₂))).trans (mul_pow_modEq_iff hodd hcoprime hr₁ hr₂)

theorem encryptWith_bijOn_fifteen :
    (∃ m < 15 ^ 2, ∃ r < 15, r.Coprime 15 ∧ encryptWith ⟨15⟩ m r 2 = .ok ⟨3374⟩) ∧
      encryptWith ⟨15⟩ 226 17 2 = encryptWith ⟨15⟩ 1 2 2 ∧
      encryptWith ⟨15⟩ 16 2 2 ≠ encryptWith ⟨15⟩ 1 2 2 := by
  have hcoprime : Nat.Coprime 15 (Nat.totient 15) := by decide
  obtain ⟨hbij, hiff⟩ := encryptWith_bijOn (n := 15) (by decide) hcoprime 2
  refine ⟨?_, (hiff (by decide) (by decide)).mpr ⟨by decide, by decide⟩, fun h => ?_⟩
  · obtain ⟨⟨m, r⟩, ⟨hm, hr, hunit⟩, h⟩ := hbij.surjOn ⟨3374, by decide, by decide, rfl⟩
    exact ⟨m, hm, r, hr, hunit, h⟩
  · obtain ⟨hm, -⟩ := (hiff (by decide) (by decide)).mp h
    exact absurd hm (by decide)

end SigmaProtocol.DamgardJurik
