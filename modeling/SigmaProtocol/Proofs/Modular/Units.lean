import SigmaProtocol.Proofs.Modular

/-!
# Units modulo the powers of a number

Two kinds of units are used modulo `n ^ (s + 1)`: the powers of `n + 1`, which are `1` modulo `n`,
and the `n ^ s`-th powers, which depend on their bases modulo `n` alone. A product of one of each
kind determines the two, if `n` is odd and coprime to the number of units modulo `n`.

* `add_one_pow_modEq_pow`: the exponents of `n + 1` count modulo `n ^ s`, whatever `n` is.
* `dvd_of_add_one_pow_modEq_one`: the order of `n + 1` is no smaller, if `n` is odd.
* `modEq_of_pow_pow`: an `n ^ s`-th power determines its base modulo `n`.
* `mul_pow_modEq_iff`: a product determines its factors.
* `card_units_pow`: how many units there are.
-/

namespace SigmaProtocol

variable {n s : Nat}

/-! ## Powers of `n + 1` -/

theorem add_one_modEq_one (n : Nat) : n + 1 ≡ 1 [MOD n] := by
  simp [Nat.ModEq]

/-- The order of `n + 1` divides `n ^ s`. -/
theorem add_one_pow_pow_modEq_one (n s : Nat) : (n + 1) ^ n ^ s ≡ 1 [MOD n ^ (s + 1)] := by
  simpa using modEq_pow_pow (add_one_modEq_one n) s

theorem add_one_pow_modEq_pow {a b : Nat} (h : a ≡ b [MOD n ^ s]) :
    (n + 1) ^ a ≡ (n + 1) ^ b [MOD n ^ (s + 1)] := by
  have horder := (ZMod.natCast_eq_natCast_iff _ _ _).mpr (add_one_pow_pow_modEq_one n s)
  rw [Nat.cast_pow, Nat.cast_one] at horder
  rw [← ZMod.natCast_eq_natCast_iff, Nat.cast_pow, Nat.cast_pow]
  exact pow_eq_pow_of_modEq h horder

/-- Each prime factor of an odd `n` divides `(n + 1) ^ k - 1` as often as it divides `n * k`. -/
theorem factorization_add_one_pow_sub_one {k p : Nat} (hodd : n % 2 = 1) (hk : k ≠ 0)
    (hp : p.Prime) (hdvd : p ∣ n) :
    ((n + 1) ^ k - 1).factorization p = n.factorization p + k.factorization p := by
  have : Fact p.Prime := ⟨hp⟩
  have hp2 : Odd p := Odd.of_dvd_nat (Nat.odd_iff.mpr hodd) hdvd
  have hnot : ¬ p ∣ n + 1 := by
    rw [Nat.dvd_add_right hdvd]
    exact hp.not_dvd_one
  have hlt : 1 < n + 1 := by omega
  have hlift := padicValNat.pow_sub_pow hp2 hlt hdvd hnot hk
  simpa [Nat.factorization_def _ hp] using hlift

/-- The order of `n + 1` is no smaller than `n ^ s`, if `n` is odd. -/
theorem dvd_of_add_one_pow_modEq_one {k : Nat} (hodd : n % 2 = 1)
    (h : (n + 1) ^ k ≡ 1 [MOD n ^ (s + 1)]) : n ^ s ∣ k := by
  by_cases hk : k = 0
  · simp [hk]
  have hn : n ≠ 0 := by omega
  have hlt : 1 < (n + 1) ^ k := Nat.one_lt_pow hk (by omega)
  have hdvd : n ^ (s + 1) ∣ (n + 1) ^ k - 1 := (Nat.modEq_iff_dvd' hlt.le).mp h.symm
  -- A divisor is found prime by prime; only the prime factors of `n` count.
  rw [← Nat.factorization_prime_le_iff_dvd (pow_ne_zero s hn) hk]
  intro p hp
  by_cases hpn : p ∣ n
  · have hle := (Nat.factorization_le_iff_dvd (pow_ne_zero _ hn) (by omega)).mpr hdvd p
    rw [factorization_add_one_pow_sub_one hodd hk hp hpn] at hle
    simp only [Nat.factorization_pow, Finsupp.smul_apply, smul_eq_mul, add_mul, one_mul] at hle ⊢
    omega
  · simp [Nat.factorization_eq_zero_of_not_dvd hpn]

theorem coprime_add_one_pow (n a : Nat) : ((n + 1) ^ a).Coprime n := by
  refine Nat.Coprime.pow_left a ?_
  simp

theorem modEq_of_add_one_pow_modEq {a b : Nat} (hodd : n % 2 = 1)
    (h : (n + 1) ^ a ≡ (n + 1) ^ b [MOD n ^ (s + 1)]) : a ≡ b [MOD n ^ s] := by
  wlog hle : a ≤ b generalizing a b
  · exact (this h.symm (by omega)).symm
  obtain ⟨d, rfl⟩ := Nat.exists_eq_add_of_le hle
  have hd : (n + 1) ^ d ≡ 1 [MOD n ^ (s + 1)] := by
    refine Nat.ModEq.cancel_left_of_coprime ((coprime_add_one_pow n a).symm.pow_left _) ?_
    rw [← pow_add, mul_one]
    exact h.symm
  have hdvd := Nat.modEq_zero_iff_dvd.mpr (dvd_of_add_one_pow_modEq_one hodd hd)
  simpa using (hdvd.add_left a).symm

/-! ## Powers to `n ^ s` -/

/-- A power to an exponent that is coprime to the number of units determines its base. -/
theorem modEq_of_pow_modEq {k x y : Nat} (hn : n ≠ 0) (hcoprime : n.totient.Coprime k)
    (hx : x.Coprime n) (hy : y.Coprime n) (h : x ^ k ≡ y ^ k [MOD n]) : x ≡ y [MOD n] := by
  have : NeZero n := ⟨hn⟩
  have hcard : (Nat.card (ZMod n)ˣ).Coprime k := by
    rwa [Nat.card_eq_fintype_card, ZMod.card_units_eq_totient]
  have hpow : ZMod.unitOfCoprime x hx ^ k = ZMod.unitOfCoprime y hy ^ k := by
    ext
    have h := (ZMod.natCast_eq_natCast_iff _ _ _).mpr h
    push_cast at h ⊢
    exact h
  have hunit := congrArg Units.val ((Nat.Coprime.pow_left_bijective hcard).injective hpow)
  exact (ZMod.natCast_eq_natCast_iff _ _ _).mp hunit

theorem modEq_of_pow_pow {x y : Nat} (hn : n ≠ 0) (hcoprime : n.Coprime n.totient)
    (hx : x.Coprime n) (hy : y.Coprime n) (h : x ^ n ^ s ≡ y ^ n ^ s [MOD n]) : x ≡ y [MOD n] :=
  modEq_of_pow_modEq hn (hcoprime.symm.pow_right s) hx hy h

/-! ## Products -/

theorem mul_pow_modEq_of_modEq {m₁ m₂ r₁ r₂ : Nat} (hm : m₁ ≡ m₂ [MOD n ^ s])
    (hr : r₁ ≡ r₂ [MOD n]) :
    (n + 1) ^ m₁ * r₁ ^ n ^ s ≡ (n + 1) ^ m₂ * r₂ ^ n ^ s [MOD n ^ (s + 1)] :=
  (add_one_pow_modEq_pow hm).mul (modEq_pow_pow hr s)

/-- A product determines its factors. -/
theorem mul_pow_modEq_iff {m₁ m₂ r₁ r₂ : Nat} (hodd : n % 2 = 1) (hcoprime : n.Coprime n.totient)
    (hr₁ : r₁.Coprime n) (hr₂ : r₂.Coprime n) :
    (n + 1) ^ m₁ * r₁ ^ n ^ s ≡ (n + 1) ^ m₂ * r₂ ^ n ^ s [MOD n ^ (s + 1)] ↔
      m₁ ≡ m₂ [MOD n ^ s] ∧ r₁ ≡ r₂ [MOD n] := by
  refine ⟨fun h => ?_, fun ⟨hm, hr⟩ => mul_pow_modEq_of_modEq hm hr⟩
  have hone (m : Nat) : (n + 1) ^ m ≡ 1 [MOD n] := by
    simpa using (add_one_modEq_one n).pow m
  -- Modulo `n` the powers of `n + 1` vanish.
  have hpow : r₁ ^ n ^ s ≡ r₂ ^ n ^ s [MOD n] := by
    calc r₁ ^ n ^ s
        = 1 * r₁ ^ n ^ s := (one_mul _).symm
      _ ≡ (n + 1) ^ m₁ * r₁ ^ n ^ s [MOD n] := (hone m₁).symm.mul_right _
      _ ≡ (n + 1) ^ m₂ * r₂ ^ n ^ s [MOD n] := h.of_dvd (dvd_pow_self n (Nat.succ_ne_zero s))
      _ ≡ 1 * r₂ ^ n ^ s [MOD n] := (hone m₂).mul_right _
      _ = r₂ ^ n ^ s := one_mul _
  have hr : r₁ ≡ r₂ [MOD n] := modEq_of_pow_pow (by omega) hcoprime hr₁ hr₂ hpow
  refine ⟨modEq_of_add_one_pow_modEq hodd ?_, hr⟩
  have hunit : (n ^ (s + 1)).Coprime (r₂ ^ n ^ s) := ((hr₂.pow_left _).pow_right _).symm
  -- The `n ^ s`-th powers agree modulo `n ^ (s + 1)` as well, and cancel.
  refine Nat.ModEq.cancel_right_of_coprime hunit (.trans ?_ h)
  exact (modEq_pow_pow hr s).symm.mul_left _

/-- The residues modulo `m` that have no factor in common with `n`. -/
def units (n m : Nat) : Finset Nat := {c ∈ Finset.range m | n.Coprime c}

theorem mem_units_iff {m c : Nat} : c ∈ units n m ↔ c < m ∧ c.Coprime n := by
  rw [units, Finset.mem_filter, Finset.mem_range, Nat.coprime_comm]

/-- All prime factors of the power are those of `n`. -/
theorem totient_pow_succ (n s : Nat) : (n ^ (s + 1)).totient = n ^ s * n.totient := by
  by_cases hn : n = 0
  · simp [hn]
  induction s with
  | zero => simp
  | succ s ih =>
    have hgcd : n.gcd (n ^ (s + 1)) = n := Nat.gcd_eq_left (dvd_pow_self n (Nat.succ_ne_zero s))
    have hmul := Nat.totient_gcd_mul_totient_mul n (n ^ (s + 1))
    rw [hgcd, ← pow_succ', ih, mul_assoc] at hmul
    rw [Nat.eq_of_mul_eq_mul_left (Nat.totient_pos.mpr (Nat.pos_of_ne_zero hn)) hmul]
    ring

theorem card_units_pow (n s : Nat) : (units n (n ^ (s + 1))).card = n ^ s * n.totient := by
  rw [← totient_pow_succ, Nat.totient, units]
  congr 1
  refine Finset.filter_congr fun c _ => ?_
  rw [Nat.coprime_pow_left_iff (Nat.succ_pos s)]

end SigmaProtocol
