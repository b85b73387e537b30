import SigmaProtocol.Proofs.Limbs
import Mathlib

/-!
# Counting byte strings

A stream is uniform if all byte strings of one length are equally likely, so that a probability is
a number of byte strings. Sampling takes a byte string apart into stretches and cuts binary digits
off the numbers they write; each has its rule here.

* `Bytes.count len P`: how many byte strings of length `len` have the property `P`.
* `Bytes.count_append`: two stretches that are constrained independently multiply.
* `Bytes.count_or`: alternatives that exclude each other add up.
* `Bytes.count_mod`, `Bytes.count_div`: a number of which the last or the first binary digits are
  given leaves the others free.
-/

namespace SigmaProtocol.Bytes

variable {len : Nat} {P Q : Bytes → Prop}

/-- How many byte strings of length `len` have the property `P`. -/
noncomputable def count (len : Nat) (P : Bytes → Prop) : Nat :=
  {bs : Bytes | bs.length = len ∧ P bs}.ncard

theorem finite_counted (len : Nat) (P : Bytes → Prop) :
    {bs : Bytes | bs.length = len ∧ P bs}.Finite :=
  (List.finite_length_eq UInt8 len).subset fun _ h => h.1

/-- Only byte strings of the length in question matter. -/
theorem count_congr (h : ∀ bs : Bytes, bs.length = len → (P bs ↔ Q bs)) :
    count len P = count len Q :=
  congrArg Set.ncard (Set.ext fun bs => and_congr_right (h bs))

theorem count_eq_zero (h : ∀ bs : Bytes, bs.length = len → ¬ P bs) : count len P = 0 := by
  rw [count, Set.ncard_eq_zero (finite_counted len P), Set.eq_empty_iff_forall_notMem]
  exact fun bs hbs => h bs hbs.1 hbs.2

theorem count_pos {bs : Bytes} (hlength : bs.length = len) (h : P bs) : 0 < count len P :=
  (Set.ncard_pos (finite_counted len P)).mpr ⟨bs, hlength, h⟩

/-- Alternatives that exclude each other add up. -/
theorem count_or (h : ∀ bs : Bytes, bs.length = len → P bs → ¬ Q bs) :
    count len (fun bs => P bs ∨ Q bs) = count len P + count len Q := by
  have hunion : {bs : Bytes | bs.length = len ∧ (P bs ∨ Q bs)}
      = {bs | bs.length = len ∧ P bs} ∪ {bs | bs.length = len ∧ Q bs} := by
    ext bs
    exact and_or_left
  have hdisjoint : Disjoint {bs : Bytes | bs.length = len ∧ P bs}
      {bs | bs.length = len ∧ Q bs} :=
    Set.disjoint_left.mpr fun bs hP hQ => h bs hP.1 hP.2 hQ.2
  rw [count, hunion, Set.ncard_union_eq hdisjoint (finite_counted len P) (finite_counted len Q)]
  rfl

/-- Two stretches that are constrained independently multiply. -/
theorem count_append (i j : Nat) (P Q : Bytes → Prop) :
    count (i + j) (fun bs => P (bs.take i) ∧ Q (bs.drop i)) = count i P * count j Q := by
  have hbij : Set.BijOn (fun parts : Bytes × Bytes => parts.1 ++ parts.2)
      ({bs | bs.length = i ∧ P bs} ×ˢ {bs | bs.length = j ∧ Q bs})
      {bs | bs.length = i + j ∧ P (bs.take i) ∧ Q (bs.drop i)} := by
    -- As the length of the first stretch is fixed, a byte string is cut in one way only.
    refine ⟨?_, ?_, ?_⟩
    · rintro ⟨first, last⟩ ⟨⟨hfirst, hP⟩, hlast, hQ⟩
      refine ⟨by rw [List.length_append, hfirst, hlast], ?_⟩
      rw [List.take_left' hfirst, List.drop_left' hfirst]
      exact ⟨hP, hQ⟩
    · rintro ⟨first, last⟩ ⟨⟨hfirst, -⟩, -⟩ ⟨first', last'⟩ ⟨⟨hfirst', -⟩, -⟩ happend
      obtain ⟨rfl, rfl⟩ := List.append_inj happend (hfirst.trans hfirst'.symm)
      rfl
    · rintro bs ⟨hlength, hP, hQ⟩
      exact ⟨(bs.take i, bs.drop i), ⟨⟨by simp [hlength], hP⟩, by simp [hlength], hQ⟩,
        List.take_append_drop i bs⟩
  rw [count, ← hbij.ncard_eq, Set.ncard_prod]
  rfl

/-- Byte strings may be read from either end. -/
theorem count_reverse (len : Nat) (P : Bytes → Prop) :
    count len (fun bs => P bs.reverse) = count len P := by
  have himage : List.reverse '' {bs : Bytes | bs.length = len ∧ P bs.reverse}
      = {bs | bs.length = len ∧ P bs} := by
    ext bs
    rw [List.reverse_involutive.image_eq_preimage_symm]
    simp
  rw [count, ← List.reverse_injective.injOn.ncard_image, himage]
  rfl

/-! ## Numbers -/

/-- The byte strings of one length are the numbers below a power of 256. -/
theorem count_toNat (len : Nat) (p : Nat → Prop) [DecidablePred p] :
    count len (fun bs => p bs.toNat) = (2 ^ (8 * len)).count p := by
  have hpow : 2 ^ (8 * len) = 256 ^ len := pow_mul 2 8 len
  have hbij : Set.BijOn toNat {bs | bs.length = len ∧ p bs.toNat}
      ({v ∈ Finset.range (256 ^ len) | p v} : Finset Nat) := by
    refine ⟨?_, ?_, ?_⟩
    · rintro bs ⟨rfl, hp⟩
      simpa using ⟨toNat_lt bs, hp⟩
    · rintro bs ⟨rfl, -⟩ bs' ⟨hlength, -⟩ htoNat
      exact eq_of_toNat_eq hlength.symm htoNat
    · intro v hv
      obtain ⟨hlt, hp⟩ : v < 256 ^ len ∧ p v := by simpa using hv
      have hvalue : toNat (ofNat len v) = v := by rw [toNat_ofNat, Nat.mod_eq_of_lt hlt]
      exact ⟨ofNat len v, ⟨length_ofNat len v, by rwa [hvalue]⟩, hvalue⟩
  rw [count, hbij.ncard_eq, Set.ncard_coe_finset, hpow, Nat.count_eq_card_filter_range]

/-- The last `n` binary digits are given. -/
theorem count_mod {n k : Nat} (hn : n ≤ 8 * len) (hk : k < 2 ^ n) :
    count len (fun bs => bs.toNat % 2 ^ n = k) = 2 ^ (8 * len - n) := by
  have hpow : 2 ^ (8 * len) = 2 ^ n * 2 ^ (8 * len - n) := by
    rw [← pow_add, Nat.add_sub_cancel' hn]
  have hcount := Nat.count_modEq_card (2 ^ (8 * len)) (Nat.two_pow_pos n) k
  simp only [Nat.ModEq, Nat.mod_eq_of_lt hk] at hcount
  rw [count_toNat len (· % 2 ^ n = k), hcount, hpow,
    Nat.mul_div_cancel_left _ (Nat.two_pow_pos n), Nat.mul_mod_right, if_neg (Nat.not_lt_zero k),
    add_zero]

/-- All but the last `n` binary digits are given. -/
theorem count_div {n q : Nat} (hn : n ≤ 8 * len) (hq : q < 2 ^ (8 * len - n)) :
    count len (fun bs => bs.toNat / 2 ^ n = q) = 2 ^ n := by
  have hpow : 2 ^ (8 * len) = 2 ^ (8 * len - n) * 2 ^ n := by
    rw [← pow_add, Nat.sub_add_cancel hn]
  have hfiber : {v ∈ Finset.range (2 ^ (8 * len)) | v / 2 ^ n = q}
      = Finset.Ico (q * 2 ^ n) ((q + 1) * 2 ^ n) := by
    ext v
    have hend : (q + 1) * 2 ^ n ≤ 2 ^ (8 * len) := hpow ▸ Nat.mul_le_mul_right _ hq
    have hdiv : v / 2 ^ n = q ↔ q * 2 ^ n ≤ v ∧ v < (q + 1) * 2 ^ n := by
      rw [← Nat.le_div_iff_mul_le (Nat.two_pow_pos n),
        ← Nat.div_lt_iff_lt_mul (Nat.two_pow_pos n)]
      omega
    rw [Finset.mem_filter, Finset.mem_range, Finset.mem_Ico, hdiv]
    exact and_iff_right_of_imp fun h => h.2.trans_le hend
  rw [count_toNat len (· / 2 ^ n = q), Nat.count_eq_card_filter_range, hfiber, Nat.card_Ico,
    Nat.succ_mul, Nat.add_sub_cancel_left]

/-- All binary digits are given. -/
theorem count_eq_value {v : Nat} (hv : v < 2 ^ (8 * len)) :
    count len (fun bs => bs.toNat = v) = 1 := by
  simpa using count_div (n := 0) (Nat.zero_le _) hv

end SigmaProtocol.Bytes
