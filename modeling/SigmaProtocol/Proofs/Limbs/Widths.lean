import SigmaProtocol.Proofs.Limbs

/-!
# Conversions and reductions lose nothing

A byte string is held in as many limbs as its bytes fill, and written out it is filled up with zero
bytes to whole limbs. A reduction brings the number and the modulus to the wider of their two
widths, where both keep their values. The remainder is below the modulus, so that the limbs that are
cut off behind the division are zero.

* `LimbNat.toBytes_ofBytes`: what becomes of a byte string that is held in limbs.
* `OddModulus.toNat_reduce`, `OddModulus.exists_reduce`: the value of a reduction.
* `LimbNat.losesNothing`: the conversions and the reduction together.
-/

namespace SigmaProtocol

namespace LimbNat

/-! ## Bytes -/

theorem length_limbsOfReversed (bs : Bytes) :
    (limbsOfReversed bs).length = (bs.length + 7) / 8 := by
  fun_induction limbsOfReversed bs with
  | case1 => rfl
  | case2 b bs ih =>
    rw [List.length_cons, ih, List.length_drop, List.length_cons]
    omega

theorem length_ofBytes (bs : Bytes) : (ofBytes bs).limbs.length = max 1 ((bs.length + 7) / 8) := by
  rw [ofBytes, length_ofLimbs, length_limbsOfReversed, List.length_reverse]

theorem length_ofNat (n : Nat) : (ofNat n).limbs.length = max 1 ((bitLength n + 63) / 64) := by
  rw [ofNat, length_ofBytes, Bytes.minimal, Bytes.length_ofNat, groupCount]
  omega

theorem length_toBytes (n : LimbNat) : n.toBytes.length = 8 * n.limbs.length := by
  simp [toBytes, List.length_flatMap, Nat.mul_comm]

/-- The limbs are filled up with zero bytes. -/
theorem toBytes_ofBytes (bs : Bytes) :
    (ofBytes bs).toBytes =
      List.replicate (8 * (ofBytes bs).limbs.length - bs.length) 0 ++ bs := by
  refine Bytes.eq_of_toNat_eq ?_ ?_
  · rw [length_toBytes, List.length_append, List.length_replicate, length_ofBytes]
    omega
  · rw [toNat_toBytes, toNat_ofBytes, Bytes.toNat_replicate_append]

/-! ## Widths -/

theorem valueOf_append (as bs : List UInt64) :
    valueOf (as ++ bs) = valueOf as + 2 ^ (64 * as.length) * valueOf bs := by
  induction as with
  | nil => simp [valueOf]
  | cons a as ih =>
    rw [List.cons_append, valueOf_cons, valueOf_cons, ih, List.length_cons, Nat.mul_succ, pow_add]
    ring

theorem toNat_widen (n : LimbNat) (count : Nat) (h : n.limbs.length ≤ count) :
    (n.widen count h).toNat = n.toNat := by
  have hzero (k : Nat) : valueOf (List.replicate k 0) = 0 := by
    induction k with
    | zero => rfl
    | succ k ih => rw [List.replicate_succ, valueOf_cons, ih]; rfl
  simp only [toNat, widen, valueOf_append, hzero, Nat.mul_zero, Nat.add_zero]

/-- Nothing is cut off a number that fits. -/
theorem toNat_shorten {n : LimbNat} {count : Nat} (h : 0 < count ∧ count ≤ n.limbs.length)
    (hfits : n.toNat < 2 ^ (64 * count)) : (n.shorten count h).toNat = n.toNat := by
  have hsplit := valueOf_append (n.limbs.take count) (n.limbs.drop count)
  rw [List.take_append_drop, List.length_take, Nat.min_eq_left h.2] at hsplit
  have hmod : n.toNat % 2 ^ (64 * count) = valueOf (n.limbs.take count) := by
    have hlow := valueOf_lt (n.limbs.take count)
    rw [List.length_take, Nat.min_eq_left h.2] at hlow
    rw [toNat, hsplit, Nat.add_mul_mod_self_left, Nat.mod_eq_of_lt hlow]
  exact hmod.symm.trans (Nat.mod_eq_of_lt hfits)

/-- A remainder fits the width of the number that was divided. -/
theorem toNat_rem (n d : LimbNat) : (n.rem d).toNat = n.toNat % d.toNat := by
  rw [rem, toNat_ofNatWithLimbs]
  exact Nat.mod_eq_of_lt ((Nat.mod_le _ _).trans_lt n.toNat_lt)

end LimbNat

/-! ## Reduction -/

namespace OddModulus

theorem ofNat?_eq_some_iff {m : Nat} {modulus : OddModulus} :
    ofNat? m = some modulus ↔ m % 2 = 1 ∧ modulus.value = .ofNat m := by
  obtain ⟨value, hvalue⟩ := modulus
  unfold ofNat?
  split
  · next h =>
    rw [LimbNat.toNat_ofNat] at h
    simp [h, eq_comm]
  · next h =>
    rw [LimbNat.toNat_ofNat] at h
    simp [h]

theorem toNat_reduce (m : OddModulus) (n : LimbNat) :
    (m.reduce n).toNat = n.toNat % m.value.toNat := by
  have hpos : 0 < m.value.toNat := by
    have := m.odd
    omega
  have hrem (count : Nat) (hn : n.limbs.length ≤ count) (hm : m.value.limbs.length ≤ count) :
      ((n.widen count hn).rem (m.value.widen count hm)).toNat = n.toNat % m.value.toNat := by
    rw [LimbNat.toNat_rem, LimbNat.toNat_widen, LimbNat.toNat_widen]
  have hfits : n.toNat % m.value.toNat < 2 ^ (64 * m.value.limbs.length) :=
    (Nat.mod_lt _ hpos).trans m.value.toNat_lt
  rw [reduce, LimbNat.toNat_shorten _ (by rw [hrem]; exact hfits), hrem]

theorem length_reduce (m : OddModulus) (n : LimbNat) :
    (m.reduce n).limbs.length = m.value.limbs.length := by
  rw [reduce, LimbNat.length_shorten]

/-- What is written as a remainder can be had by a reduction. -/
theorem exists_reduce {m : Nat} (hodd : m % 2 = 1) (x : LimbNat) :
    ∃ modulus, ofNat? m = some modulus ∧ x.toNat % m = (modulus.reduce x).toNat := by
  have hvalue : (LimbNat.ofNat m).toNat % 2 = 1 := by rwa [LimbNat.toNat_ofNat]
  refine ⟨⟨.ofNat m, hvalue⟩, ofNat?_eq_some_iff.mpr ⟨hodd, rfl⟩, ?_⟩
  rw [toNat_reduce, LimbNat.toNat_ofNat]

end OddModulus

/-! ## All conversions together -/

namespace LimbNat

/-- What is kept on the way between byte strings, limbs and numbers, and by a reduction. -/
structure LosesNothing : Prop where
  /-- A byte string is held as the number it writes, in the limbs that its bytes fill. -/
  ofBytes_holds (bs : Bytes) : (ofBytes bs).toNat = bs.toNat ∧
    (ofBytes bs).limbs.length = max 1 ((bs.length + 7) / 8)
  /-- Written out it has zero bytes in front, up to whole limbs. -/
  ofBytes_written (bs : Bytes) : (ofBytes bs).toBytes =
    List.replicate (8 * max 1 ((bs.length + 7) / 8) - bs.length) 0 ++ bs
  /-- Limbs that are written out are read back, zero limbs at the top included. -/
  limbs_kept (n : LimbNat) : n.toBytes.toNat = n.toNat ∧ ofBytes n.toBytes = n
  /-- A number is held, and written, in the fewest limbs. -/
  ofNat_holds (v : Nat) : (ofNat v).toNat = v ∧ (ofNat v).toBytes.toNat = v ∧
    (ofNat v).limbs.length = max 1 ((bitLength v + 63) / 64)
  /-- Exactly the odd numbers are moduli. -/
  modulus_iff (m : Nat) : (∃ modulus, OddModulus.ofNat? m = some modulus) ↔ m % 2 = 1
  /-- A reduction gives the residue, in the width of the modulus. -/
  reduce_holds {m : Nat} {modulus : OddModulus} (x : LimbNat) :
    OddModulus.ofNat? m = some modulus → (modulus.reduce x).toNat = x.toNat % m ∧
      (modulus.reduce x).limbs.length = (ofNat m).limbs.length

/-- **Nothing is lost** between byte strings, limbs and numbers, and a reduction computes the
residue whatever the width of the number. -/
theorem losesNothing : LosesNothing where
  ofBytes_holds bs := ⟨toNat_ofBytes bs, length_ofBytes bs⟩
  ofBytes_written bs := by rw [toBytes_ofBytes, length_ofBytes]
  limbs_kept n := ⟨toNat_toBytes n, ofBytes_toBytes n⟩
  ofNat_holds v := by
    refine ⟨toNat_ofNat v, ?_, length_ofNat v⟩
    rw [toNat_toBytes, toNat_ofNat]
  modulus_iff m := by
    constructor
    · rintro ⟨modulus, h⟩
      exact (OddModulus.ofNat?_eq_some_iff.mp h).1
    · intro hodd
      obtain ⟨modulus, h, -⟩ := OddModulus.exists_reduce hodd (ofNat m)
      exact ⟨modulus, h⟩
  reduce_holds := by
    intro m modulus x h
    have hvalue := (OddModulus.ofNat?_eq_some_iff.mp h).2
    rw [OddModulus.toNat_reduce, OddModulus.length_reduce, hvalue, toNat_ofNat]
    exact ⟨rfl, rfl⟩

end LimbNat

end SigmaProtocol
