import SigmaProtocol.Bytes.Range

/-!
# Values of bytes and limbs

Byte strings and limbs are two ways to cut a number into digits, and what goes from one to the other
keeps the number.

* `Bytes.toNat_append`: a byte string in two parts.
* `Bytes.ofNat_toNat`, `Bytes.eq_of_toNat_eq`: the number and the length give a byte string back.
* `LimbNat.toNat_ofBytes`, `LimbNat.toNat_toBytes`: bytes and limbs hold the same number.
* `LimbNat.ofBytes_toBytes`: the bytes give back the limbs, leading zero limbs included.
* `LimbNat.toNat_ofNatWithLimbs`: a fixed number of limbs keeps the low binary digits.
-/

namespace SigmaProtocol

/-- A number fits the groups that its binary digits fill. -/
theorem lt_two_pow_groupCount {v m size : Nat} (hsize : 0 < size) (h : bitLength v ≤ m) :
    v < 2 ^ (size * groupCount size m) := by
  have hle : m ≤ size * groupCount size m := by
    have hdiv := Nat.div_add_mod (m + (size - 1)) size
    have hmod := Nat.mod_lt (m + (size - 1)) hsize
    unfold groupCount
    omega
  exact (bitLength_le_iff_lt.mp h).trans_le (Nat.pow_le_pow_right two_pos hle)

namespace Bytes

theorem toNat_append (as bs : Bytes) :
    toNat (as ++ bs) = toNat as * 256 ^ bs.length + toNat bs := by
  induction bs using List.reverseRecOn with
  | nil => simp
  | append_singleton bs b ih =>
    rw [← List.append_assoc, toNat_concat, ih, toNat_concat, List.length_append,
      List.length_singleton, pow_succ]
    ring

theorem toNat_cons (b : UInt8) (bs : Bytes) :
    toNat (b :: bs) = b.toNat * 256 ^ bs.length + toNat bs := by
  rw [← List.singleton_append, toNat_append]
  simp [toNat]

theorem toNat_lt (bs : Bytes) : toNat bs < 256 ^ bs.length := by
  induction bs using List.reverseRecOn with
  | nil => simp
  | append_singleton bs b ih =>
    have hb := b.toNat_lt
    rw [toNat_concat, List.length_append, List.length_singleton, pow_succ]
    omega

theorem toNat_cons_div (b : UInt8) (bs : Bytes) :
    toNat (b :: bs) / 256 ^ bs.length = b.toNat := by
  rw [toNat_cons, Nat.mul_comm, Nat.mul_add_div (by positivity), Nat.div_eq_of_lt (toNat_lt bs),
    add_zero]

theorem toNat_cons_mod (b : UInt8) (bs : Bytes) :
    toNat (b :: bs) % 256 ^ bs.length = toNat bs := by
  rw [toNat_cons, Nat.mul_comm, Nat.mul_add_mod, Nat.mod_eq_of_lt (toNat_lt bs)]

/-- Leading zero bytes come back too, since the length is given. -/
theorem ofNat_toNat (bs : Bytes) : ofNat bs.length (toNat bs) = bs := by
  induction bs using List.reverseRecOn with
  | nil => rfl
  | append_singleton bs b ih =>
    have hb := b.toNat_lt
    have hdiv : (toNat bs * 256 + b.toNat) / 256 = toNat bs := by omega
    have hlast : UInt8.ofNat (toNat bs * 256 + b.toNat) = b := by
      rw [← UInt8.toNat_inj, UInt8.toNat_ofNat']
      omega
    rw [toNat_concat, List.length_append, List.length_singleton, ofNat, hdiv, ih, hlast]

/-- Byte strings of one length are told apart by their numbers. -/
theorem eq_of_toNat_eq {as bs : Bytes} (hlength : as.length = bs.length)
    (h : toNat as = toNat bs) : as = bs := by
  rw [← ofNat_toNat as, hlength, h, ofNat_toNat]

/-- Only zero bytes stand for zero. -/
theorem all_zero_iff (bs : Bytes) : bs.all (· == 0) = true ↔ toNat bs = 0 := by
  induction bs using List.reverseRecOn with
  | nil => simp
  | append_singleton bs b ih =>
    rw [toNat_concat, List.all_append, Bool.and_eq_true, ih]
    simp [← UInt8.toNat_inj]

theorem toNat_replicate_append (count : Nat) (bs : Bytes) :
    toNat (List.replicate count 0 ++ bs) = toNat bs := by
  have hzero : toNat (List.replicate count 0) = 0 := (all_zero_iff _).mp (by simp)
  rw [toNat_append, hzero, Nat.zero_mul, Nat.zero_add]

theorem lt_pow_groupCount {v m : Nat} (h : bitLength v ≤ m) : v < 256 ^ groupCount 8 m := by
  rw [show 256 = 2 ^ 8 from rfl, ← pow_mul]
  exact lt_two_pow_groupCount (by decide) h

theorem toNat_minimal (n : Nat) : toNat (minimal n) = n := by
  have hwidth : groupCount 8 (bitLength n) ≤ max 1 (groupCount 8 (bitLength n)) :=
    Nat.le_max_right ..
  have hfits : n < 256 ^ max 1 (groupCount 8 (bitLength n)) :=
    (lt_pow_groupCount le_rfl).trans_le (Nat.pow_le_pow_right (by decide) hwidth)
  rw [minimal, toNat_ofNat, Nat.mod_eq_of_lt hfits]

end Bytes

namespace LimbNat

theorem valueOf_cons (l : UInt64) (ls : List UInt64) :
    valueOf (l :: ls) = l.toNat + 2 ^ 64 * valueOf ls := rfl

theorem toNat_ofLimbs (ls : List UInt64) : (ofLimbs ls).toNat = valueOf ls := by
  unfold ofLimbs
  split
  · next h => subst h; rfl
  · rfl

/-- Limbs are cut off at the end of the byte string, eight bytes each. -/
theorem valueOf_limbsOfReversed (bs : Bytes) :
    valueOf (limbsOfReversed bs) = Bytes.toNat bs.reverse := by
  fun_induction limbsOfReversed bs with
  | case1 => rfl
  | case2 b bs ih =>
    have hsplit : (b :: bs).reverse = (bs.drop 7).reverse ++ ((b :: bs).take 8).reverse := by
      rw [← List.reverse_append, ← List.drop_succ_cons (a := b), List.take_append_drop]
    have hlow : Bytes.toNat ((b :: bs).take 8).reverse < 2 ^ 64 := by
      refine (Bytes.toNat_lt _).trans_le ?_
      rw [List.length_reverse, List.length_take]
      exact (Nat.pow_le_pow_right (by decide) (Nat.min_le_left 8 _)).trans_eq (by decide)
    rw [hsplit, Bytes.toNat_append, valueOf_cons, ih, UInt64.toNat_ofNat', Nat.mod_eq_of_lt hlow,
      List.length_reverse, List.length_take]
    -- The last limb may have fewer than eight bytes, but then nothing is above it.
    by_cases h : 8 ≤ (b :: bs).length
    · rw [Nat.min_eq_left h]
      ring
    · have hnil : bs.drop 7 = [] := List.drop_eq_nil_of_le (by simp at h; omega)
      simp [hnil]

theorem toNat_ofBytes (bs : Bytes) : (ofBytes bs).toNat = Bytes.toNat bs := by
  rw [ofBytes, toNat_ofLimbs, valueOf_limbsOfReversed, List.reverse_reverse]

theorem toNat_ofNat (n : Nat) : (ofNat n).toNat = n := by
  rw [ofNat, toNat_ofBytes, Bytes.toNat_minimal]

theorem toNat_toBytes (n : LimbNat) : n.toBytes.toNat = n.toNat := by
  unfold toBytes toNat
  induction n.limbs with
  | nil => rfl
  | cons l ls ih =>
    have hl := l.toNat_lt
    rw [List.reverse_cons, List.flatMap_append, Bytes.toNat_append, ih, List.flatMap_singleton,
      Bytes.length_ofNat, Bytes.toNat_ofNat, valueOf_cons, Nat.mod_eq_of_lt (by omega)]
    ring

/-- Eight bytes at a time are a limb. -/
theorem limbsOfReversed_append {chunk : Bytes} (h : chunk.length = 8) (rest : Bytes) :
    limbsOfReversed (chunk ++ rest) =
      UInt64.ofNat (Bytes.toNat chunk.reverse) :: limbsOfReversed rest := by
  obtain _ | ⟨b, bs⟩ := chunk
  · simp at h
  have hbs : bs.length = 7 := by simpa using h
  have htake : (b :: (bs ++ rest)).take 8 = b :: bs := by
    rw [List.take_succ_cons, ← hbs, List.take_left]
  have hdrop : (bs ++ rest).drop 7 = rest := by rw [← hbs, List.drop_left]
  rw [List.cons_append, limbsOfReversed, htake, hdrop]

theorem ofBytes_toBytes (n : LimbNat) : ofBytes n.toBytes = n := by
  have hlimbs (ls : List UInt64) :
      limbsOfReversed (ls.reverse.flatMap fun l => Bytes.ofNat 8 l.toNat).reverse = ls := by
    induction ls with
    | nil => simp [limbsOfReversed]
    | cons l ls ih =>
      have hl := l.toNat_lt
      rw [List.reverse_cons, List.flatMap_append, List.reverse_append, List.flatMap_singleton,
        limbsOfReversed_append (by simp), List.reverse_reverse, Bytes.toNat_ofNat,
        Nat.mod_eq_of_lt (by omega), UInt64.ofNat_toNat, ih]
  rw [ofBytes, toBytes, hlimbs, ofLimbs, dif_neg n.limbs_ne_nil]

/-- A fixed number of limbs keeps the low binary digits. -/
theorem toNat_ofNatWithLimbs (count n : Nat) :
    (ofNatWithLimbs count n).toNat = n % 2 ^ (64 * count) := by
  rw [ofNatWithLimbs, toNat_ofLimbs]
  induction count generalizing n with
  | zero => simp [valueOf, Nat.mod_one]
  | succ count ih =>
    -- The upper limbs of `n` are the limbs of `n >>> 64`.
    have hshift (i : Nat) : n >>> (64 * (i + 1)) = (n >>> 64) >>> (64 * i) := by
      rw [← Nat.shiftRight_add]
      congr 1
      omega
    have hmod : n % 2 ^ (64 * (count + 1))
        = n % 2 ^ 64 + 2 ^ 64 * (n / 2 ^ 64 % 2 ^ (64 * count)) := by
      rw [Nat.mul_succ, Nat.add_comm, pow_add, Nat.mod_mul]
    rw [List.range_succ_eq_map, List.map_cons, List.map_map, valueOf_cons, hmod,
      ← Nat.shiftRight_eq_div_pow, ← ih]
    simp only [Function.comp_def, Nat.succ_eq_add_one, hshift, UInt64.toNat_ofNat']
    simp

end LimbNat

end SigmaProtocol
