import SigmaProtocol.Modular
import Mathlib

/-!
# Residues as elements of `ZMod m`

A power is computed from the one with half the exponent. Euclid's algorithm keeps two facts: its
remainders are multiples of the argument with known factors, and their greatest common divisor does
not change.

* `powMod_eq`: square-and-multiply computes the power modulo `m`.
* `natCast_inverse?`: what is found is an inverse.
* `inverse?_isSome_iff`: an inverse is found exactly for the numbers that are coprime to `m`.
* `inverse?_cases`: modulo a prime only zero has none.
* `modEq_pow_pow`: congruences lift along powers to `n ^ s`.
* `exists_pow_eq_of_coprime`: a root out of two powers of coprime degrees.
-/

namespace SigmaProtocol

theorem powMod_eq (base exponent m : Nat) : powMod base exponent m = base ^ exponent % m := by
  fun_induction powMod base exponent m with
  | case1 => simp
  | case2 e h half square odd ih =>
    have he : base ^ e = base ^ (e / 2) * base ^ (e / 2) * base := by
      rw [← pow_add, ← pow_succ]; congr 1; omega
    simp only [square, half, ih, ← Nat.mul_mod]
    rw [he, Nat.mod_mul_mod]
  | case3 e h half square odd ih =>
    have he : base ^ e = base ^ (e / 2) * base ^ (e / 2) := by
      rw [← pow_add]; congr 1; omega
    simp only [square, half, ih, ← Nat.mul_mod]
    rw [he]

theorem natCast_subMod {m : Nat} (hm : 0 < m) (a b : Nat) :
    ((subMod a b m : Nat) : ZMod m) = a - b := by
  have hle : b % m ≤ m := (Nat.mod_lt b hm).le
  rw [subMod, ZMod.natCast_mod, Nat.cast_add, Nat.cast_sub hle, ZMod.natCast_mod,
    ZMod.natCast_self]
  ring

theorem subMod_lt {m : Nat} (hm : 0 < m) (a b : Nat) : subMod a b m < m := Nat.mod_lt _ hm

/-- Residues are equal if they are the same element. -/
theorem natCast_inj_of_lt {m u v : Nat} (hu : u < m) (hv : v < m)
    (h : (u : ZMod m) = (v : ZMod m)) : u = v := by
  have := (ZMod.natCast_eq_natCast_iff' u v m).mp h
  rwa [Nat.mod_eq_of_lt hu, Nat.mod_eq_of_lt hv] at this

/-! ## Euclid's algorithm -/

/-- Each remainder is the argument times its factor, so that the factor of the remainder `1` is an
inverse. -/
theorem natCast_inverseLoop {m r t r' t' v : Nat} {a : ZMod m} (hm : 0 < m)
    (hr : (r : ZMod m) = t * a) (hr' : (r' : ZMod m) = t' * a)
    (h : inverseLoop m r t r' t' = some v) : (v : ZMod m) * a = 1 := by
  fun_induction inverseLoop m r t r' t' with
  | case1 t t' =>
    cases h
    rw [← hr, Nat.cast_one]
  | case2 => cases h
  | case3 r t r' t' _ ih =>
    refine ih hr' ?_ h
    have hle : r / r' * t' % m ≤ m := (Nat.mod_lt _ hm).le
    have hsplit : ((r % r' : Nat) : ZMod m) = r - (r / r' : Nat) * r' := by
      rw [eq_sub_iff_add_eq, ← Nat.cast_mul, ← Nat.cast_add, Nat.mul_comm, Nat.mod_add_div]
    rw [ZMod.natCast_mod, Nat.cast_add, Nat.cast_sub hle, ZMod.natCast_mod, ZMod.natCast_self,
      hsplit, hr, hr', Nat.cast_mul]
    ring

/-- A step does not change the greatest common divisor. -/
theorem inverseLoop_isSome_iff {m r t r' t' : Nat} :
    (inverseLoop m r t r' t').isSome ↔ r.Coprime r' := by
  fun_induction inverseLoop m r t r' t' with
  | case1 => simp
  | case2 r t t' hr => simp [hr]
  | case3 r t r' t' _ ih =>
    rw [ih, Nat.Coprime, Nat.Coprime, Nat.gcd_comm r, Nat.gcd_rec r' r, Nat.gcd_comm r']

theorem natCast_inverse? {a m v : Nat} (hm : 0 < m) (h : inverse? a m = some v) :
    (v : ZMod m) * a = 1 := by
  refine natCast_inverseLoop hm (by simp) ?_ h
  rw [ZMod.natCast_mod, ZMod.natCast_mod, Nat.cast_one, one_mul]

theorem inverse?_isSome_iff {a m : Nat} : (inverse? a m).isSome ↔ a.Coprime m := by
  rw [inverse?, inverseLoop_isSome_iff, Nat.coprime_comm, Nat.Coprime, ← Nat.gcd_rec,
    Nat.gcd_comm, Nat.Coprime]

/-- Modulo a prime a division fails only by zero. -/
theorem inverse?_cases (a p : Nat) [hp : Fact p.Prime] :
    ((a : ZMod p) = 0 ∧ inverse? a p = none) ∨
      ∃ v, (a : ZMod p) ≠ 0 ∧ inverse? a p = some v ∧ (v : ZMod p) = (a : ZMod p)⁻¹ := by
  rcases h : inverse? a p with _ | v
  · refine .inl ⟨?_, rfl⟩
    have hnot : ¬ a.Coprime p := by
      rw [← inverse?_isSome_iff, h]
      exact Bool.false_ne_true
    rw [ZMod.natCast_eq_zero_iff]
    rw [Nat.coprime_comm] at hnot
    exact not_not.mp fun hdvd => hnot ((Nat.Prime.coprime_iff_not_dvd hp.out).mpr hdvd)
  · have hmul := natCast_inverse? hp.out.pos h
    exact .inr ⟨v, right_ne_zero_of_mul_eq_one hmul, rfl, eq_inv_of_mul_eq_one_left hmul⟩

/-! ## Powers -/

theorem natCast_pow_eq_one_iff {g k m : Nat} (hm : 1 < m) :
    (g : ZMod m) ^ k = 1 ↔ powMod g k m = 1 := by
  rw [powMod_eq, ← Nat.cast_pow, ← Nat.cast_one, ZMod.natCast_eq_natCast_iff',
    Nat.mod_eq_of_lt hm]

/-- The power to `n ^ s` lifts a congruence modulo `n` to one modulo `n ^ (s + 1)`. -/
theorem modEq_pow_pow {x y n : Nat} (h : x ≡ y [MOD n]) (s : Nat) :
    x ^ n ^ s ≡ y ^ n ^ s [MOD n ^ (s + 1)] := by
  rw [Nat.modEq_iff_dvd] at h ⊢
  push_cast
  exact dvd_sub_pow_of_dvd_sub h s

/-- A power to `m` that is also a power to `k`, coprime to `m`, has roots of both degrees. -/
theorem exists_pow_eq_of_coprime {G : Type} [CommGroup G] {x c : G} {k m : Nat}
    (hcoprime : k.Coprime m) (h : x ^ m = c ^ k) : ∃ r, r ^ m = c := by
  have hbezout : (k : ℤ) * k.gcdA m + m * k.gcdB m = 1 := by
    rw [← Nat.gcd_eq_gcd_ab, hcoprime.gcd_eq_one, Nat.cast_one]
  refine ⟨x ^ k.gcdA m * c ^ k.gcdB m, ?_⟩
  calc (x ^ k.gcdA m * c ^ k.gcdB m) ^ m
      = (x ^ m) ^ k.gcdA m * (c ^ m) ^ k.gcdB m := by
        rw [mul_pow, ← zpow_natCast, ← zpow_natCast, zpow_comm, zpow_comm c, zpow_natCast,
          zpow_natCast]
    _ = c ^ ((k : ℤ) * k.gcdA m + m * k.gcdB m) := by
        rw [h, zpow_add, zpow_mul, zpow_mul, zpow_natCast, zpow_natCast]
    _ = c := by rw [hbezout, zpow_one]

/-- A factor in common with `n` is not lost modulo a multiple of `n`. -/
theorem coprime_mod_iff {x m n : Nat} (h : n ∣ m) : (x % m).Coprime n ↔ x.Coprime n := by
  have hmod : x % m ≡ x [MOD n] := (Nat.mod_modEq x m).of_dvd h
  rw [Nat.Coprime, Nat.Coprime, hmod.gcd_eq]

end SigmaProtocol
