import SigmaProtocol.Curve.Prime
import SigmaProtocol.Proofs.Modular

/-!
# The point over an abscissa

Modulo a prime of the form `4k + 3` the root of a square is its power to `(p + 1) / 4`. The other
root is its opposite. As `p` is odd, exactly one of the two is even, except that zero is both. So an
abscissa that occurs on a curve is that of exactly one point with an even ordinate.

* `PrimeCurve.liftEven?_eq_some_iff`: which point is found.
* `PrimeCurve.liftEven?_eq_none_iff`: none is found only if there is none.
-/

namespace SigmaProtocol

/-- A square has its power to `(p + 1) / 4` for a root. Of another number that power is no root. -/
theorem pow_mul_pow_of_isSquare {p : Nat} [Fact p.Prime] (hmod : p % 4 = 3) {a : ZMod p}
    (ha : IsSquare a) : a ^ ((p + 1) / 4) * a ^ ((p + 1) / 4) = a := by
  obtain ⟨y, rfl⟩ := ha
  have hexponent : 4 * ((p + 1) / 4) = p + 1 := by omega
  calc (y * y) ^ ((p + 1) / 4) * (y * y) ^ ((p + 1) / 4)
      = y ^ (4 * ((p + 1) / 4)) := by ring
    _ = y * y := by rw [hexponent, pow_succ, ZMod.pow_card]

namespace PrimeCurve

variable {c : PrimeCurve} {x y : Nat}

theorem contains_iff_mul_self : c.contains x y = true ↔
    x < c.p ∧ y < c.p ∧ (y : ZMod c.p) * y = (c.rightSide x : ZMod c.p) := by
  have hreduced : c.rightSide x % c.p = c.rightSide x := Nat.mod_mod ..
  simp only [contains, Bool.and_eq_true, decide_eq_true_eq, beq_iff_eq, and_assoc]
  rw [← Nat.cast_mul, ZMod.natCast_eq_natCast_iff', hreduced]

/-- The other root belongs to a point as well. -/
theorem contains_opposite (h : c.contains x y = true) (hy : y ≠ 0) :
    c.contains x (c.p - y) = true := by
  obtain ⟨hx, hlt, heq⟩ := contains_iff_mul_self.mp h
  refine contains_iff_mul_self.mpr ⟨hx, by omega, ?_⟩
  rw [Nat.cast_sub hlt.le, ZMod.natCast_self, zero_sub, neg_mul_neg, heq]

/-- The even one of the two roots of the right side, if it is a square. -/
def evenRoot (c : PrimeCurve) (x : Nat) : Nat :=
  let root := powMod (c.rightSide x) ((c.p + 1) / 4) c.p
  if root % 2 = 0 then root else c.p - root

theorem liftEven?_eq (c : PrimeCurve) (x : Nat) : c.liftEven? x =
    if c.contains x (c.evenRoot x) then some (.affine x (c.evenRoot x)) else none := rfl

section Field

variable [hp : Fact c.p.Prime] (hmod : c.p % 4 = 3)
include hmod

/-- The number that is tried is always an even residue, and a root if there is one. -/
theorem evenRoot_spec (x : Nat) : c.evenRoot x < c.p ∧ c.evenRoot x % 2 = 0 ∧
    (IsSquare (c.rightSide x : ZMod c.p) →
      (c.evenRoot x : ZMod c.p) * c.evenRoot x = c.rightSide x) := by
  have hroot := powMod_eq (c.rightSide x) ((c.p + 1) / 4) c.p
  have hlt : powMod (c.rightSide x) ((c.p + 1) / 4) c.p < c.p := by
    rw [hroot]
    exact Nat.mod_lt _ hp.out.pos
  have hcast : ((powMod (c.rightSide x) ((c.p + 1) / 4) c.p : Nat) : ZMod c.p) =
      (c.rightSide x : ZMod c.p) ^ ((c.p + 1) / 4) := by
    rw [hroot, ZMod.natCast_mod, Nat.cast_pow]
  unfold evenRoot
  dsimp only
  split
  · next heven =>
    refine ⟨hlt, heven, fun hsquare => ?_⟩
    rw [hcast, pow_mul_pow_of_isSquare hmod hsquare]
  · next hodd =>
    refine ⟨by omega, by omega, fun hsquare => ?_⟩
    rw [Nat.cast_sub hlt.le, ZMod.natCast_self, zero_sub, neg_mul_neg, hcast,
      pow_mul_pow_of_isSquare hmod hsquare]

/-- Two even numbers below an odd modulus are not opposite, unless both are zero. -/
theorem eq_evenRoot (h : c.contains x y = true) (heven : y % 2 = 0) : y = c.evenRoot x := by
  obtain ⟨-, hy, heq⟩ := contains_iff_mul_self.mp h
  obtain ⟨hlt, hroot, hsquare⟩ := evenRoot_spec hmod x
  rw [← hsquare ⟨y, heq.symm⟩] at heq
  rcases mul_self_eq_mul_self_iff.mp heq with hsame | hopposite
  · exact natCast_inj_of_lt hy hlt hsame
  · rw [eq_neg_iff_add_eq_zero, ← Nat.cast_add, ZMod.natCast_eq_zero_iff] at hopposite
    -- The sum of the two is a multiple of `p` below `2 p`, hence `0` or `p`, and it is even.
    obtain ⟨k, hk⟩ := hopposite
    have hk2 : k < 2 := Nat.lt_of_mul_lt_mul_left (a := c.p) (by omega)
    interval_cases k <;> omega

theorem liftEven?_eq_some_iff {p : Point} : c.liftEven? x = some p ↔
    ∃ y, c.contains x y = true ∧ y % 2 = 0 ∧ p = .affine x y := by
  rw [liftEven?_eq]
  constructor
  · intro h
    split at h
    · next hcontains =>
      cases h
      exact ⟨_, hcontains, (evenRoot_spec hmod x).2.1, rfl⟩
    · cases h
  · rintro ⟨y, hcontains, heven, rfl⟩
    rw [← eq_evenRoot hmod hcontains heven, if_pos hcontains]

/-- If a point over `x` has an odd ordinate, then its opposite has an even one: nothing is
missed. -/
theorem liftEven?_eq_none_iff : c.liftEven? x = none ↔ ∀ y, c.contains x y = false := by
  constructor
  · intro h y
    by_contra hcontains
    rw [Bool.not_eq_false] at hcontains
    have hnot (z : Nat) (hz : c.contains x z = true) : z % 2 ≠ 0 := by
      intro heven
      have hsome := (liftEven?_eq_some_iff hmod).mpr ⟨z, hz, heven, rfl⟩
      rw [h] at hsome
      cases hsome
    have hodd := hnot y hcontains
    have hlt := (contains_iff_mul_self.mp hcontains).2.1
    exact hnot (c.p - y) (contains_opposite hcontains (by omega)) (by omega)
  · intro h
    rw [liftEven?_eq, h, if_neg Bool.false_ne_true]

end Field

end PrimeCurve

end SigmaProtocol
