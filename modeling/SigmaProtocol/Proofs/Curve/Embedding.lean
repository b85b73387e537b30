import SigmaProtocol.Bytes.Range
import SigmaProtocol.Group.Basic
import Mathlib

/-!
# Points inside a commutative group

A `PointEmbedding` carries a set of points with an operation into a commutative group, one to one.
Whatever the group satisfies then holds of the points: the laws of the operation, and that every
way to compute a power computes the multiple in the group.

* `PointEmbedding.mul_assoc`, `PointEmbedding.mul_comm`: the laws of the operation.
* `PointEmbedding.image_foldr_replicate`: repeated addition computes a multiple.
* `PointEmbedding.image_of_halving`: so does double-and-add.
* `PointEmbedding.image_ladder`: so does the ladder, over any width of the exponent.
* `PointEmbedding.nsmul_image_eq_iff`: the multiples of a point that a prime kills.
-/

namespace SigmaProtocol

/-- The binary digit that a step of a loop over the exponent takes up. -/
theorem mod_two_pow_succ (exponent count : Nat) : exponent % 2 ^ (count + 1) =
    (if exponent.testBit count then 2 ^ count else 0) + exponent % 2 ^ count := by
  rw [Nat.mod_pow_succ, ← Nat.toNat_testBit, Nat.add_comm]
  cases exponent.testBit count <;> simp

/-- Points with an operation that embed into the commutative group `A`. -/
structure PointEmbedding (A : Type) [AddCommGroup A] where
  /-- The points that are embedded. -/
  On : Point → Prop
  /-- The operation. -/
  mul : Point → Point → Point
  /-- The element of `A` that stands for a point. -/
  image : Point → A
  on_infinity : On .infinity
  image_infinity : image .infinity = 0
  on_mul : ∀ {p q : Point}, On p → On q → On (mul p q)
  image_mul : ∀ {p q : Point}, On p → On q → image (mul p q) = image p + image q
  image_injective : ∀ {p q : Point}, On p → On q → image p = image q → p = q

namespace PointEmbedding

variable {A : Type} [AddCommGroup A] (E : PointEmbedding A)

/-- Points that stand for the same element are the same. -/
theorem eq_of_image {p q : Point} {a : A} (hp : E.On p ∧ E.image p = a)
    (hq : E.On q ∧ E.image q = a) : p = q :=
  E.image_injective hp.1 hq.1 (hp.2.trans hq.2.symm)

/-! ## Laws -/

theorem infinity_mul {p : Point} (hp : E.On p) : E.mul .infinity p = p := by
  refine E.image_injective (E.on_mul E.on_infinity hp) hp ?_
  rw [E.image_mul E.on_infinity hp, E.image_infinity, zero_add]

theorem mul_infinity {p : Point} (hp : E.On p) : E.mul p .infinity = p := by
  refine E.image_injective (E.on_mul hp E.on_infinity) hp ?_
  rw [E.image_mul hp E.on_infinity, E.image_infinity, add_zero]

theorem mul_comm {p q : Point} (hp : E.On p) (hq : E.On q) : E.mul p q = E.mul q p := by
  refine E.image_injective (E.on_mul hp hq) (E.on_mul hq hp) ?_
  rw [E.image_mul hp hq, E.image_mul hq hp, add_comm]

/-- Associativity is had from the group, where it costs nothing. -/
theorem mul_assoc {p q r : Point} (hp : E.On p) (hq : E.On q) (hr : E.On r) :
    E.mul (E.mul p q) r = E.mul p (E.mul q r) := by
  refine E.image_injective (E.on_mul (E.on_mul hp hq) hr) (E.on_mul hp (E.on_mul hq hr)) ?_
  rw [E.image_mul (E.on_mul hp hq) hr, E.image_mul hp hq, E.image_mul hp (E.on_mul hq hr),
    E.image_mul hq hr, add_assoc]

theorem eq_infinity_iff {p : Point} (hp : E.On p) : p = .infinity ↔ E.image p = 0 := by
  refine ⟨fun h => by rw [h, E.image_infinity], fun h => ?_⟩
  exact E.image_injective hp E.on_infinity (h.trans E.image_infinity.symm)

/-! ## Multiples -/

/-- Repeated addition stands for the multiple; this is what the faster ways are compared with. -/
theorem image_foldr_replicate {p : Point} (hp : E.On p) (k : Nat) :
    E.On ((List.replicate k p).foldr E.mul .infinity) ∧
      E.image ((List.replicate k p).foldr E.mul .infinity) = k • E.image p := by
  induction k with
  | zero => exact ⟨E.on_infinity, by rw [zero_nsmul]; exact E.image_infinity⟩
  | succ k ih =>
    obtain ⟨hon, himage⟩ := ih
    rw [List.replicate_succ, List.foldr_cons]
    refine ⟨E.on_mul hp hon, ?_⟩
    rw [E.image_mul hp hon, himage, succ_nsmul']

/-- A point other than infinity that a prime kills has that prime for its order. -/
theorem nsmul_image_eq_iff {p : Point} {q : Nat} [Fact q.Prime] (hp : E.On p)
    (hkilled : q • E.image p = 0) (hne : p ≠ .infinity) {k l : Nat} :
    k • E.image p = l • E.image p ↔ k ≡ l [MOD q] := by
  have hzero : E.image p ≠ 0 := mt (E.eq_infinity_iff hp).mpr hne
  rw [nsmul_eq_nsmul_iff_modEq, addOrderOf_eq_prime hkilled hzero]

/-- A function that halves its argument, doubles the point for the half and adds `p` for an odd
argument computes the multiples of `p`. -/
theorem image_of_halving {p : Point} (hp : E.On p) {multiple : Nat → Point}
    {double : Point → Point} (hdouble : ∀ {q}, E.On q → double q = E.mul q q)
    (hzero : multiple 0 = .infinity)
    (hstep : ∀ k, k ≠ 0 → multiple k =
      if k % 2 = 1 then E.mul (double (multiple (k / 2))) p else double (multiple (k / 2)))
    (k : Nat) : E.On (multiple k) ∧ E.image (multiple k) = k • E.image p := by
  induction k using Nat.strong_induction_on with
  | _ k ih =>
    by_cases hk : k = 0
    · subst hk
      rw [hzero, zero_smul]
      exact ⟨E.on_infinity, E.image_infinity⟩
    · obtain ⟨hon, himage⟩ := ih (k / 2) (by omega)
      have hdon : E.On (double (multiple (k / 2))) := by
        rw [hdouble hon]
        exact E.on_mul hon hon
      have hdimage : E.image (double (multiple (k / 2))) = (2 * (k / 2)) • E.image p := by
        rw [hdouble hon, E.image_mul hon hon, himage, ← add_smul, two_mul]
      rw [hstep k hk]
      split
      · next hodd =>
        refine ⟨E.on_mul hdon hp, ?_⟩
        rw [E.image_mul hdon hp, hdimage, ← succ_nsmul]
        congr 1
        omega
      · next heven =>
        refine ⟨hdon, ?_⟩
        rw [hdimage]
        congr 1
        omega

/-- The ladder keeps `high` one multiple of `base` above `low`. -/
theorem image_ladderLoop {base : Point} (exponent count : Nat) {low high : Point}
    (hlow : E.On low) (hhigh : E.On high) (h : E.image high = E.image low + E.image base) :
    E.On (CurveGroup.ladderLoop E.mul exponent count low high) ∧
      E.image (CurveGroup.ladderLoop E.mul exponent count low high)
        = 2 ^ count • E.image low + (exponent % 2 ^ count) • E.image base := by
  induction count generalizing low high with
  | zero => simp [CurveGroup.ladderLoop, hlow, Nat.mod_one]
  | succ count ih =>
    have hmid := E.on_mul hlow hhigh
    -- A digit doubles one of the two points and puts their sum in the place of the other, so that
    -- `high` stays one `base` above `low`.
    rw [CurveGroup.ladderLoop, mod_two_pow_succ]
    split
    · next hbit =>
      obtain ⟨hon, himage⟩ := ih hmid (E.on_mul hhigh hhigh) (by
        rw [E.image_mul hhigh hhigh, E.image_mul hlow hhigh, h]
        abel)
      refine ⟨hon, ?_⟩
      rw [himage, E.image_mul hlow hhigh, h]
      module
    · next hbit =>
      obtain ⟨hon, himage⟩ := ih (E.on_mul hlow hlow) hmid (by
        rw [E.image_mul hlow hlow, E.image_mul hlow hhigh, h]
        abel)
      refine ⟨hon, ?_⟩
      rw [himage, E.image_mul hlow hlow]
      module

/-- The width of the exponent does not matter. -/
theorem image_ladder {base : Point} (hbase : E.On base) (exponent : LimbNat) :
    E.On (CurveGroup.ladder E.mul base exponent) ∧
      E.image (CurveGroup.ladder E.mul base exponent) = exponent.toNat • E.image base := by
  have h : E.image base = E.image .infinity + E.image base := by rw [E.image_infinity, zero_add]
  obtain ⟨hon, himage⟩ :=
    E.image_ladderLoop exponent.toNat exponent.precision E.on_infinity hbase h
  refine ⟨hon, ?_⟩
  rw [CurveGroup.ladder, himage, E.image_infinity, smul_zero, zero_add,
    Nat.mod_eq_of_lt exponent.toNat_lt]

end PointEmbedding

end SigmaProtocol
