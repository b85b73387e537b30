import SigmaProtocol.Proofs.Curve.Embedding

/-!
# Points of Weierstrass curves

Coordinates are numbers that stand for the elements of a field; `Chart` says which numbers are
coordinates and what they stand for. A point whose coordinates satisfy the equation of a
Weierstrass curve without singular points is a point of that curve. An operation that follows the
formulas of chord and tangent (`Chart.IsSum`) is then the addition of the curve's points, whose laws
Mathlib proves.

* `Chart.toPoint_eq_add`: what follows the formulas is the sum.
* `Chart.embedding`: an operation that follows the formulas is that of a commutative group.
-/

namespace SigmaProtocol

open WeierstrassCurve

/-- Numbers as elements of the field `F`. -/
structure Chart (F : Type) [Field F] where
  /-- The numbers that are coordinates. -/
  Coordinate : Nat → Prop
  /-- The element that a number stands for. -/
  value : Nat → F
  value_injective : ∀ {u v : Nat}, Coordinate u → Coordinate v → value u = value v → u = v

namespace Chart

variable {F : Type} [Field F] (C : Chart F) (W : Affine F)

/-- The point is infinity, or its coordinates satisfy the equation of `W`. -/
def On : Point → Prop
  | .infinity => True
  | .affine x y => C.Coordinate x ∧ C.Coordinate y ∧ W.Equation (C.value x) (C.value y)

open Classical in
/-- The point of `W` that a point stands for. -/
noncomputable def toPoint : Point → W.Point
  | .infinity => 0
  | .affine x y =>
    if h : W.Nonsingular (C.value x) (C.value y) then .some (C.value x) (C.value y) h else 0

variable {C W}

theorem toPoint_affine {x y : Nat} (h : W.Nonsingular (C.value x) (C.value y)) :
    C.toPoint W (.affine x y) = .some (C.value x) (C.value y) h :=
  dif_pos h

/-- On a curve without singular points the equation is all that has to be checked. -/
theorem nonsingular (hW : W.Δ ≠ 0) {x y : Nat} (h : C.On W (.affine x y)) :
    W.Nonsingular (C.value x) (C.value y) :=
  (W.equation_iff_nonsingular_of_Δ_ne_zero hW).mp h.2.2

/-- Coordinates are determined by the elements that they stand for, and infinity is none of the
affine points. -/
theorem toPoint_injective (hW : W.Δ ≠ 0) {p q : Point} (hp : C.On W p) (hq : C.On W q)
    (h : C.toPoint W p = C.toPoint W q) : p = q := by
  cases p with
  | infinity =>
    cases q with
    | infinity => rfl
    | affine x y =>
      rw [toPoint_affine (nonsingular hW hq)] at h
      exact absurd h.symm (Affine.Point.some_ne_zero _)
  | affine x y =>
    rw [toPoint_affine (nonsingular hW hp)] at h
    cases q with
    | infinity => exact absurd h (Affine.Point.some_ne_zero _)
    | affine x' y' =>
      rw [toPoint_affine (nonsingular hW hq), Affine.Point.some.injEq] at h
      rw [C.value_injective hp.1 hq.1 h.1, C.value_injective hp.2.1 hq.2.1 h.2]

/-! ## Sums -/

variable [DecidableEq F] (C W)

/-- The points `(x₁, y₁)` and `(x₂, y₂)` are opposite to each other. -/
def Opposite (x₁ y₁ x₂ y₂ : Nat) : Prop :=
  C.value x₁ = C.value x₂ ∧ C.value y₁ = W.negY (C.value x₂) (C.value y₂)

/-- The point `r` is what the formulas of chord and tangent give for `(x₁, y₁)` and `(x₂, y₂)`. -/
def IsSum (x₁ y₁ x₂ y₂ : Nat) : Point → Prop
  | .infinity => C.Opposite W x₁ y₁ x₂ y₂
  | .affine x y =>
    let slope := W.slope (C.value x₁) (C.value x₂) (C.value y₁) (C.value y₂)
    ¬ C.Opposite W x₁ y₁ x₂ y₂ ∧ C.Coordinate x ∧ C.Coordinate y ∧
      C.value x = W.addX (C.value x₁) (C.value x₂) slope ∧
      C.value y = W.addY (C.value x₁) (C.value x₂) (C.value y₁) slope

variable {C W}

/-- The formulas of chord and tangent lead back to the curve. -/
theorem on_of_isSum {x₁ y₁ x₂ y₂ : Nat} {r : Point} (h₁ : C.On W (.affine x₁ y₁))
    (h₂ : C.On W (.affine x₂ y₂)) (h : C.IsSum W x₁ y₁ x₂ y₂ r) : C.On W r := by
  cases r with
  | infinity => trivial
  | affine x y =>
    obtain ⟨hopposite, hx, hy, hvx, hvy⟩ := h
    refine ⟨hx, hy, ?_⟩
    rw [hvx, hvy]
    exact Affine.equation_add h₁.2.2 h₂.2.2 hopposite

theorem toPoint_eq_add (hW : W.Δ ≠ 0) {x₁ y₁ x₂ y₂ : Nat} {r : Point}
    (h₁ : C.On W (.affine x₁ y₁)) (h₂ : C.On W (.affine x₂ y₂))
    (h : C.IsSum W x₁ y₁ x₂ y₂ r) :
    C.toPoint W r = C.toPoint W (.affine x₁ y₁) + C.toPoint W (.affine x₂ y₂) := by
  have hr := on_of_isSum h₁ h₂ h
  rw [toPoint_affine (nonsingular hW h₁), toPoint_affine (nonsingular hW h₂)]
  cases r with
  | infinity => exact (Affine.Point.add_of_Y_eq h.1 h.2).symm
  | affine x y =>
    obtain ⟨hopposite, -, -, hvx, hvy⟩ := h
    rw [toPoint_affine (nonsingular hW hr), Affine.Point.add_some hopposite,
      Affine.Point.some.injEq]
    exact ⟨hvx, hvy⟩

/-- The points on a curve without singular points, under an operation that follows the formulas. -/
noncomputable def embedding (hW : W.Δ ≠ 0) (mul : Point → Point → Point)
    (infinity_mul : ∀ p, mul .infinity p = p) (mul_infinity : ∀ p, mul p .infinity = p)
    (isSum : ∀ {x₁ y₁ x₂ y₂ : Nat}, C.On W (.affine x₁ y₁) → C.On W (.affine x₂ y₂) →
      C.IsSum W x₁ y₁ x₂ y₂ (mul (.affine x₁ y₁) (.affine x₂ y₂))) :
    PointEmbedding W.Point where
  On := C.On W
  mul := mul
  image := C.toPoint W
  on_infinity := trivial
  image_infinity := rfl
  on_mul := by
    intro p q hp hq
    cases p with
    | infinity => rwa [infinity_mul]
    | affine x₁ y₁ =>
      cases q with
      | infinity => rwa [mul_infinity]
      | affine x₂ y₂ => exact on_of_isSum hp hq (isSum hp hq)
  image_mul := by
    intro p q hp hq
    cases p with
    | infinity => rw [infinity_mul]; exact (zero_add _).symm
    | affine x₁ y₁ =>
      cases q with
      | infinity => rw [mul_infinity]; exact (add_zero _).symm
      | affine x₂ y₂ => exact toPoint_eq_add hW hp hq (isSum hp hq)
  image_injective := toPoint_injective hW

end Chart

end SigmaProtocol
