import SigmaProtocol.Bytes

/-!
# Binary fields

Polynomials over the field with two elements are written as numbers: bit `i` is the coefficient of
`z ^ i`, and addition is `^^^`. A binary field is given by a degree `m` and a modulus
`z ^ m + … + 1`; its elements are the polynomials of degree below `m`, those with at most `m` binary
digits.

Nothing checks that the modulus is irreducible, nor that its middle exponents are below `m`. If one
of them is above `m`, the modulus has a degree above `m`, taking it away from a polynomial cannot
lower the degree, and no remainder of degree below `m` is ever reached: the division never ends.

* `BinaryField.reduceStep_lt`: one step of the division lowers the number of binary digits, if the
  modulus has degree `m`.
* `BinaryField.bitLength_reduce_le`: then the remainder has degree below `m`.
* `bitLength_xor_shift_lt`: adding a multiple that lines up the leading terms cancels them.
-/

namespace SigmaProtocol

/-! ## Leading terms -/

theorem testBit_of_bitLength {v n : Nat} (h : bitLength v = n + 1) : v.testBit n = true := by
  have h0 : v ≠ 0 := by rintro rfl; simp at h
  have hlog : v.log2 = n := by simp only [bitLength, h0, if_false] at h; omega
  exact hlog ▸ Nat.testBit_log2 h0

/-- The leading digits cancel. -/
theorem bitLength_xor_lt {u v n : Nat} (hu : bitLength u = n) (hv : bitLength v = n) (hn : 0 < n) :
    bitLength (u ^^^ v) < n := by
  obtain ⟨k, rfl⟩ : ∃ k, n = k + 1 := ⟨n - 1, by omega⟩
  refine Nat.lt_succ_of_le (bitLength_le_iff.mpr fun i hi => ?_)
  rw [Nat.testBit_xor]
  by_cases h : i = k
  · rw [h, testBit_of_bitLength hu, testBit_of_bitLength hv]; rfl
  · rw [bitLength_le_iff.mp (Nat.le_of_eq hu) i (by omega),
      bitLength_le_iff.mp (Nat.le_of_eq hv) i (by omega)]; rfl

theorem bitLength_shiftLeft {v : Nat} (hv : v ≠ 0) (k : Nat) :
    bitLength (v <<< k) = bitLength v + k := by
  have h1 : v <<< k ≠ 0 := by
    rw [Nat.shiftLeft_eq]; exact Nat.mul_ne_zero hv (Nat.ne_of_gt (Nat.two_pow_pos k))
  have h2 : (v <<< k).log2 = v.log2 + k := by
    rw [Nat.log2_eq_iff h1, Nat.shiftLeft_eq]
    have lo := Nat.log2_self_le hv
    have hi := @Nat.lt_log2_self v
    constructor
    · rw [Nat.pow_add]; exact Nat.mul_le_mul_right _ lo
    · rw [show v.log2 + k + 1 = v.log2 + 1 + k by omega, Nat.pow_add]
      exact Nat.mul_lt_mul_of_pos_right hi (Nat.two_pow_pos k)
  simp only [bitLength, h1, hv, if_false, h2]
  omega

/-- A step of a division takes the leading digit away. -/
theorem bitLength_xor_shift_lt {u v : Nat} (hv : v ≠ 0) (h : bitLength v ≤ bitLength u) :
    bitLength (u ^^^ v <<< (bitLength u - bitLength v)) < bitLength u := by
  have hv' : bitLength v ≠ 0 := fun h => hv (bitLength_eq_zero_iff.mp h)
  apply bitLength_xor_lt rfl
  · rw [bitLength_shiftLeft hv]; omega
  · omega

/-! ## Fields -/

/-- The middle exponents of the modulus of a binary field. -/
inductive Basis
  /-- The modulus `z ^ m + z ^ k + 1`. -/
  | trinomial (k : Nat)
  /-- The modulus `z ^ m + z ^ k3 + z ^ k2 + z ^ k1 + 1`. -/
  | pentanomial (k1 k2 k3 : Nat)
deriving DecidableEq, Repr

/-- The middle exponents are between `0` and `m`, in strictly increasing order. -/
def Basis.Valid (m : Nat) : Basis → Prop
  | trinomial k => 0 < k ∧ k < m
  | pentanomial k1 k2 k3 => 0 < k1 ∧ k1 < k2 ∧ k2 < k3 ∧ k3 < m

instance (m : Nat) (basis : Basis) : Decidable (basis.Valid m) := by
  cases basis <;> unfold Basis.Valid <;> infer_instance

/-- The middle exponents as a list. -/
def Basis.exponents : Basis → List Nat
  | trinomial k => [k]
  | pentanomial k1 k2 k3 => [k1, k2, k3]

/-- The polynomials modulo `z ^ m + … + 1`. -/
structure BinaryField where
  /-- The degree `m`. -/
  degree : Nat
  /-- The modulus, with its leading and its constant term. -/
  modulus : Nat
deriving DecidableEq, Repr

namespace BinaryField

/-- The field with the degree `m` and the given middle exponents. -/
def ofBasis (m : Nat) (basis : Basis) : BinaryField :=
  ⟨m, basis.exponents.foldl (fun f k => f ||| 1 <<< k) (1 <<< m ||| 1)⟩

/-- The modulus has the degree of the field. -/
def Proper (f : BinaryField) : Prop := bitLength f.modulus = f.degree + 1

instance (f : BinaryField) : Decidable f.Proper := inferInstanceAs (Decidable (_ = _))

/-- Whether `v` has degree below `m`. -/
def contains (f : BinaryField) (v : Nat) : Bool := bitLength v ≤ f.degree

/-- One step of the division by the modulus: takes away the multiple whose term for `z ^ m` falls on
the leading term of `v`. -/
def reduceStep (f : BinaryField) (v : Nat) : Nat :=
  v ^^^ f.modulus <<< (bitLength v - (f.degree + 1))

/-- For a proper modulus a step makes the number shorter, so that reducing ends. -/
theorem reduceStep_lt {f : BinaryField} {v : Nat} (hf : f.Proper) (hv : f.degree < bitLength v) :
    bitLength (f.reduceStep v) < bitLength v := by
  unfold Proper at hf
  have h0 : f.modulus ≠ 0 := by intro h; rw [h] at hf; simp at hf
  have h := @bitLength_xor_shift_lt v f.modulus h0 (by omega)
  rwa [hf] at h

/-- The division of `v` where no step brings its end nearer: it goes on for ever. There is no
remainder, and `v` stands for it. -/
def divideForever (f : BinaryField) (v : Nat) : { w : Nat // w = v } :=
  have : Nonempty { w : Nat // w = v } := ⟨⟨v, rfl⟩⟩
  Id.run (repeatM (fun u => pure (.inl (f.reduceStep u))) v)

/-- The remainder of `v` modulo the modulus, by as many steps as it takes. If the modulus does not
have degree `m`, no number of steps is enough. -/
def reduce (f : BinaryField) (v : Nat) : Nat :=
  if _ : f.degree < bitLength v then
    if _ : f.Proper then f.reduce (f.reduceStep v) else f.divideForever v
  else v
termination_by bitLength v
decreasing_by exact reduceStep_lt ‹_› ‹_›

theorem reduce_eq_self {f : BinaryField} {v : Nat} (h : bitLength v ≤ f.degree) :
    f.reduce v = v := by
  rw [reduce, dif_neg (Nat.not_lt.mpr h)]

theorem reduce_reduceStep {f : BinaryField} {v : Nat} (hf : f.Proper) (h : f.degree < bitLength v) :
    f.reduce (f.reduceStep v) = f.reduce v := by
  rw [reduce.eq_def f v, dif_pos h, dif_pos hf]

theorem bitLength_reduce_le {f : BinaryField} (hf : f.Proper) (v : Nat) :
    bitLength (f.reduce v) ≤ f.degree := by
  fun_induction reduce f v with
  | case1 v _ _ ih => exact ih
  | case2 v _ h => exact absurd hf h
  | case3 v h => exact Nat.le_of_not_lt h

/-! ## Products -/

/-- Adds the multiples `shifted * z ^ i` of a polynomial for the bits `i` of `rest`, of which there
are `count`, to `sum`. The multiples are kept reduced. -/
def mulLoop (f : BinaryField) : (count rest shifted sum : Nat) → Nat
  | 0, _, _, sum => sum
  | count + 1, rest, shifted, sum =>
    let sum' := if rest % 2 = 1 then sum ^^^ shifted else sum
    let next := shifted <<< 1
    mulLoop f count (rest >>> 1) (if next.testBit f.degree then next ^^^ f.modulus else next) sum'

/-- The product of two polynomials modulo the modulus. -/
def mul (f : BinaryField) (a b : Nat) : Nat :=
  let b := f.reduce b
  f.mulLoop (bitLength b) b (f.reduce a) 0

/-- The square of a polynomial modulo the modulus. -/
def square (f : BinaryField) (a : Nat) : Nat := f.mul a a

/-! ## Inverses -/

/-- Euclid's algorithm, down to the remainder `1`. The remainders `u` and `v` are `g * a` and
`h * a` modulo the modulus for one fixed `a`. In each step the one of lower degree, lined up with
the other, is taken away from it; the run fails when nothing is left. -/
def inverseLoop (u v g h : Nat) : Option Nat :=
  if u = 1 then some g
  else if _ : u = 0 ∨ v = 0 then none
  else if _ : bitLength u < bitLength v then
    let shift := bitLength v - bitLength u
    inverseLoop (v ^^^ u <<< shift) u (h ^^^ g <<< shift) g
  else
    let shift := bitLength u - bitLength v
    inverseLoop (u ^^^ v <<< shift) v (g ^^^ h <<< shift) h
termination_by bitLength u + bitLength v
decreasing_by
  · next h1 h2 =>
    have := @bitLength_xor_shift_lt v u (fun h => h1 (.inl h)) (by omega)
    omega
  · next h1 h2 =>
    have := @bitLength_xor_shift_lt u v (fun h => h1 (.inr h)) (by omega)
    omega

/-- The inverse of `a` modulo the modulus; `none` if `a` shares a factor with it. -/
def inverse? (f : BinaryField) (a : Nat) : Option Nat :=
  (inverseLoop (f.reduce a) f.modulus 1 0).map f.reduce

/-- The quotient of two polynomials modulo the modulus. -/
def div? (f : BinaryField) (a b : Nat) : Option Nat := (f.inverse? b).map (f.mul a)

end BinaryField

end SigmaProtocol
