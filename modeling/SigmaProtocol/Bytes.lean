/-!
# Byte strings and the numbers they write

Numbers travel as byte strings, most significant byte first, and as lists of 32-bit words, least
significant word first.

* `bitLength_le_iff`: `n` has at most `k` binary digits exactly if no bit from `k` on is set.
* `Bytes.length_ofNat`, `Bytes.length_fit`: a fixed-width form has the width asked for.
* `natOfWords_wordsOfNat`: the word list of a number gives the number back.
-/

namespace SigmaProtocol

/-! ## Widths -/

/-- The number of binary digits of `n`; zero has none. -/
def bitLength (n : Nat) : Nat := if n = 0 then 0 else n.log2 + 1

@[simp] theorem bitLength_zero : bitLength 0 = 0 := rfl

/-- A number has at most `k` binary digits exactly if no bit from `k` on is set. -/
theorem bitLength_le_iff {n k : Nat} : bitLength n ≤ k ↔ ∀ i, k ≤ i → n.testBit i = false := by
  unfold bitLength
  split
  · next h => simp [h]
  · next h =>
    constructor
    · intro hk i hi
      exact Nat.testBit_lt_two_pow ((Nat.log2_lt h).mp (by omega))
    · intro hk
      have := Nat.testBit_log2 h
      refine Nat.lt_of_not_le fun hle => ?_
      simp [hk n.log2 hle] at this

theorem bitLength_eq_zero_iff {n : Nat} : bitLength n = 0 ↔ n = 0 := by
  unfold bitLength
  split <;> simp_all

/-- The number of groups of `size` items that hold `n` items, the last one possibly partial. -/
def groupCount (size n : Nat) : Nat := (n + (size - 1)) / size

/-! ## Byte strings -/

/-- A byte string. -/
abbrev Bytes := List UInt8

namespace Bytes

/-- The number that `bs` writes in base 256, most significant byte first. -/
def toNat (bs : Bytes) : Nat := bs.foldl (fun acc b => acc * 256 + b.toNat) 0

/-- The last `len` base-256 digits of `n`, most significant byte first. -/
def ofNat : (len : Nat) → (n : Nat) → Bytes
  | 0, _ => []
  | len + 1, n => ofNat len (n / 256) ++ [UInt8.ofNat n]

/-- The shortest byte string that writes `n`; zero is written by one byte. -/
def minimal (n : Nat) : Bytes := ofNat (max 1 (groupCount 8 (bitLength n))) n

/-- `bs` in exactly `len` bytes: a shorter one is filled up with zero bytes in front, and a longer
one loses its first bytes. -/
def fit (len : Nat) (bs : Bytes) : Bytes :=
  if len ≤ bs.length then bs.drop (bs.length - len)
  else List.replicate (len - bs.length) 0 ++ bs

@[simp] theorem toNat_nil : toNat [] = 0 := rfl

@[simp] theorem toNat_concat (bs : Bytes) (b : UInt8) :
    toNat (bs ++ [b]) = toNat bs * 256 + b.toNat := by
  simp [toNat]

@[simp] theorem length_ofNat (len n : Nat) : (ofNat len n).length = len := by
  induction len generalizing n with
  | zero => rfl
  | succ len ih => simp [ofNat, ih]

@[simp] theorem length_fit (len : Nat) (bs : Bytes) : (fit len bs).length = len := by
  unfold fit
  split <;> simp <;> omega

end Bytes

/-! ## Word lists -/

/-- The 32-bit words of `n`, least significant first, without zero words at the end. -/
def wordsOfNat (n : Nat) : List UInt32 :=
  if _ : n = 0 then [] else UInt32.ofNat n :: wordsOfNat (n / UInt32.size)
termination_by n
decreasing_by exact Nat.div_lt_self (Nat.pos_of_ne_zero ‹_›) (by decide)

/-- The number whose 32-bit words are `ws`, least significant first. -/
def natOfWords (ws : List UInt32) : Nat := ws.foldr (fun w acc => w.toNat + UInt32.size * acc) 0

theorem natOfWords_wordsOfNat (n : Nat) : natOfWords (wordsOfNat n) = n := by
  fun_induction wordsOfNat n with
  | case1 => rfl
  | case2 n _ ih =>
    have : (UInt32.ofNat n).toNat = n % UInt32.size := UInt32.toNat_ofNat'
    simp only [natOfWords, List.foldr_cons] at ih ⊢
    rw [ih, this, Nat.mod_add_div]

end SigmaProtocol
