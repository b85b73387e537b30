import SigmaProtocol.Bytes

/-!
# Hexadecimal text

Byte strings are written with two lower-case digits a byte and read in either case. Numbers in
curve tables are read by the looser grammar of `Hex.natural?`.

* `Hex.value?_digit`: every digit that is written is read back.
* `Hex.toBytes?_ofBytes`: reading undoes writing.
-/

namespace SigmaProtocol.Hex

/-- The lower-case digit of a value below 16. -/
def digit (v : Nat) : Char := if v < 10 then Char.ofNat (48 + v) else Char.ofNat (87 + v)

/-- The value of a digit in either case. -/
def value? (c : Char) : Option Nat :=
  if '0' ≤ c ∧ c ≤ '9' then some (c.toNat - 48)
  else if 'a' ≤ c ∧ c ≤ 'f' then some (c.toNat - 87)
  else if 'A' ≤ c ∧ c ≤ 'F' then some (c.toNat - 55)
  else none

theorem value?_digit : ∀ v < 16, value? (digit v) = some v := by decide

/-! ## Byte strings -/

/-- Two digits for each byte. -/
def ofBytes (bs : Bytes) : List Char :=
  bs.flatMap fun b => [digit (b.toNat / 16), digit (b.toNat % 16)]

/-- Reads pairs of digits; a lone last digit is refused. -/
def toBytes? : List Char → Option Bytes
  | [] => some []
  | [_] => none
  | high :: low :: rest => do
    let h ← value? high
    let l ← value? low
    return UInt8.ofNat (h * 16 + l) :: (← toBytes? rest)

theorem toBytes?_ofBytes (bs : Bytes) : toBytes? (ofBytes bs) = some bs := by
  induction bs with
  | nil => rfl
  | cons b bs ih =>
    have hb := b.toNat_lt
    have hh := value?_digit (b.toNat / 16) (by omega)
    have hl := value?_digit (b.toNat % 16) (by omega)
    have hb' : UInt8.ofNat (b.toNat / 16 * 16 + b.toNat % 16) = b := by
      rw [Nat.mul_comm, Nat.div_add_mod]; exact UInt8.ofNat_toNat
    have h : toBytes? (digit (b.toNat / 16) :: digit (b.toNat % 16) :: ofBytes bs)
        = some (UInt8.ofNat (b.toNat / 16 * 16 + b.toNat % 16) :: bs) := by
      simp only [toBytes?, hh, hl, ih, bind, Option.bind, pure]
    rw [hb'] at h
    exact h

/-! ## Numbers of curve tables -/

/-- The characters with the Unicode property `White_Space`. -/
def isBlank (c : Char) : Bool :=
  let n := c.toNat
  (9 ≤ n && n ≤ 13) || n == 0x20 || n == 0x85 || n == 0xA0 || n == 0x1680 ||
    (0x2000 ≤ n && n ≤ 0x200A) || n == 0x2028 || n == 0x2029 || n == 0x202F || n == 0x205F ||
    n == 0x3000

/-- `cs` without the blanks at its two ends. -/
def trim (cs : List Char) : List Char :=
  ((cs.dropWhile isBlank).reverse.dropWhile isBlank).reverse

/-- `cs` without any number of leading `0x` marks. -/
def dropMarks : List Char → List Char
  | '0' :: 'x' :: rest => dropMarks rest
  | cs => cs

/-- `cs` without one leading plus sign, unless a second one follows it. -/
def dropPlus : List Char → List Char
  | '+' :: '+' :: rest => '+' :: '+' :: rest
  | '+' :: rest => rest
  | cs => cs

/-- Reads digits behind the value `acc`, skipping underscores. -/
def digits? (acc : Nat) : List Char → Option Nat
  | [] => some acc
  | '_' :: rest => digits? acc rest
  | c :: rest => do digits? (acc * 16 + (← value? c)) rest

/-- Reads a number of a curve table: blanks around it, any number of `0x` marks and one plus sign
are ignored, and underscores may stand anywhere behind the first digit. -/
def natural? (text : String) : Option Nat :=
  match dropPlus (dropMarks (trim text.toList)) with
  | [] => none
  | '_' :: _ => none
  | cs => digits? 0 cs

end SigmaProtocol.Hex
