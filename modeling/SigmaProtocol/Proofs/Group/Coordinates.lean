import SigmaProtocol.Curve.Point
import SigmaProtocol.Proofs.Limbs

/-!
# Coordinates in a fixed width

Whether the shortest form of a coordinate is filled up or cut, what comes out are the last digits of
the coordinate. So the encoding of a point has two halves of one width, and a coordinate that is too
wide does not reach into the half of the other. Conversely every byte string of the right length can
be read: zero bytes stand for infinity, and any others keep both coordinates, so that the point that
is read has these bytes as its encoding.

* `Bytes.fit_minimal`: filling up and cutting both leave the last digits.
* `Point.decode_encode_affine`: what is left of coordinates in a fixed width.
* `Point.encode_of_decode`: the encoding of the point that was read.
* `Point.packsCoordinates`: packing and splitting together, for every width.
-/

namespace SigmaProtocol

/-! ## Fixed widths -/

namespace Bytes

theorem toNat_drop (count : Nat) (bs : Bytes) :
    toNat (bs.drop count) = toNat bs % 256 ^ (bs.length - count) := by
  have hsplit := toNat_append (bs.take count) (bs.drop count)
  have hlt := toNat_lt (bs.drop count)
  rw [List.take_append_drop] at hsplit
  rw [List.length_drop] at hsplit hlt
  rw [hsplit, Nat.mul_add_mod_self_right, Nat.mod_eq_of_lt hlt]

theorem toNat_fit (len : Nat) (bs : Bytes) : toNat (fit len bs) = toNat bs % 256 ^ len := by
  unfold fit
  split
  · next h => rw [toNat_drop, Nat.sub_sub_self h]
  · next h =>
    have hlt : toNat bs < 256 ^ len :=
      (toNat_lt bs).trans_le (Nat.pow_le_pow_right (by decide) (by omega))
    rw [toNat_replicate_append, Nat.mod_eq_of_lt hlt]

/-- Filled up or cut, the shortest form becomes the last `len` digits. -/
theorem fit_minimal (len n : Nat) : fit len (minimal n) = ofNat len n := by
  refine eq_of_toNat_eq ?_ ?_
  · rw [length_fit, length_ofNat]
  · rw [toNat_fit, toNat_minimal, toNat_ofNat]

theorem ofNat_mod (len n : Nat) : ofNat len (n % 256 ^ len) = ofNat len n := by
  refine eq_of_toNat_eq ?_ ?_
  · rw [length_ofNat, length_ofNat]
  · rw [toNat_ofNat, toNat_ofNat, Nat.mod_mod]

/-- `bs` writes `n` in `len` bytes, most significant byte first: the byte at `i` is the digit of `n`
at `256 ^ (len - 1 - i)`. -/
structure IsBigEndian (len n : Nat) (bs : Bytes) : Prop where
  length_eq : bs.length = len
  digit : ∀ i < len, bs[i]? = some (UInt8.ofNat (n / 256 ^ (len - 1 - i)))

theorem isBigEndian_ofNat (len n : Nat) : IsBigEndian len n (ofNat len n) where
  length_eq := length_ofNat len n
  digit := by
    induction len generalizing n with
    | zero => nofun
    | succ len ih =>
      intro i hi
      -- The upper bytes are those of `n / 256`, and the last one is `n` modulo `256`.
      rcases Nat.lt_succ_iff_lt_or_eq.mp hi with hlt | rfl
      · have hexponent : len + 1 - 1 - i = len - 1 - i + 1 := by omega
        rw [ofNat, List.getElem?_append_left (by rwa [length_ofNat]), ih (n / 256) i hlt,
          Nat.div_div_eq_div_mul, ← pow_succ', hexponent]
      · rw [ofNat, List.getElem?_append_right (length_ofNat i _).le, length_ofNat]
        simp

/-- The digits that a width has room for are those of the residue. -/
theorem isBigEndian_residue (len n : Nat) :
    IsBigEndian len (n % 2 ^ (8 * len)) (ofNat len n) := by
  have hpow : 2 ^ (8 * len) = 256 ^ len := pow_mul 2 8 len
  rw [hpow, ← ofNat_mod]
  exact isBigEndian_ofNat len _

end Bytes

/-! ## Points -/

namespace Point

theorem encode_affine (width x y : Nat) :
    encode width (.affine x y) = Bytes.ofNat width x ++ Bytes.ofNat width y := by
  rw [encode, Bytes.fit_minimal, Bytes.fit_minimal]

theorem decode_encode_infinity (width : Nat) :
    decode width (encode width .infinity) = .ok .infinity := by
  rw [decode, if_neg (not_not.mpr (length_encode width .infinity)), if_pos]
  simp [encode]

/-- What is left of coordinates in a fixed width. If nothing is left of either, then the bytes are
those of infinity. -/
theorem decode_encode_affine (width x y : Nat) :
    decode width (encode width (.affine x y)) =
      if x % 256 ^ width = 0 ∧ y % 256 ^ width = 0 then .ok .infinity
      else .ok (.affine (x % 256 ^ width) (y % 256 ^ width)) := by
  have hlength := Bytes.length_ofNat width x
  rw [decode, if_neg (not_not.mpr (length_encode width _))]
  simp only [encode_affine, List.all_append, Bool.and_eq_true, Bytes.all_zero_iff,
    Bytes.toNat_ofNat, List.take_left' hlength, List.drop_left' hlength]

/-- Only a wrong length is refused here. Whether the point is on the curve is another matter. -/
theorem decode_eq_error_iff {width : Nat} {bs : Bytes} {e : ElementError} :
    decode width bs = .error e ↔
      bs.length ≠ 2 * width ∧ e = .wrongLength (2 * width) bs.length := by
  unfold decode
  by_cases hlength : bs.length = 2 * width
  · rw [if_neg (not_not.mpr hlength)]
    split <;> simp [hlength]
  · rw [if_pos hlength]
    simp [hlength, eq_comm]

/-- The zero bytes are the only encoding of infinity, and other bytes keep both coordinates. -/
theorem encode_of_decode {width : Nat} {bs : Bytes} {p : Point} (h : decode width bs = .ok p) :
    p.encode width = bs := by
  unfold decode at h
  by_cases hlength : bs.length = 2 * width
  · rw [if_neg (not_not.mpr hlength)] at h
    by_cases hzero : bs.all (· == 0) = true
    · rw [if_pos hzero] at h
      cases h
      refine (List.eq_replicate_iff.mpr ⟨hlength, ?_⟩).symm
      simpa using hzero
    · rw [if_neg hzero] at h
      cases h
      have hpart {part : Bytes} (hpart : part.length = width) :
          Bytes.ofNat width (Bytes.toNat part) = part := by
        rw [← hpart, Bytes.ofNat_toNat]
      have hx : (bs.take width).length = width := by
        rw [List.length_take]
        omega
      have hy : (bs.drop width).length = width := by
        rw [List.length_drop]
        omega
      rw [encode_affine, hpart hx, hpart hy, List.take_append_drop]
  · rw [if_pos hlength] at h
    cases h

theorem exists_decode {width : Nat} {bs : Bytes} (h : bs.length = 2 * width) :
    ∃ p, decode width bs = .ok p := by
  rcases hdecode : decode width bs with e | p
  · exact absurd h (decode_eq_error_iff.mp hdecode).1
  · exact ⟨p, rfl⟩

/-! ## Both directions -/

/-- How coordinates of any size are packed in two fixed widths, and split again. -/
structure PacksCoordinates (width : Nat) : Prop where
  length_eq (x y : Nat) : (encode width (.affine x y)).length = 2 * width
  /-- The first half is the residue of the abscissa, and depends on nothing else. -/
  abscissa (x y : Nat) :
    Bytes.IsBigEndian width (x % 2 ^ (8 * width)) ((encode width (.affine x y)).take width)
  /-- The second half is the residue of the ordinate. -/
  ordinate (x y : Nat) :
    Bytes.IsBigEndian width (y % 2 ^ (8 * width)) ((encode width (.affine x y)).drop width)
  /-- Just these residues are read, or infinity if both of them are zero. -/
  reads_residues (x y : Nat) : decode width (encode width (.affine x y)) =
    .ok (if x % 2 ^ (8 * width) = 0 ∧ y % 2 ^ (8 * width) = 0 then .infinity
      else .affine (x % 2 ^ (8 * width)) (y % 2 ^ (8 * width)))
  /-- Every byte string of the right length is read, and written again. -/
  writes_back {bs : Bytes} : bs.length = 2 * width →
    ∃ p, decode width bs = .ok p ∧ encode width p = bs

/-- **Packing of coordinates.** In every width, zero included, each coordinate has a half of the
encoding, whatever the sizes of the two. -/
theorem packsCoordinates (width : Nat) : PacksCoordinates width where
  length_eq x y := length_encode width (.affine x y)
  abscissa := by
    intro x y
    rw [encode_affine, List.take_left' (Bytes.length_ofNat width x)]
    exact Bytes.isBigEndian_residue width x
  ordinate := by
    intro x y
    rw [encode_affine, List.drop_left' (Bytes.length_ofNat width x)]
    exact Bytes.isBigEndian_residue width y
  reads_residues := by
    intro x y
    have hpow : 2 ^ (8 * width) = 256 ^ width := pow_mul 2 8 width
    rw [hpow, decode_encode_affine]
    split <;> rfl
  writes_back := by
    intro bs hlength
    obtain ⟨p, hdecode⟩ := exists_decode hlength
    exact ⟨p, hdecode, encode_of_decode hdecode⟩

/-- An abscissa of five bytes in a width of four loses its first byte, and the ordinate stays where
it is. -/
theorem packsCoordinates_four :
    let bs : Bytes := [0x0b, 0x0c, 0x0d, 0x0e, 0, 0, 0, 3]
    encode 4 (.affine 0x0a0b0c0d0e 3) = bs ∧ decode 4 bs = .ok (.affine 0x0b0c0d0e 3) ∧
      bs.length = 2 * 4 ∧ ∃ p, decode 4 bs = .ok p ∧ encode 4 p = bs := by
  intro bs
  have hencode : encode 4 (.affine 0x0a0b0c0d0e 3) = bs := by decide +kernel
  have hdecode := (packsCoordinates 4).reads_residues 0x0a0b0c0d0e 3
  rw [hencode] at hdecode
  exact ⟨hencode, hdecode, rfl, (packsCoordinates 4).writes_back rfl⟩

end Point

end SigmaProtocol
