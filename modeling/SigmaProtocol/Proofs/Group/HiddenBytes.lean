import SigmaProtocol.Group.Secp256k1
import SigmaProtocol.Proofs.Curve.Secp256k1
import SigmaProtocol.Proofs.Curve.SquareRoot
import SigmaProtocol.Proofs.Limbs

/-!
# Byte strings hidden in points of secp256k1

The 32 bytes of an abscissa hold the length of a byte string, its bytes, zero bytes up to the 31st,
and a counter. A counter that does not lead to a point is followed by the next one. Whatever counter
the search ends with, the length says which of the bytes before it belong to the byte string, so
that zero bytes at its end are not mistaken for padding.

* `Secp256k1.encodeBytes_eq_ok_iff`: the point that hides a byte string.
* `Secp256k1.decodeElement_eq_ok_iff`: the byte string that a point hides.
* `Secp256k1.hidesBytes`: what is hidden is found, and all outcomes of both directions.
-/

namespace SigmaProtocol

/-- The value at the first index that has one. -/
theorem findSome?_range_eq_some_iff {α : Type} {f : Nat → Option α} {count : Nat} {a : α} :
    (List.range count).findSome? f = some a ↔
      ∃ i < count, f i = some a ∧ ∀ k < i, f k = none := by
  induction count with
  | zero => simp
  | succ count ih =>
    rw [List.range_succ, List.findSome?_append, Option.or_eq_some_iff, ih,
      List.findSome?_eq_none_iff]
    simp only [List.mem_range, List.findSome?_singleton]
    constructor
    · rintro (⟨i, hi, h⟩ | ⟨hnone, h⟩)
      · exact ⟨i, hi.trans count.lt_succ_self, h⟩
      · exact ⟨count, count.lt_succ_self, h, hnone⟩
    · rintro ⟨i, hi, h, hnone⟩
      rcases Nat.lt_succ_iff_lt_or_eq.mp hi with hlt | rfl
      · exact .inl ⟨i, hlt, h, hnone⟩
      · exact .inr ⟨hnone, h⟩

namespace Secp256k1

variable {bs : Bytes} {p : Point}

/-! ## Hiding -/

/-- The bytes of an abscissa. -/
theorem ofNat_abscissa (h : bs.length ≤ maxEncodable) (counter : Nat) :
    Bytes.ofNat width (abscissa bs counter) =
      UInt8.ofNat bs.length :: (bs ++ (List.replicate (maxEncodable - bs.length) 0 ++
        [UInt8.ofNat counter])) := by
  have hwidth : width = maxEncodable + 2 := rfl
  have hlength : (UInt8.ofNat bs.length :: bs ++ List.replicate (maxEncodable - bs.length) 0 ++
      [UInt8.ofNat counter]).length = width := by
    simp only [List.cons_append, List.length_append, List.length_cons, List.length_replicate,
      List.length_nil]
    omega
  rw [abscissa, ← hlength, Bytes.ofNat_toNat, List.cons_append, List.cons_append,
    List.append_assoc]

theorem encodeBytes_of_lt (h : maxEncodable < bs.length) :
    encodeBytes bs = .error (.wrongLength maxEncodable bs.length) := if_pos h

theorem encodeBytes_of_le (h : bs.length ≤ maxEncodable) : encodeBytes bs =
    ((List.range 256).findSome? fun counter => curve.liftEven? (abscissa bs counter)).elim
      (.error .invalidElement) .ok := by
  rw [encodeBytes, if_neg (Nat.not_lt.mpr h)]
  split
  · next hnone => rw [hnone, Option.elim_none]
  · next hsome => rw [hsome, Option.elim_some]

theorem encodeBytes_eq_ok_iff : encodeBytes bs = .ok p ↔ bs.length ≤ maxEncodable ∧
    ∃ counter < 256, curve.liftEven? (abscissa bs counter) = some p ∧
      ∀ k < counter, curve.liftEven? (abscissa bs k) = none := by
  rw [← findSome?_range_eq_some_iff]
  rcases Nat.lt_or_ge maxEncodable bs.length with h | h
  · simp [encodeBytes_of_lt h, Nat.not_le.mpr h]
  · rw [encodeBytes_of_le h, and_iff_right h]
    rcases List.findSome? _ (List.range 256) with _ | q <;> simp

theorem encodeBytes_eq_error_iff {e : ElementError} : encodeBytes bs = .error e ↔
    maxEncodable < bs.length ∧ e = .wrongLength maxEncodable bs.length ∨
      bs.length ≤ maxEncodable ∧ e = .invalidElement ∧
        ∀ counter < 256, curve.liftEven? (abscissa bs counter) = none := by
  rcases Nat.lt_or_ge maxEncodable bs.length with h | h
  · simp [encodeBytes_of_lt h, h, Nat.not_le.mpr h, eq_comm]
  · rw [encodeBytes_of_le h]
    rcases hfind : List.findSome? _ (List.range 256) with _ | q
    · rw [List.findSome?_eq_none_iff] at hfind
      have hnone : ∀ counter < 256, curve.liftEven? (abscissa bs counter) = none :=
        fun counter hlt => hfind counter (List.mem_range.mpr hlt)
      constructor
      · intro he
        cases he
        exact .inr ⟨h, rfl, hnone⟩
      · rintro (⟨hlt, -⟩ | ⟨-, rfl, -⟩)
        · exact absurd h (Nat.not_le.mpr hlt)
        · rfl
    · obtain ⟨counter, hlt, hsome, -⟩ := findSome?_range_eq_some_iff.mp hfind
      have hfound : ¬ ∀ counter < 256, curve.liftEven? (abscissa bs counter) = none := by
        intro hnone
        rw [hnone counter hlt] at hsome
        cases hsome
      simp [Nat.not_lt.mpr h, hfound]

/-! ## Finding -/

/-- The abscissa has its full width, so that there always is a byte for the length. -/
theorem decodeElement_affine (x y : Nat) : ∃ length rest,
    Bytes.ofNat width x = length :: rest ∧ maxEncodable < rest.length ∧
      decodeElement (.affine x y) = if maxEncodable < length.toNat then .error .invalidElement
        else .ok (rest.take length.toNat) := by
  have hlength := Bytes.length_ofNat width x
  rcases hbytes : Bytes.ofNat width x with _ | ⟨length, rest⟩
  · rw [hbytes] at hlength
    cases hlength
  · rw [hbytes, List.length_cons] at hlength
    have hwidth : width = maxEncodable + 2 := rfl
    refine ⟨length, rest, rfl, by omega, ?_⟩
    simp only [decodeElement, hbytes]

/-- The byte string that a point hides stands behind its length in the abscissa. -/
theorem decodeElement_eq_ok_iff : decodeElement p = .ok bs ↔ bs.length ≤ maxEncodable ∧
    ∃ x y rest, p = .affine x y ∧ Bytes.ofNat width x = UInt8.ofNat bs.length :: (bs ++ rest) := by
  constructor
  · intro h
    cases p with
    | infinity => cases h
    | affine x y =>
      obtain ⟨length, rest, hbytes, hrest, hdecode⟩ := decodeElement_affine x y
      rw [hdecode] at h
      split at h
      · cases h
      · next hle =>
        cases h
        -- There are at least as many bytes behind the length as it may say.
        have hlength : (rest.take length.toNat).length = length.toNat := by
          rw [List.length_take]
          omega
        rw [hlength, UInt8.ofNat_toNat]
        exact ⟨Nat.not_lt.mp hle, x, y, rest.drop length.toNat, rfl,
          by rw [List.take_append_drop, hbytes]⟩
  · rintro ⟨hle, x, y, rest, rfl, hbytes⟩
    have hword : bs.length < 256 := hle.trans_lt (by decide)
    have hlength : (UInt8.ofNat bs.length).toNat = bs.length := by
      rw [UInt8.toNat_ofNat', Nat.mod_eq_of_lt hword]
    simp only [decodeElement, hbytes, hlength, if_neg (Nat.not_lt.mpr hle), List.take_left]

theorem error_of_decodeElement {e : ElementError} (h : decodeElement p = .error e) :
    e = .invalidElement := by
  cases p with
  | infinity =>
    cases h
    rfl
  | affine x y =>
    obtain ⟨length, rest, -, -, hdecode⟩ := decodeElement_affine x y
    rw [hdecode] at h
    split at h <;> cases h
    rfl

/-! ## Both directions -/

/-- How byte strings are hidden in points, and found. -/
structure HidesBytes : Prop where
  /-- An abscissa that is tried holds the length, the bytes, zero bytes and the counter. -/
  abscissa_bytes {bs : Bytes} (counter : Nat) : bs.length ≤ 30 →
    Bytes.ofNat 32 (abscissa bs counter) =
      UInt8.ofNat bs.length :: (bs ++ (List.replicate (30 - bs.length) 0 ++
        [UInt8.ofNat counter]))
  /-- The first of these abscissas that occurs on the curve gives the point, with the even one of
  its two ordinates. -/
  encode_ok_iff {bs : Bytes} {p : Point} : encodeBytes bs = .ok p ↔ bs.length ≤ 30 ∧
    ∃ counter < 256,
      (∃ y, curve.contains (abscissa bs counter) y = true ∧ y % 2 = 0 ∧
        p = .affine (abscissa bs counter) y) ∧
      ∀ k < counter, ∀ y, curve.contains (abscissa bs k) y = false
  /-- A byte string is refused for its length, or because none of the abscissas occurs. -/
  encode_error_iff {bs : Bytes} {e : ElementError} : encodeBytes bs = .error e ↔
    30 < bs.length ∧ e = .wrongLength 30 bs.length ∨
      bs.length ≤ 30 ∧ e = .invalidElement ∧
        ∀ counter < 256, ∀ y, curve.contains (abscissa bs counter) y = false
  isMember_encode {bs : Bytes} {p : Point} : encodeBytes bs = .ok p →
    CurveGroup.secp256k1.isMember p = true
  /-- What is hidden is found. -/
  decode_encode {bs : Bytes} {p : Point} : encodeBytes bs = .ok p → decodeElement p = .ok bs
  /-- Different byte strings are hidden in different points. -/
  encode_inj {bs bs' : Bytes} {p : Point} : encodeBytes bs = .ok p → encodeBytes bs' = .ok p →
    bs = bs'
  /-- In any point at most 30 bytes are found, behind their number. -/
  decode_ok_iff {bs : Bytes} {p : Point} : decodeElement p = .ok bs ↔ bs.length ≤ 30 ∧
    ∃ x y rest, p = .affine x y ∧ Bytes.ofNat 32 x = UInt8.ofNat bs.length :: (bs ++ rest)
  /-- All other points are invalid. -/
  decode_error {p : Point} {e : ElementError} : decodeElement p = .error e → e = .invalidElement
  decode_infinity : decodeElement .infinity = .error .invalidElement

/-- **What is hidden is found**, whatever the length of the byte string and the counter. -/
theorem hidesBytes : HidesBytes := by
  have hmod : curve.p % 4 = 3 := by decide
  have hdecode {bs : Bytes} {p : Point} (h : encodeBytes bs = .ok p) :
      decodeElement p = .ok bs := by
    obtain ⟨hle, counter, -, hsome, -⟩ := encodeBytes_eq_ok_iff.mp h
    obtain ⟨y, -, -, rfl⟩ := (PrimeCurve.liftEven?_eq_some_iff hmod).mp hsome
    exact decodeElement_eq_ok_iff.mpr ⟨hle, _, y, _, rfl, ofNat_abscissa hle counter⟩
  exact {
    abscissa_bytes := fun counter hle => ofNat_abscissa hle counter
    encode_ok_iff := by
      intro bs p
      simp only [encodeBytes_eq_ok_iff, PrimeCurve.liftEven?_eq_some_iff hmod,
        PrimeCurve.liftEven?_eq_none_iff hmod]
      rfl
    encode_error_iff := by
      intro bs e
      simp only [encodeBytes_eq_error_iff, PrimeCurve.liftEven?_eq_none_iff hmod]
      rfl
    isMember_encode := by
      intro bs p h
      obtain ⟨-, counter, -, hsome, -⟩ := encodeBytes_eq_ok_iff.mp h
      obtain ⟨y, hcontains, -, rfl⟩ := (PrimeCurve.liftEven?_eq_some_iff hmod).mp hsome
      exact hcontains
    decode_encode := hdecode
    encode_inj := by
      intro bs bs' p h h'
      have hsame := hdecode h
      rw [hdecode h'] at hsame
      exact (Except.ok.inj hsame).symm
    decode_ok_iff := decodeElement_eq_ok_iff
    decode_error := error_of_decodeElement
    decode_infinity := rfl }

/-- The search for a point ends with the fourth counter, and the byte string with a zero byte. -/
theorem hidesBytes_counter_three :
    let p := Point.affine 0x0368690000000000000000000000000000000000000000000000000000000003
      0x927c7ec4a066ef9e7d5997b2fc16eaea690268e8725633fe6bee71f9836d208e
    encodeBytes [0x68, 0x69, 0] = .ok p ∧ decodeElement p = .ok [0x68, 0x69, 0] ∧
      encodeBytes (List.replicate 31 0) = .error (.wrongLength 30 31) := by
  intro p
  have hencode : encodeBytes [0x68, 0x69, 0] = .ok p := by decide +kernel
  refine ⟨hencode, hidesBytes.decode_encode hencode, ?_⟩
  exact hidesBytes.encode_error_iff.mpr (.inl ⟨by decide, rfl⟩)

end Secp256k1

end SigmaProtocol
