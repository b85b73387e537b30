import SigmaProtocol.Proofs.Curve.Checks
import SigmaProtocol.Proofs.Curve.Numeral

/-!
# What a curve table answers

The parameters of a curve are described by an entry of the table: each key that is needed is there,
writes a number in the grammar of tables, and the numbers fit together. The reader checks that key
by key, and where it refuses an entry its error names the first check that the entry fails. The
lists of checks are written down here apart from the reader, in terms of the entry alone.

* `CurveEntry.makes_binary`, `CurveEntry.makes_prime`: the reader makes the checks in their order.
* `CurveEntry.params_eq_ok_iff`: the entries that describe parameters are those that are read.
* `CurveTable.answersByEntry`: the answer for any name, from the entry that the table holds.
-/

namespace SigmaProtocol

namespace CurveEntry

variable {curve : String} {key : CurveKey} {value : Option String}

/-! ## Keys

What a check says of a key is said in terms of `Writes`, so that it does not depend on the reader
having come that far. -/

/-- The value of a key is present and a numeral of `n`. -/
def Writes (value : Option String) (n : Nat) : Prop :=
  ∃ text, value = some text ∧ Hex.Numeral text.toList n

/-- A text is a numeral of one number only. -/
theorem Writes.unique {n n' : Nat} (h : Writes value n) (h' : Writes value n') : n = n' := by
  obtain ⟨text, rfl, hn⟩ := h
  obtain ⟨text', htext, hn'⟩ := h'
  cases htext
  exact Option.some.inj (hn.natural?_eq.symm.trans hn'.natural?_eq)

/-- Once the number of a key has been read, a check of it is a check of that number. -/
theorem Writes.exists_iff {n : Nat} (h : Writes value n) (p : Nat → Prop) :
    (∃ n, Writes value n ∧ p n) ↔ p n :=
  ⟨fun ⟨_, h', hp⟩ => h.unique h' ▸ hp, fun hp => ⟨n, h, hp⟩⟩

/-- The checks of a key that must be present and write a number with the property `p`. -/
def numberChecks (p : Nat → Prop) (curve : String) (key : CurveKey) (value : Option String) :
    List (Check TableError) :=
  [⟨value.isSome, .missingKey curve key⟩,
    ⟨∃ n, Writes value n ∧ p n, .malformedValue curve key⟩]

theorem Writes.holds {n : Nat} {p : Nat → Prop} (h : Writes value n) (hp : p n) :
    ∀ c ∈ numberChecks p curve key value, c.holds := by
  obtain ⟨text, rfl, -⟩ := id h
  simp only [numberChecks, List.forall_mem_cons]
  exact ⟨rfl, ⟨n, h, hp⟩, nofun⟩

theorem makes_require {p q : Prop} [Decidable p] {e : TableError} (h : p ↔ q) :
    Makes (require p e) [⟨q, e⟩] fun _ => True := by
  unfold require
  split
  · next hp => exact .ok (by simpa using h.mp hp) trivial
  · next hp => exact .error (.head (mt h.mpr hp))

theorem makes_present {α : Type} {value : Option α} :
    Makes (present curve key value) [⟨value.isSome, .missingKey curve key⟩] (value = some ·) := by
  cases value with
  | none => exact .error (.head nofun)
  | some v => exact .ok (by simp) rfl

theorem writes_some_iff {text : String} {n : Nat} :
    Writes (some text) n ↔ Hex.natural? text = some n := by
  simp [Writes, Hex.natural?_eq_some_iff]

theorem require_bind_pure {α : Type} {p : α → Prop} {a : α} [Decidable (p a)] {e : TableError} :
    (do let ⟨h⟩ ← require (p a) e; return ⟨a, h⟩ : Except TableError { a : α // p a }) =
      if h : p a then .ok ⟨a, h⟩ else .error e := by
  unfold require
  split
  · rfl
  · rfl

theorem numberWith_some (p : Nat → Prop) [DecidablePred p] (text : String) :
    numberWith p curve key (some text) =
      match Hex.natural? text with
      | none => .error (.malformedValue curve key)
      | some n => if h : p n then .ok ⟨n, h⟩ else .error (.malformedValue curve key) := by
  simp only [numberWith, number, present, bind, Except.bind]
  cases Hex.natural? text with
  | none => rfl
  | some n => exact require_bind_pure

/-- A number is read through the two checks of its key. -/
theorem makes_numberWith {p q : Nat → Prop} [DecidablePred p] (h : ∀ n, p n ↔ q n) :
    Makes (numberWith p curve key value) (numberChecks q curve key value)
      (Writes value ·.val) := by
  cases value with
  | none => exact .error (.head nofun)
  | some text =>
    have hmalformed (hn : ¬ ∃ n, Writes (some text) n ∧ q n) :
        FirstFailure (numberChecks q curve key (some text)) (.malformedValue curve key) :=
      .tail rfl (.head hn)
    rw [numberWith_some]
    split
    · next hnone => exact .error (hmalformed (by simp [writes_some_iff, hnone]))
    · next n hsome =>
      have hwrites : Writes (some text) n := writes_some_iff.mpr hsome
      split
      · next hn => exact .ok (by simpa [numberChecks] using ⟨n, hwrites, (h n).mp hn⟩) hwrites
      · next hn => exact .error (hmalformed ((hwrites.exists_iff q).not.mpr (mt (h n).mpr hn)))

/-- The entry gives the middle exponents of a basis: one for a trinomial, three for a
pentanomial. -/
def GivesBasis (entry : CurveEntry) : Basis → Prop
  | .trinomial k => entry.k1.map UInt32.toNat = some k ∧ entry.k2 = none ∧ entry.k3 = none
  | .pentanomial k1 k2 k3 => entry.k1.map UInt32.toNat = some k1 ∧
      entry.k2.map UInt32.toNat = some k2 ∧ entry.k3.map UInt32.toNat = some k3

/-- Of the two kinds only a pentanomial has a second exponent, so that no entry gives both. -/
theorem GivesBasis.unique {entry : CurveEntry} {b b' : Basis} (h : entry.GivesBasis b)
    (h' : entry.GivesBasis b') : b = b' := by
  cases b <;> cases b' <;> grind [GivesBasis]

theorem GivesBasis.isSome_k1 {entry : CurveEntry} {b : Basis} (h : entry.GivesBasis b) :
    entry.k1.isSome := by
  cases b with
  | trinomial k => simpa using congrArg Option.isSome h.1
  | pentanomial k1 k2 k3 => simpa using congrArg Option.isSome h.1

theorem basis_of_givesBasis {entry : CurveEntry} {m : Nat} {b : Basis} (h : entry.GivesBasis b) :
    entry.basis curve m =
      if hb : b.Valid m then .ok ⟨b, hb⟩ else .error (.malformedBasis curve) := by
  cases b with
  | trinomial k =>
    obtain ⟨h1, hk2, hk3⟩ := h
    obtain ⟨k1, hk1, rfl⟩ := Option.map_eq_some_iff.mp h1
    simp only [basis, hk1, hk2, hk3]
    exact require_bind_pure
  | pentanomial k1 k2 k3 =>
    obtain ⟨h1, h2, h3⟩ := h
    obtain ⟨k1, hk1, rfl⟩ := Option.map_eq_some_iff.mp h1
    obtain ⟨k2, hk2, rfl⟩ := Option.map_eq_some_iff.mp h2
    obtain ⟨k3, hk3, rfl⟩ := Option.map_eq_some_iff.mp h3
    simp only [basis, hk1, hk2, hk3]
    exact require_bind_pure

/-- An entry with two middle exponents, or with a gap between them, is refused. -/
theorem basis_of_not_givesBasis {entry : CurveEntry} {m : Nat} (hk1 : entry.k1.isSome)
    (h : ∀ b, ¬ entry.GivesBasis b) : entry.basis curve m = .error (.malformedBasis curve) := by
  obtain ⟨k1, hk1⟩ := Option.isSome_iff_exists.mp hk1
  cases hk2 : entry.k2 with
  | none =>
    cases hk3 : entry.k3 with
    | none => exact absurd (by simp [GivesBasis, hk1, hk2, hk3]) (h (.trinomial k1.toNat))
    | some k3 =>
      simp only [basis, hk1, hk2, hk3]
      rfl
  | some k2 =>
    cases hk3 : entry.k3 with
    | none =>
      simp only [basis, hk1, hk2, hk3]
      rfl
    | some k3 =>
      exact absurd (by simp [GivesBasis, hk1, hk2, hk3])
        (h (.pentanomial k1.toNat k2.toNat k3.toNat))

/-- The checks of the basis, for a field of the degree that the entry gives. -/
def basisChecks (entry : CurveEntry) (curve : String) : List (Check TableError) :=
  [⟨entry.k1.isSome, .missingKey curve .k1⟩,
    ⟨∃ m b, entry.m = some m ∧ entry.GivesBasis b ∧ b.Valid m.toNat, .malformedBasis curve⟩]

/-- The basis is read through the presence of its first exponent and the validity of the whole. -/
theorem makes_basis {entry : CurveEntry} {m : UInt32} (hm : entry.m = some m) :
    Makes (entry.basis curve m.toNat) (entry.basisChecks curve) (entry.GivesBasis ·.val) := by
  by_cases hk1 : entry.k1.isSome
  · have hmalformed (h : ∀ b, entry.GivesBasis b → ¬ b.Valid m.toNat) :
        FirstFailure (entry.basisChecks curve) (.malformedBasis curve) := by
      refine .tail hk1 (.head ?_)
      rintro ⟨m', b, hm', hb, hvalid⟩
      rw [hm, Option.some.injEq] at hm'
      exact h b hb (hm' ▸ hvalid)
    by_cases hgives : ∃ b, entry.GivesBasis b
    · obtain ⟨b, hb⟩ := hgives
      rw [basis_of_givesBasis hb]
      split
      · next hvalid => exact .ok (by simpa [basisChecks, hk1] using ⟨m, hm, b, hb, hvalid⟩) hb
      · next hvalid => exact .error (hmalformed fun b' hb' => hb.unique hb' ▸ hvalid)
    · rw [basis_of_not_givesBasis hk1 (not_exists.mp hgives)]
      exact .error (hmalformed fun b hb => absurd ⟨b, hb⟩ hgives)
  · have hnone : entry.basis curve m.toNat = .error (.missingKey curve .k1) := by
      simp only [basis, Option.not_isSome_iff_eq_none.mp hk1]
      rfl
    rw [hnone]
    exact .error (.head hk1)

/-! ## Binary curves -/

/-- `n` fits a field of the degree that the entry gives. -/
def FitsField (entry : CurveEntry) (n : Nat) : Prop := ∃ m, entry.m = some m ∧ n < 2 ^ m.toNat

/-- The checks of an entry for a binary curve, key by key. -/
def binaryChecks (entry : CurveEntry) (curve : String) : List (List (Check TableError)) :=
  [[⟨entry.m.isSome, .missingKey curve .m⟩],
    [⟨∃ m, entry.m = some m ∧ 2 ≤ m.toNat, .malformedValue curve .m⟩],
    entry.basisChecks curve,
    numberChecks entry.FitsField curve .a entry.a,
    numberChecks entry.FitsField curve .b entry.b,
    [⟨∃ b, Writes entry.b b ∧ b ≠ 0, .malformedValue curve .b⟩],
    numberChecks entry.FitsField curve .gx entry.gx,
    numberChecks entry.FitsField curve .gy entry.gy,
    numberChecks (1 < ·) curve .order entry.order,
    numberChecks (1 ≤ ·) curve .cofactor entry.cofactor,
    [⟨entry.koblitz = true → ∃ a, Writes entry.a a ∧ a ≤ 1, .malformedValue curve .a⟩],
    [⟨entry.koblitz = true → ∃ b, Writes entry.b b ∧ b = 1, .malformedValue curve .b⟩]]

/-- The entry describes the parameters of a curve over a binary field: these are their values, and
they are well-formed. -/
structure DescribesBinaryCurve (entry : CurveEntry) (curve : String) (params : BinaryCurveParams) :
    Prop where
  name : params.name = curve
  m : entry.m.map UInt32.toNat = some params.m ∧ 2 ≤ params.m
  basis : entry.GivesBasis params.basis ∧ params.basis.Valid params.m
  a : Writes entry.a params.a ∧ params.a < 2 ^ params.m
  b : Writes entry.b params.b ∧ params.b < 2 ^ params.m ∧ params.b ≠ 0
  gx : Writes entry.gx params.generatorX ∧ params.generatorX < 2 ^ params.m
  gy : Writes entry.gy params.generatorY ∧ params.generatorY < 2 ^ params.m
  order : Writes entry.order params.order ∧ 1 < params.order
  cofactor : Writes entry.cofactor params.cofactor ∧ 1 ≤ params.cofactor

/-- The entry describes the parameters of a group over a binary curve. -/
structure DescribesBinary (entry : CurveEntry) (curve : String) (params : BinaryGroupParams) :
    Prop where
  curve : entry.DescribesBinaryCurve curve params.curve
  koblitz_eq : params.koblitz = entry.koblitz
  koblitz : entry.koblitz = true → params.curve.a ≤ 1 ∧ params.curve.b = 1

theorem DescribesBinary.unique {entry : CurveEntry} {params params' : BinaryGroupParams}
    (h : entry.DescribesBinary curve params) (h' : entry.DescribesBinary curve params') :
    params = params' := by
  obtain ⟨⟨hname, hm, hbasis, ha, hb, hgx, hgy, horder, hcofactor⟩, hkoblitz, -⟩ := h
  obtain ⟨⟨hname', hm', hbasis', ha', hb', hgx', hgy', horder', hcofactor'⟩, hkoblitz', -⟩ := h'
  obtain ⟨⟨⟩, _, _⟩ := params
  obtain ⟨⟨⟩, _, _⟩ := params'
  rw [BinaryGroupParams.mk.injEq, BinaryCurveParams.mk.injEq]
  exact ⟨⟨hname.trans hname'.symm, Option.some.inj (hm.1.symm.trans hm'.1),
    hbasis.1.unique hbasis'.1, ha.1.unique ha'.1, hb.1.unique hb'.1, hgx.1.unique hgx'.1,
    hgy.1.unique hgy'.1, horder.1.unique horder'.1, hcofactor.1.unique hcofactor'.1⟩,
    hkoblitz.trans hkoblitz'.symm⟩

theorem DescribesBinary.holds {entry : CurveEntry} {params : BinaryGroupParams}
    (h : entry.DescribesBinary curve params) :
    ∀ c ∈ (entry.binaryChecks curve).flatten, c.holds := by
  obtain ⟨⟨-, hm, hbasis, ha, hb, hgx, hgy, horder, hcofactor⟩, -, hkoblitz⟩ := h
  obtain ⟨m, hm', hdegree⟩ := Option.map_eq_some_iff.mp hm.1
  have hfits {n : Nat} (h : n < 2 ^ params.curve.m) : entry.FitsField n := ⟨m, hm', hdegree ▸ h⟩
  refine List.forall_mem_flatten.mpr ?_
  simp only [binaryChecks, basisChecks, List.forall_mem_cons]
  refine ⟨⟨by simp [hm'], nofun⟩, ⟨⟨m, hm', hdegree ▸ hm.2⟩, nofun⟩,
    ⟨hbasis.1.isSome_k1, ⟨m, params.curve.basis, hm', hbasis.1, hdegree ▸ hbasis.2⟩, nofun⟩,
    ha.1.holds (hfits ha.2), hb.1.holds (hfits hb.2.1), ⟨⟨_, hb.1, hb.2.2⟩, nofun⟩,
    hgx.1.holds (hfits hgx.2), hgy.1.holds (hfits hgy.2), horder.1.holds horder.2,
    hcofactor.1.holds hcofactor.2, ⟨fun h => ⟨_, ha.1, (hkoblitz h).1⟩, nofun⟩,
    ⟨fun h => ⟨_, hb.1, (hkoblitz h).2⟩, nofun⟩, nofun⟩

/-- The reader of binary curves makes the checks in their order. -/
theorem makes_binary (entry : CurveEntry) (curve : String) : Makes (entry.binary curve)
    (entry.binaryChecks curve).flatten (entry.DescribesBinary curve) := by
  unfold binary binaryChecks
  refine makes_present.bind_flatten fun m hm => ?_
  have hfits (n : Nat) : bitLength n ≤ m.toNat ↔ entry.FitsField n := by
    simp [FitsField, hm, bitLength_le_iff_lt]
  refine (makes_require (by simp [hm])).bind_flatten ?_
  rintro ⟨two_le_m⟩ -
  refine (makes_basis hm).bind_flatten ?_
  rintro ⟨basis, basis_valid⟩ hbasis
  refine (makes_numberWith hfits).bind_flatten ?_
  rintro ⟨a, a_fits⟩ ha
  refine (makes_numberWith hfits).bind_flatten ?_
  rintro ⟨b, b_fits⟩ hb
  have hb0 : b ≠ 0 ↔ ∃ b, Writes entry.b b ∧ b ≠ 0 := (hb.exists_iff (· ≠ 0)).symm
  refine (makes_require hb0).bind_flatten ?_
  rintro ⟨b_ne_zero⟩ -
  refine (makes_numberWith hfits).bind_flatten ?_
  rintro ⟨generatorX, generatorX_fits⟩ hgx
  refine (makes_numberWith hfits).bind_flatten ?_
  rintro ⟨generatorY, generatorY_fits⟩ hgy
  refine (makes_numberWith fun _ => Iff.rfl).bind_flatten ?_
  rintro ⟨order, one_lt_order⟩ horder
  refine (makes_numberWith fun _ => Nat.one_le_iff_ne_zero.symm).bind_flatten ?_
  rintro ⟨cofactor, cofactor_ne_zero⟩ hcofactor
  -- Everything is read; only the checks of a Koblitz curve are left.
  dsimp -zeta only
  extract_lets params
  have hparams : entry.DescribesBinaryCurve curve params := {
    name := rfl
    m := ⟨by rw [hm]; rfl, two_le_m⟩
    basis := ⟨hbasis, basis_valid⟩
    a := ⟨ha, bitLength_le_iff_lt.mp a_fits⟩
    b := ⟨hb, bitLength_le_iff_lt.mp b_fits, b_ne_zero⟩
    gx := ⟨hgx, bitLength_le_iff_lt.mp generatorX_fits⟩
    gy := ⟨hgy, bitLength_le_iff_lt.mp generatorY_fits⟩
    order := ⟨horder, one_lt_order⟩
    cofactor := ⟨hcofactor, Nat.one_le_iff_ne_zero.mpr cofactor_ne_zero⟩ }
  by_cases hkoblitz : entry.koblitz = true
  · simp only [hkoblitz, if_true, true_imp_iff]
    have ha1 : a ≤ 1 ↔ ∃ a, Writes entry.a a ∧ a ≤ 1 := (ha.exists_iff (· ≤ 1)).symm
    have hb1 : b = 1 ↔ ∃ b, Writes entry.b b ∧ b = 1 := (hb.exists_iff (· = 1)).symm
    refine (makes_require ha1).bind_flatten ?_
    rintro ⟨a_le_one⟩ -
    refine (makes_require hb1).bind_flatten ?_
    rintro ⟨b_eq_one⟩ -
    exact .ok nofun ⟨hparams, hkoblitz.symm, fun _ => ⟨a_le_one, b_eq_one⟩⟩
  · simp only [hkoblitz]
    exact .ok (by simp) ⟨hparams, (Bool.not_eq_true _ ▸ hkoblitz).symm, fun h => absurd h hkoblitz⟩

/-! ## Prime curves -/

/-- `n` is below the modulus that the entry gives. -/
def IsResidue (entry : CurveEntry) (n : Nat) : Prop := ∃ p, Writes entry.p p ∧ n < p

/-- The checks of an entry for a prime curve, key by key. -/
def primeChecks (entry : CurveEntry) (curve : String) : List (List (Check TableError)) :=
  [numberChecks (3 < ·) curve .p entry.p,
    numberChecks entry.IsResidue curve .a entry.a,
    numberChecks entry.IsResidue curve .b entry.b,
    numberChecks entry.IsResidue curve .gx entry.gx,
    numberChecks entry.IsResidue curve .gy entry.gy,
    numberChecks (1 < ·) curve .order entry.order,
    numberChecks (1 ≤ ·) curve .cofactor entry.cofactor]

/-- The entry describes the parameters of a curve over a prime field: these are their values, and
they are well-formed. -/
structure DescribesPrime (entry : CurveEntry) (curve : String) (params : PrimeCurveParams) :
    Prop where
  name : params.name = curve
  p : Writes entry.p params.p ∧ 3 < params.p
  a : Writes entry.a params.a ∧ params.a < params.p
  b : Writes entry.b params.b ∧ params.b < params.p
  gx : Writes entry.gx params.generatorX ∧ params.generatorX < params.p
  gy : Writes entry.gy params.generatorY ∧ params.generatorY < params.p
  order : Writes entry.order params.order ∧ 1 < params.order
  cofactor : Writes entry.cofactor params.cofactor ∧ 1 ≤ params.cofactor

theorem DescribesPrime.unique {entry : CurveEntry} {params params' : PrimeCurveParams}
    (h : entry.DescribesPrime curve params) (h' : entry.DescribesPrime curve params') :
    params = params' := by
  obtain ⟨hname, hp, ha, hb, hgx, hgy, horder, hcofactor⟩ := h
  obtain ⟨hname', hp', ha', hb', hgx', hgy', horder', hcofactor'⟩ := h'
  obtain ⟨⟩ := params
  obtain ⟨⟩ := params'
  rw [PrimeCurveParams.mk.injEq]
  exact ⟨hname.trans hname'.symm, hp.1.unique hp'.1, ha.1.unique ha'.1, hb.1.unique hb'.1,
    hgx.1.unique hgx'.1, hgy.1.unique hgy'.1, horder.1.unique horder'.1,
    hcofactor.1.unique hcofactor'.1⟩

theorem DescribesPrime.holds {entry : CurveEntry} {params : PrimeCurveParams}
    (h : entry.DescribesPrime curve params) :
    ∀ c ∈ (entry.primeChecks curve).flatten, c.holds := by
  obtain ⟨-, hp, ha, hb, hgx, hgy, horder, hcofactor⟩ := h
  have hresidue {n : Nat} (h : n < params.p) : entry.IsResidue n := ⟨params.p, hp.1, h⟩
  refine List.forall_mem_flatten.mpr ?_
  simp only [primeChecks, List.forall_mem_cons]
  exact ⟨hp.1.holds hp.2, ha.1.holds (hresidue ha.2), hb.1.holds (hresidue hb.2),
    hgx.1.holds (hresidue hgx.2), hgy.1.holds (hresidue hgy.2), horder.1.holds horder.2,
    hcofactor.1.holds hcofactor.2, nofun⟩

theorem makes_prime (entry : CurveEntry) (curve : String) : Makes (entry.prime curve)
    (entry.primeChecks curve).flatten (entry.DescribesPrime curve) := by
  unfold prime primeChecks
  refine (makes_numberWith fun _ => Iff.rfl).bind_flatten ?_
  rintro ⟨p, three_lt_p⟩ hp
  have hresidue (n : Nat) : n < p ↔ entry.IsResidue n := (hp.exists_iff (n < ·)).symm
  refine (makes_numberWith hresidue).bind_flatten ?_
  rintro ⟨a, a_lt⟩ ha
  refine (makes_numberWith hresidue).bind_flatten ?_
  rintro ⟨b, b_lt⟩ hb
  refine (makes_numberWith hresidue).bind_flatten ?_
  rintro ⟨generatorX, generatorX_lt⟩ hgx
  refine (makes_numberWith hresidue).bind_flatten ?_
  rintro ⟨generatorY, generatorY_lt⟩ hgy
  refine (makes_numberWith fun _ => Iff.rfl).bind_flatten ?_
  rintro ⟨order, one_lt_order⟩ horder
  refine (makes_numberWith fun _ => Nat.one_le_iff_ne_zero.symm).bind_flatten ?_
  rintro ⟨cofactor, cofactor_ne_zero⟩ hcofactor
  exact .ok nofun {
    name := rfl
    p := ⟨hp, three_lt_p⟩
    a := ⟨ha, a_lt⟩
    b := ⟨hb, b_lt⟩
    gx := ⟨hgx, generatorX_lt⟩
    gy := ⟨hgy, generatorY_lt⟩
    order := ⟨horder, one_lt_order⟩
    cofactor := ⟨hcofactor, Nat.one_le_iff_ne_zero.mpr cofactor_ne_zero⟩ }

/-! ## Entries of either kind -/

/-- The checks of an entry. -/
def checks (entry : CurveEntry) (curve : String) : List (Check TableError) :=
  if entry.field = "F2m" then (entry.binaryChecks curve).flatten
  else if entry.field = "Fp" then (entry.primeChecks curve).flatten
  else [⟨False, .unsupportedField curve entry.field⟩]

/-- The entry describes the parameters of a group. -/
inductive Describes (entry : CurveEntry) (curve : String) : CurveParams → Prop
  | binary {params : BinaryGroupParams} (field : entry.field = "F2m")
    (h : entry.DescribesBinary curve params) : Describes entry curve (.binary params)
  | prime {params : PrimeCurveParams} (field : entry.field = "Fp")
    (h : entry.DescribesPrime curve params) : Describes entry curve (.prime params)

theorem Describes.unique {entry : CurveEntry} {params params' : CurveParams}
    (h : entry.Describes curve params) (h' : entry.Describes curve params') :
    params = params' := by
  cases h with
  | binary field h =>
    cases h' with
    | binary _ h' => rw [h.unique h']
    | prime field' _ => simp [field] at field'
  | prime field h =>
    cases h' with
    | binary field' _ => simp [field] at field'
    | prime _ h' => rw [h.unique h']

/-- The name of the field decides between the two readers. -/
theorem makes_params (entry : CurveEntry) (curve : String) :
    Makes (entry.params curve) (entry.checks curve) (entry.Describes curve) := by
  unfold params checks
  split
  · next hfield => exact (makes_binary entry curve).map fun h => .binary hfield h
  · split
    · next hfield => exact (makes_prime entry curve).map fun h => .prime hfield h
    · exact .error (.head id)

theorem Describes.holds {entry : CurveEntry} {params : CurveParams}
    (h : entry.Describes curve params) : ∀ c ∈ entry.checks curve, c.holds := by
  cases h with
  | binary hfield h =>
    rw [checks, if_pos hfield]
    exact h.holds
  | prime hfield h =>
    rw [checks, if_neg (by simp [hfield]), if_pos hfield]
    exact h.holds

/-- The entries that describe parameters are those that are read. -/
theorem params_eq_ok_iff {entry : CurveEntry} {params : CurveParams} :
    entry.params curve = .ok params ↔ entry.Describes curve params := by
  have hmakes := makes_params entry curve
  -- An entry that describes parameters passes its checks, and what is then read can only be these.
  refine ⟨hmakes.of_ok, fun h => ?_⟩
  obtain ⟨params', hparams'⟩ := hmakes.exists_ok_iff.mpr h.holds
  rw [hparams', h.unique (hmakes.of_ok hparams')]

end CurveEntry

/-! ## Tables -/

namespace CurveTable

variable {table : CurveTable} {name : String}

/-- `entry` is the last entry of the table with the name. -/
def Holds (table : CurveTable) (name : String) (entry : CurveEntry) : Prop :=
  ∃ before after, table.entries = before ++ (name, entry) :: after ∧ ∀ other ∈ after, other.1 ≠ name

/-- Of several entries with one name the last is looked up. -/
theorem entry?_eq_some_iff {entry : CurveEntry} :
    table.entry? name = some entry ↔ table.Holds name entry := by
  rw [Holds, entry?, List.lookup_eq_some_iff]
  constructor
  · rintro ⟨after, before, heq, hafter⟩
    refine ⟨before.reverse, after.reverse, ?_, ?_⟩
    · rw [← List.reverse_inj, heq]
      simp
    · intro other hother
      exact fun h => by simpa [h] using hafter other (List.mem_reverse.mp hother)
  · rintro ⟨before, after, heq, hafter⟩
    refine ⟨after.reverse, before.reverse, by simp [heq], ?_⟩
    intro other hother
    simpa using (hafter other (List.mem_reverse.mp hother)).symm

theorem entry?_eq_none_iff : table.entry? name = none ↔ ∀ entry, ¬ table.Holds name entry := by
  rw [Option.eq_none_iff_forall_ne_some]
  exact forall_congr' fun entry => entry?_eq_some_iff.not

/-- What a table answers when it is asked for the parameters of a curve. -/
structure AnswersByEntry (table : CurveTable) (name : String) : Prop where
  /-- Parameters are had exactly from an entry that describes them. -/
  ok_iff : ∀ {params}, table.params name = .ok params ↔
    ∃ entry, table.Holds name entry ∧ entry.Describes name params
  /-- They are had exactly from an entry that passes all its checks. -/
  exists_ok_iff : (∃ params, table.params name = .ok params) ↔
    ∃ entry, table.Holds name entry ∧ ∀ c ∈ entry.checks name, c.holds
  /-- The error is that there is no entry, or that of the first check that the entry fails. -/
  error_iff : ∀ {e}, table.params name = .error e ↔
    (∀ entry, ¬ table.Holds name entry) ∧ e = .missingCurve name ∨
      ∃ entry, table.Holds name entry ∧ FirstFailure (entry.checks name) e

/-- **Acceptance.** A table gives the parameters that its entry describes, or the first error. -/
theorem answersByEntry (table : CurveTable) (name : String) : table.AnswersByEntry name := by
  cases hentry : table.entry? name with
  | none =>
    have hnone := entry?_eq_none_iff.mp hentry
    have hparams : table.params name = .error (.missingCurve name) := by rw [params, hentry]
    exact {
      ok_iff := by simp [hparams, hnone]
      exists_ok_iff := by simp [hparams, hnone]
      error_iff := by simp [hparams, hnone, eq_comm] }
  | some entry =>
    have hholds {entry' : CurveEntry} : table.Holds name entry' ↔ entry' = entry := by
      rw [← entry?_eq_some_iff, hentry, Option.some.injEq, eq_comm]
    have hparams : table.params name = entry.params name := by rw [params, hentry]
    exact {
      ok_iff := by simp [hparams, hholds, CurveEntry.params_eq_ok_iff]
      exists_ok_iff := by simp [hparams, hholds, (CurveEntry.makes_params entry name).exists_ok_iff]
      error_iff := by simp [hparams, hholds, (CurveEntry.makes_params entry name).error_iff] }

end CurveTable

end SigmaProtocol
