import SigmaProtocol.Bytes.Hex
import Mathlib

/-!
# Numbers of curve tables

The grammar of the numbers in curve tables, as a relation between a text and a number: blanks around
it, any number of `0x` marks, at most one plus sign, a digit, and then digits and underscores. The
reader takes these parts off one after the other. It finds the same parts as the grammar, because
no digit is a blank, a plus sign or the `x` of a mark.

* `Hex.value?_eq_some_iff`: the digits.
* `Hex.natural?_eq_some_iff`: a text is read as `n` exactly if it is a numeral of `n`.
-/

namespace SigmaProtocol.Hex

/-! ## Digits -/

/-- `c` is the digit of value `d`, in either case. -/
def IsDigit (c : Char) (d : Nat) : Prop := d < 16 ∧ (c = digit d ∨ c = (digit d).toUpper)

instance (c : Char) (d : Nat) : Decidable (IsDigit c d) := inferInstanceAs (Decidable (_ ∧ _))

theorem toNat_lt_of_value? {c : Char} {d : Nat} (h : value? c = some d) :
    c.toNat < 128 ∧ d < 16 := by
  have hle {a b : Char} : a ≤ b ↔ a.toNat ≤ b.toNat := by
    rw [Char.le_def, UInt32.le_iff_toNat_le]
    rfl
  have h0 : '0'.toNat = 48 ∧ '9'.toNat = 57 := ⟨rfl, rfl⟩
  have ha : 'a'.toNat = 97 ∧ 'f'.toNat = 102 := ⟨rfl, rfl⟩
  have hA : 'A'.toNat = 65 ∧ 'F'.toNat = 70 := ⟨rfl, rfl⟩
  unfold value? at h
  simp only [hle, h0, ha, hA] at h
  grind

theorem IsDigit.toNat_lt {c : Char} {d : Nat} (h : IsDigit c d) : c.toNat < 128 := by
  have hall : ∀ d < 16, (digit d).toNat < 128 ∧ (digit d).toUpper.toNat < 128 := by decide
  obtain ⟨hd, rfl | rfl⟩ := h
  · exact (hall d hd).1
  · exact (hall d hd).2

/-- All digits are ASCII characters, of which there are few enough to try them all. -/
theorem value?_eq_some_iff {c : Char} {d : Nat} : value? c = some d ↔ IsDigit c d := by
  have hall : ∀ n < 128, ∀ d < 16, value? (Char.ofNat n) = some d ↔ IsDigit (Char.ofNat n) d := by
    decide +kernel
  by_cases hbounds : c.toNat < 128 ∧ d < 16
  · have h := hall c.toNat hbounds.1 d hbounds.2
    rwa [Char.ofNat_toNat] at h
  · exact iff_of_false (mt toNat_lt_of_value? hbounds) fun h => hbounds ⟨h.toNat_lt, h.1⟩

/-- A digit is not taken for any other part of a numeral. -/
theorem IsDigit.ordinary {c : Char} {d : Nat} (h : IsDigit c d) :
    isBlank c = false ∧ c ≠ 'x' ∧ c ≠ '+' ∧ c ≠ '_' := by
  have hlower : ∀ d < 16, isBlank (digit d) = false ∧ digit d ≠ 'x' ∧ digit d ≠ '+' ∧
      digit d ≠ '_' := by
    decide
  have hupper : ∀ d < 16, isBlank (digit d).toUpper = false ∧ (digit d).toUpper ≠ 'x' ∧
      (digit d).toUpper ≠ '+' ∧ (digit d).toUpper ≠ '_' := by
    decide
  obtain ⟨hd, rfl | rfl⟩ := h
  · exact hlower d hd
  · exact hupper d hd

/-- Digits and underscores, with the values of the digits. -/
inductive Digits : List Char → List Nat → Prop
  | nil : Digits [] []
  | underscore {cs : List Char} {ds : List Nat} (rest : Digits cs ds) : Digits ('_' :: cs) ds
  | digit {c : Char} {d : Nat} {cs : List Char} {ds : List Nat} (first : IsDigit c d)
    (rest : Digits cs ds) : Digits (c :: cs) (d :: ds)

theorem Digits.ordinary {cs : List Char} {ds : List Nat} (h : Digits cs ds) :
    ∀ c ∈ cs, isBlank c = false ∧ c ≠ 'x' := by
  induction h with
  | nil => simp
  | underscore _ ih => exact List.forall_mem_cons.mpr ⟨by decide, ih⟩
  | digit first _ ih => exact List.forall_mem_cons.mpr ⟨⟨first.ordinary.1, first.ordinary.2.1⟩, ih⟩

/-- Underscores are read over, and the digits give the number in base sixteen. -/
theorem digits?_eq_some_iff {acc n : Nat} {cs : List Char} : digits? acc cs = some n ↔
    ∃ ds, Digits cs ds ∧ n = ds.foldl (fun acc d => acc * 16 + d) acc := by
  constructor
  · intro h
    fun_induction digits? acc cs with
    | case1 acc => exact ⟨[], .nil, (Option.some.inj h).symm⟩
    | case2 acc rest ih =>
      obtain ⟨ds, hrest, hn⟩ := ih h
      exact ⟨ds, .underscore hrest, hn⟩
    | case3 acc c rest hc ih =>
      obtain ⟨d, hd, h⟩ := Option.bind_eq_some_iff.mp h
      obtain ⟨ds, hrest, hn⟩ := ih d h
      exact ⟨d :: ds, .digit (value?_eq_some_iff.mp hd) hrest, hn⟩
  · rintro ⟨ds, hcs, rfl⟩
    induction hcs generalizing acc with
    | nil => rfl
    | underscore _ ih => exact ih
    | digit first _ ih =>
      rw [digits?, value?_eq_some_iff.mpr first]
      · exact ih
      · exact first.ordinary.2.2.2

theorem ofDigits_reverse (ds : List Nat) :
    Nat.ofDigits 16 ds.reverse = ds.foldl (fun acc d => acc * 16 + d) 0 := by
  rw [Nat.ofDigits_eq_foldr, List.foldr_reverse]
  congr 1
  funext acc d
  simp only [Nat.cast_id]
  ring

/-! ## Numerals -/

/-- `text` is a numeral of `n`: digits, the first one not behind an underscore, with at most one
plus sign before them, any number of marks before that, and blanks around all. -/
inductive Numeral : (text : List Char) → (n : Nat) → Prop
  | intro {before after sign cs : List Char} {marks : Nat} {c : Char} {d : Nat} {ds : List Nat}
    (blank_before : ∀ c ∈ before, isBlank c = true) (sign_eq : sign = [] ∨ sign = ['+'])
    (first : IsDigit c d) (rest : Digits cs ds) (blank_after : ∀ c ∈ after, isBlank c = true) :
    Numeral (before ++ ((List.replicate marks ['0', 'x']).flatten ++ (sign ++ c :: cs)) ++ after)
      (Nat.ofDigits 16 (d :: ds).reverse)

theorem exists_trim_eq (cs : List Char) : ∃ before after, cs = before ++ trim cs ++ after ∧
    (∀ c ∈ before, isBlank c = true) ∧ ∀ c ∈ after, isBlank c = true := by
  let inner := cs.dropWhile isBlank
  refine ⟨cs.takeWhile isBlank, (inner.reverse.takeWhile isBlank).reverse, ?_, ?_, ?_⟩
  · have hinner : trim cs ++ (inner.reverse.takeWhile isBlank).reverse = inner := by
      rw [trim, ← List.reverse_append, List.takeWhile_append_dropWhile, List.reverse_reverse]
    rw [List.append_assoc, hinner, List.takeWhile_append_dropWhile]
  · exact fun c => List.mem_takeWhile_imp
  · exact fun c hc => List.mem_takeWhile_imp (List.mem_reverse.mp hc)

theorem dropWhile_isBlank {before cs : List Char} (hbefore : ∀ c ∈ before, isBlank c = true)
    (hcs : ∀ c ∈ cs.head?, isBlank c = false) : (before ++ cs).dropWhile isBlank = cs := by
  rw [List.dropWhile_append_of_pos hbefore]
  cases cs with
  | nil => rfl
  | cons c cs => exact List.dropWhile_cons_of_neg (by simpa using hcs)

/-- All blanks at the two ends are trimmed off, and nothing else. -/
theorem trim_append {before cs after : List Char} (hbefore : ∀ c ∈ before, isBlank c = true)
    (hcs : ∀ c ∈ cs, isBlank c = false) (hne : cs ≠ []) (hafter : ∀ c ∈ after, isBlank c = true) :
    trim (before ++ cs ++ after) = cs := by
  have hfront : (before ++ (cs ++ after)).dropWhile isBlank = cs ++ after := by
    refine dropWhile_isBlank hbefore fun c hc => hcs c ?_
    rw [List.head?_append_of_ne_nil _ hne] at hc
    exact List.mem_of_mem_head? hc
  have hback : (after.reverse ++ cs.reverse).dropWhile isBlank = cs.reverse := by
    refine dropWhile_isBlank (fun c hc => hafter c (List.mem_reverse.mp hc)) fun c hc => hcs c ?_
    exact List.mem_reverse.mp (List.mem_of_mem_head? hc)
  rw [trim, List.append_assoc, hfront, List.reverse_append, hback, List.reverse_reverse]

theorem exists_dropMarks_eq (cs : List Char) :
    ∃ marks, cs = (List.replicate marks ['0', 'x']).flatten ++ dropMarks cs := by
  fun_induction dropMarks cs with
  | case1 rest ih =>
    obtain ⟨marks, h⟩ := ih
    refine ⟨marks + 1, ?_⟩
    simpa [List.replicate_succ] using h
  | case2 => exact ⟨0, rfl⟩

/-- All marks are taken off, since the rest has no `x`. -/
theorem dropMarks_append {cs : List Char} (hcs : ∀ c ∈ cs, c ≠ 'x') (marks : Nat) :
    dropMarks ((List.replicate marks ['0', 'x']).flatten ++ cs) = cs := by
  induction marks with
  | zero =>
    show dropMarks cs = cs
    fun_cases dropMarks cs with
    | case1 rest => simp at hcs
    | case2 => rfl
  | succ marks ih => simpa [List.replicate_succ, dropMarks] using ih

theorem isBlank_marks (marks : Nat) :
    ∀ c ∈ (List.replicate marks ['0', 'x']).flatten, isBlank c = false := by
  intro c hc
  obtain ⟨mark, hmark, hc⟩ := List.mem_flatten.mp hc
  have hall : ∀ c ∈ ['0', 'x'], isBlank c = false := by simp [isBlank]
  exact hall c (List.eq_of_mem_replicate hmark ▸ hc)

theorem exists_dropPlus_eq (cs : List Char) :
    ∃ sign, (sign = [] ∨ sign = ['+']) ∧ cs = sign ++ dropPlus cs := by
  fun_cases dropPlus cs with
  | case1 => exact ⟨[], .inl rfl, rfl⟩
  | case2 => exact ⟨['+'], .inr rfl, rfl⟩
  | case3 => exact ⟨[], .inl rfl, rfl⟩

theorem dropPlus_append {sign cs : List Char} {c : Char} (hsign : sign = [] ∨ sign = ['+'])
    (hc : c ≠ '+') : dropPlus (sign ++ c :: cs) = c :: cs := by
  rcases hsign with rfl | rfl
  · simp [dropPlus, hc]
  · simp [dropPlus, hc]

/-- The parts that the reader takes off are the parts of a numeral. -/
theorem Numeral.of_natural? {text : String} {n : Nat} (h : natural? text = some n) :
    Numeral text.toList n := by
  obtain ⟨before, after, htrim, hbefore, hafter⟩ := exists_trim_eq text.toList
  obtain ⟨marks, hmarks⟩ := exists_dropMarks_eq (trim text.toList)
  obtain ⟨sign, hsign, hplus⟩ := exists_dropPlus_eq (dropMarks (trim text.toList))
  obtain ⟨cs, hcs⟩ : ∃ cs, dropPlus (dropMarks (trim text.toList)) = cs := ⟨_, rfl⟩
  rw [htrim, hmarks, hplus, hcs]
  rw [natural?, hcs] at h
  split at h
  · cases h
  · cases h
  · next hnil hunderscore =>
    obtain ⟨ds, hdigits, rfl⟩ := digits?_eq_some_iff.mp h
    cases hdigits with
    | nil => exact absurd rfl hnil
    | underscore => exact absurd rfl (hunderscore _)
    | digit first rest =>
      rw [← ofDigits_reverse]
      exact .intro hbefore hsign first rest hafter

/-- The reader takes off just the parts of a numeral: none of them can be longer than it is
there. -/
theorem Numeral.natural?_eq {text : String} {n : Nat} (h : Numeral text.toList n) :
    natural? text = some n := by
  rw [natural?]
  generalize text.toList = cs at h
  cases h with
  | @intro before after sign cs marks c d ds hbefore hsign first rest hafter =>
    -- Behind the marks no character is blank or an `x`, so that trimming stops at the marks and
    -- taking off marks stops behind them.
    have hbody : ∀ b ∈ c :: cs, isBlank b = false ∧ b ≠ 'x' :=
      List.forall_mem_cons.mpr ⟨⟨first.ordinary.1, first.ordinary.2.1⟩, rest.ordinary⟩
    have hsigned : ∀ b ∈ sign ++ c :: cs, isBlank b = false ∧ b ≠ 'x' := by
      rcases hsign with rfl | rfl
      · exact hbody
      · exact List.forall_mem_cons.mpr ⟨by decide, hbody⟩
    have htrimmed (b : Char)
        (hb : b ∈ (List.replicate marks ['0', 'x']).flatten ++ (sign ++ c :: cs)) :
        isBlank b = false :=
      (List.mem_append.mp hb).elim (isBlank_marks marks b) fun hb => (hsigned b hb).1
    rw [trim_append hbefore htrimmed (by simp) hafter,
      dropMarks_append fun b hb => (hsigned b hb).2, dropPlus_append hsign first.ordinary.2.2.1]
    have hread := digits?_eq_some_iff.mpr ⟨d :: ds, .digit first rest, ofDigits_reverse (d :: ds)⟩
    split
    · next h => cases h
    · next h => exact absurd (List.cons.inj h).1 first.ordinary.2.2.2
    · exact hread

/-- A text is read exactly if it is a numeral, as the number that it writes. -/
theorem natural?_eq_some_iff {text : String} {n : Nat} :
    natural? text = some n ↔ Numeral text.toList n :=
  ⟨.of_natural?, Numeral.natural?_eq⟩

example : natural? "\u00a00x0x+1_F_\n" = some 0x1f := by decide +kernel

end SigmaProtocol.Hex
