import SigmaProtocol.Json.Reader
import SigmaProtocol.Json.Writer
import Mathlib

/-!
# Tokens are read back from their text

The scanner ends every token by itself, but for a number, which ends with the first character that
it cannot go on with. So the text of a list of tokens is read back if no two numbers are neighbours
in it and every number is written by the grammar.

* `Json.isNumeral_toDigits`: decimal digits are a numeral.
* `Json.Scanner.foldlM_chars_text`: strings, with the characters that are escaped in them.
* `Json.Scanner.Read.foldlM_chars`: one token.
* `Json.tokens?_chars`: a list of tokens.
-/

namespace SigmaProtocol

namespace Json

/-! ## Numerals -/

/-- The phase behind the first character of a number. -/
def NumberPhase.first? (c : Char) : Option NumberPhase :=
  if c = '-' then some .sign else if c.isDigit then some (ofDigit c) else none

/-- The characters are a number by the grammar. -/
def IsNumeral : List Char → Prop
  | [] => False
  | c :: cs => ∃ first last, NumberPhase.first? c = some first ∧
      cs.foldlM NumberPhase.next? first = some last ∧ last.complete = true

/-- Only zero begins with a zero. -/
theorem exists_toDigits_eq (n : Nat) : ∃ c cs, Nat.toDigits 10 n = c :: cs ∧ c.isDigit = true ∧
    cs.foldlM NumberPhase.next? (.ofDigit c) = some (if n = 0 then .zero else .whole) := by
  -- The digits of `n` are those of `n / 10` and one more.
  induction n using Nat.strong_induction_on with
  | _ n ih =>
    rw [Nat.toDigits_eq_if (by decide)]
    split
    · next hn =>
      refine ⟨n.digitChar, [], rfl, by simp [hn], ?_⟩
      simp [NumberPhase.ofDigit, Nat.digitChar_eq_zero]
    · next hn =>
      obtain ⟨c, cs, hdigits, hc, hphase⟩ := ih (n / 10) (by omega)
      have hlast : (n % 10).digitChar.isDigit = true := by
        rw [Nat.isDigit_digitChar]
        exact decide_eq_true (Nat.mod_lt n (by decide))
      refine ⟨c, cs ++ [(n % 10).digitChar], by rw [hdigits, List.cons_append], hc, ?_⟩
      rw [if_neg (by omega)] at hphase
      rw [if_neg (by omega), List.foldlM_append, hphase]
      simp [NumberPhase.next?, hlast]

theorem isNumeral_toDigits (n : Nat) : IsNumeral (Nat.toDigits 10 n) := by
  obtain ⟨c, cs, hdigits, hc, hphase⟩ := exists_toDigits_eq n
  rw [hdigits]
  refine ⟨.ofDigit c, _, ?_, hphase, by split <;> rfl⟩
  have hsign : c ≠ '-' := by
    rintro rfl
    exact absurd hc (by decide)
  simp [NumberPhase.first?, hsign, hc]

namespace Scanner

theorem start_of_first? {c : Char} {phase : NumberPhase} (h : NumberPhase.first? c = some phase)
    (tokens : List Token) : start tokens c = some ⟨.number phase [c], tokens⟩ := by
  unfold NumberPhase.first? at h
  split at h
  · next hc =>
    subst hc
    cases h
    rfl
  · split at h
    · next hsign hdigit =>
      cases h
      unfold start
      split <;> simp_all +decide
    · cases h

theorem foldlM_next {cs : List Char} {phase last : NumberPhase}
    (h : cs.foldlM NumberPhase.next? phase = some last) (read : List Char)
    (tokens : List Token) : cs.foldlM step ⟨.number phase read, tokens⟩ =
      some ⟨.number last (cs.reverse ++ read), tokens⟩ := by
  induction cs generalizing phase read with
  | nil =>
    cases h
    rfl
  | cons c cs ih =>
    rw [List.foldlM_cons] at h
    obtain ⟨phase', hnext, hrest⟩ := Option.bind_eq_some_iff.mp h
    have hstep : step ⟨.number phase read, tokens⟩ c =
        some ⟨.number phase' (c :: read), tokens⟩ := by
      simp only [step, hnext]
    rw [List.foldlM_cons, hstep]
    simpa using ih hrest (c :: read)

/-! ## Strings -/

theorem pushUnit_of_lt {t : PartialText} {unit : Nat} (h : unit < 0x20) :
    t.pushUnit unit = t.push (Char.ofNat unit) := by
  rw [PartialText.pushUnit, if_neg (by omega), if_neg (by omega)]

/-- A character inside a string is taken up, whether it is escaped or not. -/
theorem foldlM_charText (c : Char) (t : PartialText) (tokens : List Token) :
    (charText c).foldlM step ⟨.string t, tokens⟩ = some ⟨.string (t.push c), tokens⟩ := by
  unfold charText
  split
  · next hc =>
    subst hc
    rfl
  split
  · next hc =>
    subst hc
    rfl
  split
  -- A control character is written as `\u00hl`.
  · next hc =>
    have hhigh := Hex.value?_digit (c.toNat / 16) (by omega)
    have hlow := Hex.value?_digit (c.toNat % 16) (by omega)
    have hzero : Hex.value? '0' = some 0 := by decide
    have hunit : t.pushUnit (c.toNat / 16 * 16 + c.toNat % 16) = t.push c := by
      rw [Nat.div_add_mod', pushUnit_of_lt hc, Char.ofNat_toNat]
    simp [step, hzero, hhigh, hlow, hunit]
  · next hquote hslash hcontrol => simp [step, hquote, hslash, hcontrol]

theorem foldlM_flatMap_charText (cs : List Char) (t : PartialText) (tokens : List Token) :
    (cs.flatMap charText).foldlM step ⟨.string t, tokens⟩ =
      some ⟨.string (cs.foldl PartialText.push t), tokens⟩ := by
  induction cs generalizing t with
  | nil => rfl
  | cons c cs ih =>
    rw [List.flatMap_cons, List.foldlM_append, foldlM_charText]
    exact ih (t.push c)

/-- Characters that have been taken up need not be put together from surrogates. -/
theorem finish_foldl_push (cs : List Char) :
    (cs.foldl PartialText.push .empty).finish = some (String.ofList cs) := by
  have h (read : List Char) : cs.foldl PartialText.push ⟨read, none, true⟩ =
      ⟨cs.reverse ++ read, none, true⟩ := by
    induction cs generalizing read with
    | nil => rfl
    | cons c cs ih => simp [PartialText.push, ih]
  rw [PartialText.empty, h]
  simp [PartialText.finish]

theorem foldlM_chars_text (s : String) (tokens : List Token) :
    (Token.text (some s)).chars.foldlM step ⟨.between, tokens⟩ =
      some ⟨.between, .text (some s) :: tokens⟩ := by
  have hopen : step ⟨.between, tokens⟩ '"' = some ⟨.string .empty, tokens⟩ := rfl
  rw [Token.chars, List.cons_append, List.foldlM_cons, hopen]
  simp [List.foldlM_append, foldlM_flatMap_charText, step, finish_foldl_push]

/-! ## Tokens -/

/-- The scanner has read the given tokens, last one first, and another token may begin. -/
inductive Read : Scanner → List Token → Prop
  | between {tokens : List Token} : Read ⟨.between, tokens⟩ tokens
  | number {phase : NumberPhase} {read : List Char} {tokens : List Token}
      (complete : phase.complete = true) :
      Read ⟨.number phase read, tokens⟩ (.number read.reverse :: tokens)

variable {s : Scanner} {reversed : List Token}

theorem Read.finish (h : s.Read reversed) : s.finish = some reversed.reverse := by
  cases h with
  | between => rfl
  | number complete => simp [Scanner.finish, complete]

/-- A character that cannot be part of a number begins a new token. -/
theorem Read.step {c : Char} (h : s.Read reversed)
    (hc : ∀ phase, NumberPhase.next? phase c = none) :
    s.step c = Scanner.step ⟨.between, reversed⟩ c := by
  cases h with
  | between => rfl
  | number complete => simp [Scanner.step, hc, complete]

end Scanner

end Json

namespace Token

/-- A number, which does not end by itself. -/
def isNumber : Token → Bool
  | .number _ => true
  | _ => false

/-- The tokens can be told apart in their text. -/
structure Separated (ts : List Token) : Prop where
  isNumeral : ∀ {numeral}, .number numeral ∈ ts → Json.IsNumeral numeral
  /-- No two numbers are neighbours. -/
  apart : ts.IsChain fun a b => ¬ (a.isNumber = true ∧ b.isNumber = true)

variable {t : Token} {ts us : List Token}

theorem separated_singleton (h : ∀ {numeral}, t = .number numeral → Json.IsNumeral numeral) :
    Separated [t] where
  isNumeral hmem := h (List.mem_singleton.mp hmem).symm
  apart := .singleton t

theorem Separated.cons (ht : t.isNumber = false) (h : Separated ts) : Separated (t :: ts) where
  isNumeral := by
    intro numeral hmem
    rcases List.mem_cons.mp hmem with rfl | hmem
    · simp [isNumber] at ht
    · exact h.isNumeral hmem
  apart := h.apart.cons fun u _ hboth => by simp [ht] at hboth

/-- Only the token at the seam has to be looked at. -/
theorem Separated.append (h : Separated ts) (hu : Separated us)
    (hhead : ∀ u ∈ us.head?, u.isNumber = false) : Separated (ts ++ us) where
  isNumeral hmem := (List.mem_append.mp hmem).elim h.isNumeral hu.isNumeral
  apart := by
    refine List.isChain_append.mpr ⟨h.apart, hu.apart, fun a _ b hb hboth => ?_⟩
    simp [hhead b hb] at hboth

end Token

namespace Json

namespace Scanner

variable {s : Scanner} {reversed : List Token}

theorem foldlM_chars_between {t : Token} (ht : t.isNumber = false) :
    t.chars.foldlM Scanner.step ⟨.between, reversed⟩ = some ⟨.between, t :: reversed⟩ := by
  cases t with
  | number numeral => cases ht
  | bool b => cases b <;> rfl
  | text t =>
    cases t with
    | none => rfl
    | some s => exact foldlM_chars_text s reversed
  | _ => rfl

/-- No token but a number begins with a character that a number could go on with. -/
theorem exists_chars_eq {t : Token} (ht : t.isNumber = false) :
    ∃ c cs, t.chars = c :: cs ∧ ∀ phase, NumberPhase.next? phase c = none := by
  cases t with
  | number numeral => cases ht
  | bool b => cases b <;> exact ⟨_, _, rfl, fun phase => by cases phase <;> rfl⟩
  | text t => cases t <;> exact ⟨_, _, rfl, fun phase => by cases phase <;> rfl⟩
  | _ => exact ⟨_, _, rfl, fun phase => by cases phase <;> rfl⟩

/-- The number is read only once the next token begins or the text ends, so that the scanner is left
inside it. -/
theorem exists_foldlM_numeral {numeral : List Char} (h : IsNumeral numeral) :
    ∃ s', numeral.foldlM Scanner.step ⟨.between, reversed⟩ = some s' ∧
      s'.Read (.number numeral :: reversed) := by
  match numeral, h with
  | c :: cs, ⟨first, last, hfirst, hrest, hcomplete⟩ =>
    have hread : (cs.reverse ++ [c]).reverse = c :: cs := by simp
    refine ⟨⟨.number last (cs.reverse ++ [c]), reversed⟩, ?_, hread ▸ .number hcomplete⟩
    have hstart : Scanner.step ⟨.between, reversed⟩ c = some ⟨.number first [c], reversed⟩ :=
      start_of_first? hfirst reversed
    rw [List.foldlM_cons, hstart]
    exact foldlM_next hrest [c] reversed

/-- A token is read behind whatever has been read, but a number not behind a number. -/
theorem Read.foldlM_chars {t : Token} (h : s.Read reversed)
    (ht : ∀ {numeral}, t = .number numeral → IsNumeral numeral)
    (hapart : ∀ a ∈ reversed.head?, ¬ (a.isNumber = true ∧ t.isNumber = true)) :
    ∃ s', t.chars.foldlM Scanner.step s = some s' ∧ s'.Read (t :: reversed) := by
  rcases hnumber : t.isNumber with _ | _
  -- The first character also ends a number that stood before it.
  · obtain ⟨c, cs, hchars, hc⟩ := exists_chars_eq hnumber
    refine ⟨_, ?_, .between⟩
    rw [← foldlM_chars_between hnumber, hchars, List.foldlM_cons, List.foldlM_cons, h.step hc]
  · cases t with
    | number numeral =>
      cases h with
      | between => exact exists_foldlM_numeral (ht rfl)
      | number => exact absurd ⟨rfl, rfl⟩ (hapart _ rfl)
    | _ => cases hnumber

theorem Read.foldlM_flatMap_chars {ts : List Token} (h : s.Read reversed) (hts : Token.Separated ts)
    (hapart : ∀ a ∈ reversed.head?, ∀ b ∈ ts.head?, ¬ (a.isNumber = true ∧ b.isNumber = true)) :
    ∃ s', (ts.flatMap Token.chars).foldlM Scanner.step s = some s' ∧
      s'.Read (ts.reverse ++ reversed) := by
  induction ts generalizing s reversed with
  | nil => exact ⟨s, rfl, h⟩
  | cons t ts ih =>
    obtain ⟨hnext, htail⟩ := List.isChain_cons.mp hts.apart
    obtain ⟨middle, ht, hmiddle⟩ := h.foldlM_chars
      (fun heq => hts.isNumeral (heq ▸ List.mem_cons_self)) fun a ha => hapart a ha t rfl
    obtain ⟨s', hs', hread⟩ := ih hmiddle
      ⟨fun hmem => hts.isNumeral (List.mem_cons_of_mem t hmem), htail⟩
      fun a ha b hb => by cases ha; exact hnext b hb
    refine ⟨s', ?_, by simpa using hread⟩
    rw [List.flatMap_cons, List.foldlM_append, ht]
    exact hs'

end Scanner

/-- Tokens that can be told apart are read back. -/
theorem tokens?_chars {ts : List Token} (h : Token.Separated ts) :
    tokens? (ts.flatMap Token.chars) = some ts := by
  have hinitial : Scanner.initial.Read [] := .between
  obtain ⟨s, hs, hread⟩ := hinitial.foldlM_flatMap_chars h nofun
  rw [tokens?, hs]
  simpa using hread.finish

end Json

end SigmaProtocol
