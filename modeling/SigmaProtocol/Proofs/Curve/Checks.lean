import SigmaProtocol.Curve.Table
import SigmaProtocol.Proofs.Random

/-!
# Checks in order

A reader that makes its checks one after another fails with the error of the first one that does not
hold. `Makes` says so of a computation and a list of checks, together with what is known of its
result. A computation in steps makes the checks of its steps, and those of a later step may speak of
the results of the earlier ones.

* `firstFailure_append_iff`: the first failure in two lists of checks.
* `Makes.exists_ok_iff`: a computation succeeds exactly if all its checks hold.
* `Makes.bind`: the checks of a computation in two steps.
-/

namespace SigmaProtocol

variable {ε α β : Type}

/-- A condition, and the error if it does not hold. -/
structure Check (ε : Type) where
  holds : Prop
  error : ε

/-- `e` is the error of the first check that does not hold. -/
def FirstFailure (checks : List (Check ε)) (e : ε) : Prop :=
  ∃ before check after, checks = before ++ check :: after ∧ (∀ c ∈ before, c.holds) ∧
    ¬ check.holds ∧ e = check.error

variable {check : Check ε} {checks others : List (Check ε)} {e : ε}

theorem not_firstFailure_of_holds (h : ∀ c ∈ checks, c.holds) : ¬ FirstFailure checks e := by
  rintro ⟨before, check, after, rfl, -, hfails, -⟩
  exact hfails (h check (by simp))

/-- The first check fails, or it holds and the rest has a first failure. -/
theorem firstFailure_cons_iff : FirstFailure (check :: checks) e ↔
    ¬ check.holds ∧ e = check.error ∨ check.holds ∧ FirstFailure checks e := by
  constructor
  · rintro ⟨_ | ⟨first, before⟩, failing, after, heq, hbefore, hfails, rfl⟩
    · obtain ⟨rfl, rfl⟩ := List.cons.inj heq
      exact .inl ⟨hfails, rfl⟩
    · obtain ⟨rfl, rfl⟩ := List.cons.inj heq
      obtain ⟨hfirst, hbefore⟩ := List.forall_mem_cons.mp hbefore
      exact .inr ⟨hfirst, before, failing, after, rfl, hbefore, hfails, rfl⟩
  · rintro (⟨hfails, rfl⟩ | ⟨hholds, before, failing, after, rfl, hbefore, hfails, rfl⟩)
    · exact ⟨[], check, checks, rfl, nofun, hfails, rfl⟩
    · exact ⟨check :: before, failing, after, rfl,
        List.forall_mem_cons.mpr ⟨hholds, hbefore⟩, hfails, rfl⟩

theorem FirstFailure.head (h : ¬ check.holds) : FirstFailure (check :: checks) check.error :=
  firstFailure_cons_iff.mpr (.inl ⟨h, rfl⟩)

theorem FirstFailure.tail (hcheck : check.holds) (h : FirstFailure checks e) :
    FirstFailure (check :: checks) e :=
  firstFailure_cons_iff.mpr (.inr ⟨hcheck, h⟩)

/-- The later checks count only where all the earlier ones hold. -/
theorem firstFailure_append_iff : FirstFailure (checks ++ others) e ↔
    FirstFailure checks e ∨ (∀ c ∈ checks, c.holds) ∧ FirstFailure others e := by
  induction checks with
  | nil =>
    have hnil : ¬ FirstFailure [] e := not_firstFailure_of_holds nofun
    simp [hnil]
  | cons check checks ih =>
    rw [List.cons_append, firstFailure_cons_iff, firstFailure_cons_iff, ih, List.forall_mem_cons]
    tauto

/-- There is no more than one first failure. -/
theorem FirstFailure.unique {e' : ε} (h : FirstFailure checks e) (h' : FirstFailure checks e') :
    e = e' := by
  induction checks with
  | nil => exact absurd h (not_firstFailure_of_holds nofun)
  | cons check checks ih =>
    rw [firstFailure_cons_iff] at h h'
    rcases h with ⟨hfails, rfl⟩ | ⟨hholds, h⟩
    · rcases h' with ⟨-, rfl⟩ | ⟨hholds, -⟩
      · rfl
      · exact absurd hholds hfails
    · rcases h' with ⟨hfails, -⟩ | ⟨-, h'⟩
      · exact absurd hholds hfails
      · exact ih h h'

theorem exists_firstFailure (h : ¬ ∀ c ∈ checks, c.holds) : ∃ e, FirstFailure checks e := by
  induction checks with
  | nil => exact absurd nofun h
  | cons check checks ih =>
    by_cases hcheck : check.holds
    · rw [List.forall_mem_cons, not_and] at h
      obtain ⟨e, he⟩ := ih (h hcheck)
      exact ⟨e, he.tail hcheck⟩
    · exact ⟨check.error, .head hcheck⟩

/-! ## Computations -/

/-- The computation fails exactly if one of the checks does, with the error of the first one, and
otherwise has a result with the property `P`. -/
structure Makes (x : Except ε α) (checks : List (Check ε)) (P : α → Prop) : Prop where
  error_iff : ∀ {e}, x = .error e ↔ FirstFailure checks e
  of_ok : ∀ {a}, x = .ok a → P a

namespace Makes

variable {x : Except ε α} {f : α → Except ε β} {P : α → Prop} {Q : β → Prop} {a : α}

theorem exists_ok_iff (h : Makes x checks P) : (∃ a, x = .ok a) ↔ ∀ c ∈ checks, c.holds := by
  cases x with
  | error e =>
    have he : FirstFailure checks e := h.error_iff.mp rfl
    exact iff_of_false (by simp) fun hall => not_firstFailure_of_holds hall he
  | ok a =>
    refine iff_of_true ⟨a, rfl⟩ ?_
    by_contra hall
    obtain ⟨e, he⟩ := exists_firstFailure hall
    cases h.error_iff.mpr he

theorem ok (hchecks : ∀ c ∈ checks, c.holds) (ha : P a) :
    Makes (.ok a : Except ε α) checks P where
  error_iff := iff_of_false (by simp) (not_firstFailure_of_holds hchecks)
  of_ok h := Except.ok.inj h ▸ ha

theorem error (h : FirstFailure checks e) : Makes (.error e : Except ε α) checks P where
  error_iff := ⟨fun he => Except.error.inj he ▸ h, fun he => h.unique he ▸ rfl⟩
  of_ok h := by cases h

/-- The checks of the second step are made if the first step succeeds. -/
theorem bind (hx : Makes x checks P) (hf : ∀ a, P a → Makes (f a) others Q) :
    Makes (x >>= f) (checks ++ others) Q where
  error_iff := by
    intro e
    -- Both sides are read off the first step: that it fails, or that its checks hold.
    rw [firstFailure_append_iff, ← hx.error_iff, ← hx.exists_ok_iff]
    cases x with
    | error e' => simp [Bind.bind, Except.bind]
    | ok a => simpa [Bind.bind, Except.bind] using (hf a (hx.of_ok rfl)).error_iff
  of_ok := by
    intro b h
    obtain ⟨a, ha, h⟩ := except_bind_eq_ok.mp h
    exact (hf a (hx.of_ok ha)).of_ok h

/-- The groups of checks of the steps, one after another. -/
theorem bind_flatten {groups : List (List (Check ε))} (hx : Makes x checks P)
    (hf : ∀ a, P a → Makes (f a) groups.flatten Q) :
    Makes (x >>= f) (checks :: groups).flatten Q :=
  hx.bind hf

theorem map {g : α → β} (hx : Makes x checks P) (hg : ∀ {a}, P a → Q (g a)) :
    Makes (g <$> x) checks Q := by
  cases x with
  | error e => exact .error (hx.error_iff.mp rfl)
  | ok a => exact .ok (hx.exists_ok_iff.mp ⟨a, rfl⟩) (hg (hx.of_ok rfl))

end Makes

end SigmaProtocol
