import SigmaProtocol.Proofs.Run

/-!
# Histories of runs

A trace lists the calls of a run with their replies. What a participant holds after a run is a
property of the trace: most often, that something has happened and nothing has undone it since.
`Since` is that connective, the one of temporal logic for the past.

* `Trace.append_cons_iff`: the state in the middle of a run.
* `Trace.history`: what holds of the history of every run.
* `Trace.since_iff`: what a state is in since a call that brought it about.
* `since_append_iff`: what a history says about its last part.
-/

namespace SigmaProtocol

/-! ## Traces -/

section Trace

variable {σ C R : Type} {call : σ → C → Except Fault (R × σ)}

/-- The calls of a run from `s` to `s'`, each with its reply. -/
def Trace (call : σ → C → Except Fault (R × σ)) (s : σ) (t : List (C × R)) (s' : σ) : Prop :=
  runCalls call s (t.map Prod.fst) = .ok (t.map Prod.snd, s')

namespace Trace

variable {s s' : σ} {t u : List (C × R)}

theorem nil_iff : Trace call s [] s' ↔ s = s' := by
  simp [Trace, runCalls]

theorem cons_iff {x : C × R} : Trace call s (x :: t) s' ↔
    ∃ middle, call s x.1 = .ok (x.2, middle) ∧ Trace call middle t s' := by
  constructor
  · intro h
    obtain ⟨reply, rest, middle, hcall, hrun, hreplies⟩ := runCalls_cons h
    cases hreplies
    exact ⟨middle, hcall, hrun⟩
  · rintro ⟨middle, hcall, hrun⟩
    rw [Trace, List.map_cons, runCalls, except_bind_eq_ok]
    exact ⟨_, hcall, except_bind_eq_ok.mpr ⟨_, hrun, rfl⟩⟩

theorem append_iff : Trace call s (t ++ u) s' ↔
    ∃ middle, Trace call s t middle ∧ Trace call middle u s' := by
  induction t generalizing s with
  | nil => simp [nil_iff]
  | cons x t ih =>
    simp only [List.cons_append, cons_iff, ih]
    constructor
    · rintro ⟨first, hcall, middle, ht, hu⟩
      exact ⟨middle, ⟨first, hcall, ht⟩, hu⟩
    · rintro ⟨middle, ⟨first, hcall, ht⟩, hu⟩
      exact ⟨first, hcall, middle, ht, hu⟩

/-- The states before and after a call in the middle of a run. -/
theorem append_cons_iff {x : C × R} : Trace call s (t ++ x :: u) s' ↔
    ∃ before after, Trace call s t before ∧ call before x.1 = .ok (x.2, after) ∧
      Trace call after u s' := by
  rw [append_iff]
  constructor
  · rintro ⟨before, ht, h⟩
    obtain ⟨after, hcall, hu⟩ := cons_iff.mp h
    exact ⟨before, after, ht, hcall, hu⟩
  · rintro ⟨before, after, ht, hcall, hu⟩
    exact ⟨before, ht, cons_iff.mpr ⟨after, hcall, hu⟩⟩

theorem reaches (h : Trace call s t s') : Reaches call s s' := ⟨_, _, h⟩

/-- What holds of the empty history, and of every history that is one call longer, holds of every
history. -/
theorem history {motive : List (C × R) → σ → Prop} (nil : motive [] s)
    (concat : ∀ {t c reply s₁ s₂}, Trace call s t s₁ → motive t s₁ →
      call s₁ c = .ok (reply, s₂) → motive (t ++ [(c, reply)]) s₂)
    (h : Trace call s t s') : motive t s' := by
  induction t using List.reverseRecOn generalizing s' with
  | nil =>
    obtain rfl := nil_iff.mp h
    exact nil
  | append_singleton t x ih =>
    obtain ⟨before, after, ht, hcall, hafter⟩ := append_cons_iff.mp h
    obtain rfl := nil_iff.mp hafter
    exact concat ht (ih ht) hcall

end Trace

end Trace

/-! ## The past -/

section Since

variable {α : Type} {keeps starts : α → Prop} {t u : List α}

/-- Some event of `t` starts, and all events after it keep. -/
def Since (keeps starts : α → Prop) (t : List α) : Prop :=
  ∃ earlier x later, t = earlier ++ x :: later ∧ starts x ∧ ∀ y ∈ later, keeps y

@[simp] theorem since_nil : ¬ Since keeps starts [] := by
  rintro ⟨earlier, x, later, h, -⟩
  simp at h

@[simp] theorem since_concat_iff {y : α} :
    Since keeps starts (t ++ [y]) ↔ starts y ∨ Since keeps starts t ∧ keeps y := by
  constructor
  · rintro ⟨earlier, x, later, h, hstarts, hkeeps⟩
    -- The event that started is the last one itself, or it came before it and the last one keeps.
    rcases List.eq_nil_or_concat later with rfl | ⟨later, z, rfl⟩
    · obtain ⟨-, hyx⟩ := List.append_inj' h rfl
      cases hyx
      exact .inl hstarts
    · rw [List.concat_eq_append, ← List.cons_append, ← List.append_assoc] at h
      obtain ⟨rfl, hyz⟩ := List.append_inj' h rfl
      cases hyz
      refine .inr ⟨⟨earlier, x, later, rfl, hstarts, fun y' hy' => hkeeps y' ?_⟩, hkeeps y ?_⟩
      · simp [hy']
      · simp
  · rintro (hstarts | ⟨⟨earlier, x, later, rfl, hstarts, hkeeps⟩, hy⟩)
    · exact ⟨t, y, [], rfl, hstarts, by simp⟩
    · refine ⟨earlier, x, later ++ [y], by simp, hstarts, fun z hz => ?_⟩
      rcases List.mem_append.mp hz with hz | hz
      · exact hkeeps z hz
      · rwa [List.mem_singleton.mp hz]

/-- Either the last part starts anew, or it keeps throughout what held before it. -/
theorem since_append_iff : Since keeps starts (t ++ u) ↔
    Since keeps starts u ∨ Since keeps starts t ∧ ∀ y ∈ u, keeps y := by
  induction u using List.reverseRecOn with
  | nil => simp
  | append_singleton u y ih =>
    rw [← List.append_assoc, since_concat_iff, since_concat_iff, ih]
    simp only [List.mem_append, List.mem_singleton, or_imp, forall_and, forall_eq]
    tauto

/-- What an event cuts off from its past depends on what came after it. -/
theorem Since.of_append_cons {x : α} (hkeeps : ¬ keeps x) (hstarts : ¬ starts x)
    (h : Since keeps starts (t ++ x :: u)) : Since keeps starts u := by
  rw [List.append_cons, since_append_iff, since_concat_iff] at h
  tauto

theorem Since.mono {keeps' starts' : α → Prop} (h : Since keeps starts t)
    (hkeeps : ∀ x ∈ t, keeps x → keeps' x) (hstarts : ∀ x ∈ t, starts x → starts' x) :
    Since keeps' starts' t := by
  obtain ⟨earlier, x, later, rfl, hx, hlater⟩ := h
  refine ⟨earlier, x, later, rfl, hstarts x (by simp) hx, fun y hy => hkeeps y ?_ (hlater y hy)⟩
  simp [hy]

/-- What nothing undoes holds since it happened. -/
theorem since_true_iff : Since (fun _ => True) starts t ↔ ∃ x ∈ t, starts x := by
  induction t using List.reverseRecOn with
  | nil => simp
  | append_singleton t y ih =>
    rw [since_concat_iff, ih]
    simp [or_and_right, exists_or, or_comm]

/-- What some calls bring about, and what lasts until certain calls, holds of a state if it has been
brought about and has lasted since. -/
theorem Trace.since_iff {σ C R : Type} {call : σ → C → Except Fault (R × σ)} {s s' : σ}
    {t : List (C × R)} {keeps starts : C × R → Prop} {motive : σ → Prop} (hstart : ¬ motive s)
    (hcall : ∀ {t c reply s₁ s₂}, Trace call s t s₁ → call s₁ c = .ok (reply, s₂) →
      (motive s₂ ↔ starts (c, reply) ∨ motive s₁ ∧ keeps (c, reply)))
    (h : Trace call s t s') : motive s' ↔ Since keeps starts t := by
  refine h.history (motive := fun t s' => motive s' ↔ Since keeps starts t) ?_ ?_
  · simp [hstart]
  · intro t c reply s₁ s₂ ht ih hstep
    rw [since_concat_iff, ← ih]
    exact hcall ht hstep

end Since

end SigmaProtocol
