import SigmaProtocol.Proofs.Verifier

/-!
# The verdict that a verifier reports

Only a check that reaches a verdict writes the outcome, and only a new statement erases it. A check
that fails uses the challenge up, but leaves the outcome of an earlier proof in place, so that the
verifier reports that one again.

* `Verifier.outcome_eq_some_iff`: the outcome, from the history.
* `Verifier.HoldsVerdict.lastCheck_iff`: when the last verdict is that of the last check.
* `Verifier.reportsVerdicts`: what is reported after any run.
* `verdict_outlives_check`: a failed check after which an earlier proof counts as accepted.
-/

namespace SigmaProtocol

namespace Verifier

variable {S T : Type} {role : VerifierRole S T} {v : Verifier S T} {t : List (Event S)} {b : Bool}

/-! ## Verdicts -/

/-- A check has reached the verdict `b`. -/
def ReachesVerdict (b : Bool) : Event S → Prop
  | (.verify _ _, .verdict (.ok accepted)) => accepted = b
  | _ => False

/-- A check has ended without a verdict. -/
def FailsCheck (x : Event S) : Prop := ChecksProof x ∧ ∀ b, ¬ ReachesVerdict b x

/-- The last check is one of those in `P`. -/
def LastCheck (P : Event S → Prop) (t : List (Event S)) : Prop := Since (¬ ChecksProof ·) P t

/-- `b` is the verdict that was reached last, and no statement has been set since. -/
def HoldsVerdict (b : Bool) (t : List (Event S)) : Prop :=
  Since (fun x => (∀ b', ¬ ReachesVerdict b' x) ∧ ¬ SetsStatement x) (ReachesVerdict b) t

theorem outcome_eq_some_iff (h : Trace call (ofRole role) t v) :
    v.outcome = some b ↔ HoldsVerdict b t := by
  refine h.since_iff (motive := fun v => v.outcome = some b) (by simp [ofRole]) ?_
  intro t c reply v v' ht hcall
  cases step_of_call hcall with
  | statementSet => simp [ReachesVerdict, SetsStatement]
  | statementRefused => simp [ReachesVerdict, SetsStatement]
  | sampled => simp [ReachesVerdict, SetsStatement]
  | challengeSet => simp [ReachesVerdict, SetsStatement]
  | challengeRefused => simp [ReachesVerdict, SetsStatement]
  | @verified first second outcome =>
    cases outcome with
    | error e => simp [ReachesVerdict, SetsStatement, Except.toOption]
    | ok accepted => simp [ReachesVerdict, Except.toOption]

theorem ReachesVerdict.eq_verify {x : Event S} (h : ReachesVerdict b x) :
    ∃ first second, x = (.verify first second, .verdict (.ok b)) := by
  match x, h with
  | (.verify first second, .verdict (.ok _)), rfl => exact ⟨first, second, rfl⟩

theorem ReachesVerdict.checksProof {x : Event S} (h : ReachesVerdict b x) : ChecksProof x := by
  obtain ⟨first, second, rfl⟩ := h.eq_verify
  trivial

/-- A verdict that lasts was reached on the statement that is held. -/
theorem HoldsVerdict.exists_accepts (h : Trace call (ofRole role) t v) (hb : HoldsVerdict b t) :
    ∃ earlier later first second s x e,
      t = earlier ++ (.verify first second, .verdict (.ok b)) :: later ∧
        v.statement = some s ∧ HoldsChallenge role.soundnessBits e earlier ∧
          role.contents? first second = some x ∧ role.accepts s x e = .ok (.ok b) := by
  obtain ⟨earlier, event, later, rfl, hreaches, hkeeps⟩ := hb
  obtain ⟨first, second, rfl⟩ := hreaches.eq_verify
  obtain ⟨s, x, e, hs, he, hx, haccepts⟩ := verdict_of_trace h
  refine ⟨earlier, later, first, second, s, x, e, rfl, ?_, he, hx, haccepts⟩
  rw [statement_eq_some_iff h, HoldsStatement, since_append_iff]
  refine .inr ⟨hs, fun y hy => ?_⟩
  rcases List.mem_cons.mp hy with rfl | hy
  · exact id
  · exact (hkeeps y hy).2

theorem lastCheck_concat_iff {P : Event S → Prop} {x : Event S} (hx : ChecksProof x) :
    LastCheck P (t ++ [x]) ↔ P x := by
  simp [LastCheck, hx]

/-- The last verdict is that of the last check, unless the last check has failed. -/
theorem HoldsVerdict.lastCheck_iff (h : HoldsVerdict b t) :
    LastCheck (ReachesVerdict b) t ↔ ¬ LastCheck FailsCheck t := by
  induction t using List.reverseRecOn with
  | nil => exact (since_nil h).elim
  | append_singleton t y ih =>
    by_cases hcheck : ChecksProof y
    · rw [lastCheck_concat_iff hcheck, lastCheck_concat_iff hcheck]
      rcases since_concat_iff.mp h with hverdict | ⟨-, hnone, -⟩
      · exact iff_of_true hverdict fun hfails => hfails.2 b hverdict
      · exact iff_of_false (hnone b) (not_not.mpr ⟨hcheck, hnone⟩)
    · -- What is not a check leaves both sides as they were.
      have hverdict : ¬ ReachesVerdict b y := fun hverdict => hcheck hverdict.checksProof
      have hfails : ¬ FailsCheck y := fun hfails => hcheck hfails.1
      obtain ⟨ht, -⟩ := (since_concat_iff.mp h).resolve_left hverdict
      unfold LastCheck at ih ⊢
      simpa [hverdict, hcheck, hfails] using ih ht

/-! ## Reports -/

/-- A pending challenge hides the outcome. -/
theorem phase_eq_verified_iff :
    v.phase = .verified b ↔ v.statement.isSome ∧ v.challenge = none ∧ v.outcome = some b := by
  unfold phase
  rcases v.statement with _ | s
  · simp
  rcases v.challenge with _ | e
  · cases v.outcome <;> simp
  · simp

/-- What `v₀` reports after a run. -/
structure ReportsVerdicts (v₀ : Verifier S T) : Prop where
  /-- The last verdict is reported while no challenge is pending. -/
  verified_iff : ∀ {t : List (Event S)} {v : Verifier S T} {b : Bool}, Trace call v₀ t v →
    (v.phase = .verified b ↔ HoldsVerdict b t ∧ ¬ ChallengePending t)
  /-- What is reported is a verdict on the statement that the verifier holds. -/
  verdict : ∀ {t : List (Event S)} {v : Verifier S T} {b : Bool}, Trace call v₀ t v →
    v.phase = .verified b → ∃ earlier later first second s x e,
      t = earlier ++ (.verify first second, .verdict (.ok b)) :: later ∧
        v.statement = some s ∧ HoldsChallenge v₀.role.soundnessBits e earlier ∧
          v₀.role.contents? first second = some x ∧ v₀.role.accepts s x e = .ok (.ok b)
  /-- It is the verdict of the last check exactly if that check has not failed. -/
  lastCheck_iff : ∀ {t : List (Event S)} {v : Verifier S T} {b : Bool}, Trace call v₀ t v →
    v.phase = .verified b → (LastCheck (ReachesVerdict b) t ↔ ¬ LastCheck FailsCheck t)
  /-- After a check that fails, the verdict before it is reported, whatever was pending then. -/
  failed_iff : ∀ {t : List (Event S)} {v : Verifier S T} {first second : Message}
    {e : ProtocolError} {b : Bool},
    Trace call v₀ (t ++ [(.verify first second, .verdict (.error e))]) v →
      (v.phase = .verified b ↔ HoldsVerdict b t)

/-- The phase, from the history. A verdict that lasts needs no mention of the statement. -/
theorem verified_iff_of_trace (h : Trace call (ofRole role) t v) :
    v.phase = .verified b ↔ HoldsVerdict b t ∧ ¬ ChallengePending t := by
  rw [phase_eq_verified_iff, outcome_eq_some_iff h, ← challenge_isSome_iff h,
    Option.not_isSome_iff_eq_none]
  constructor
  · rintro ⟨-, hchallenge, hb⟩
    exact ⟨hb, hchallenge⟩
  · rintro ⟨hb, hchallenge⟩
    obtain ⟨-, -, -, -, s, -, -, -, hs, -⟩ := hb.exists_accepts h
    exact ⟨by rw [hs]; rfl, hchallenge, hb⟩

/-- **Reports.** The phase of a verifier of either protocol is the last verdict on the statement
that it holds. It is the outcome of the last check exactly if that check has not failed. -/
theorem reportsVerdicts {v₀ : Verifier S T} (hv₀ : v₀.Initial) : v₀.ReportsVerdicts where
  verified_iff := by
    intro t v b h
    obtain ⟨role, -, rfl⟩ := hv₀.exists_role
    exact verified_iff_of_trace h
  verdict := by
    intro t v b h hphase
    obtain ⟨role, -, rfl⟩ := hv₀.exists_role
    exact ((verified_iff_of_trace h).mp hphase).1.exists_accepts h
  lastCheck_iff := by
    intro t v b h hphase
    obtain ⟨role, -, rfl⟩ := hv₀.exists_role
    exact ((verified_iff_of_trace h).mp hphase).1.lastCheck_iff
  failed_iff := by
    intro t v first second e b h
    obtain ⟨role, -, rfl⟩ := hv₀.exists_role
    rw [verified_iff_of_trace h, HoldsVerdict, ChallengePending, since_concat_iff,
      since_concat_iff]
    simp [ReachesVerdict, SetsStatement, InstallsChallenge, ChecksProof, HoldsVerdict]

end Verifier

/-! ## Checks after an accepted proof -/

namespace EncryptedZero

/-- A verifier that holds a challenge again, after it has accepted a proof. -/
def acceptedOnce : Verifier Statement (Nat × Nat) :=
  ⟨verifierRole ⟨1, 1⟩, some ⟨⟨35⟩, ⟨1⟩⟩, some ⟨[1]⟩, some true⟩

/-- The calls that lead to `acceptedOnce`. -/
def acceptedOnceEvents : List (Verifier.Event Statement) :=
  [(.setStatement ⟨⟨35⟩, ⟨1⟩⟩, .done (.ok ())), (.setChallenge ⟨[1]⟩, .done (.ok ())),
    (.verify (.integer 1) (.integer 1), .verdict (.ok true)),
    (.setChallenge ⟨[1]⟩, .done (.ok ()))]

theorem trace_acceptedOnce :
    Trace Verifier.call (.ofRole (verifierRole ⟨1, 1⟩)) acceptedOnceEvents acceptedOnce := by
  have he : Challenge.validate ⟨[1]⟩ 1 = .ok (.ok ()) := by decide
  have haccepts : { acceptedOnce with outcome := none }.judge (.integer 1) (.integer 1) =
      .ok (.ok true) := by decide +kernel
  refine Trace.cons_iff.mpr ⟨_, Verifier.call_of_step (.statementSet rfl), ?_⟩
  refine Trace.cons_iff.mpr ⟨_, Verifier.call_of_step (.challengeSet he), ?_⟩
  refine Trace.cons_iff.mpr ⟨_, Verifier.call_of_judge haccepts, ?_⟩
  exact Trace.cons_iff.mpr ⟨_, Verifier.call_of_step (.challengeSet he), Trace.nil_iff.mpr rfl⟩

end EncryptedZero

open EncryptedZero

/-- A proof that is rejected after another one was accepted. -/
theorem reportsVerdicts_thirtyFive :
    let v := Verifier.ofRole (verifierRole ⟨1, 1⟩)
    let last : Verifier.Event Statement :=
      (.verify (.integer 2) (.integer 1), .verdict (.ok false))
    v.Initial ∧ ∃ w, Trace Verifier.call v (acceptedOnceEvents ++ [last]) w ∧
      w.phase = .verified false ∧
      Verifier.LastCheck (Verifier.ReachesVerdict false) (acceptedOnceEvents ++ [last]) := by
  intro v last
  have hv : v.Initial := .encryptedZero (rfl : verifier ⟨1, 1⟩ = .ok v)
  have hrejects : acceptedOnce.judge (.integer 2) (.integer 1) = .ok (.ok false) := by
    decide +kernel
  have hlast : Trace Verifier.call acceptedOnce [last]
      { acceptedOnce with challenge := none, outcome := some false } :=
    Trace.cons_iff.mpr ⟨_, Verifier.call_of_judge hrejects, Trace.nil_iff.mpr rfl⟩
  have ht := Trace.append_iff.mpr ⟨_, trace_acceptedOnce, hlast⟩
  refine ⟨hv, _, ht, rfl, ((Verifier.reportsVerdicts hv).lastCheck_iff ht rfl).mpr ?_⟩
  have hcheck : Verifier.ChecksProof last := trivial
  intro hfails
  exact ((Verifier.lastCheck_concat_iff hcheck).mp hfails).2 false rfl

/-- A message of the wrong kind, after which the verifier reports that the proof before it was
accepted. -/
theorem verdict_outlives_check :
    let v := Verifier.ofRole (verifierRole ⟨1, 1⟩)
    let last : Verifier.Event Statement :=
      (.verify (.element []) (.integer 1), .verdict (.error .unexpectedMessage))
    verifier ⟨1, 1⟩ = .ok v ∧
      (∃ w, Trace Verifier.call v acceptedOnceEvents w ∧ w.phase = .challengeReady) ∧
      (∃ w, Trace Verifier.call v (acceptedOnceEvents ++ [last]) w ∧ w.phase = .verified true) ∧
      ∀ b, ¬ Verifier.LastCheck (Verifier.ReachesVerdict b) (acceptedOnceEvents ++ [last]) := by
  intro v last
  have hlast : Trace Verifier.call acceptedOnce [last] { acceptedOnce with challenge := none } :=
    Trace.cons_iff.mpr ⟨_, Verifier.call_of_step (.verified rfl), Trace.nil_iff.mpr rfl⟩
  have ht := Trace.append_iff.mpr ⟨_, trace_acceptedOnce, hlast⟩
  refine ⟨rfl, ⟨_, trace_acceptedOnce, rfl⟩, ⟨_, ht, rfl⟩, fun b hverdict => ?_⟩
  have hcheck : Verifier.ChecksProof last := trivial
  exact (Verifier.lastCheck_concat_iff hcheck).mp hverdict

end SigmaProtocol
