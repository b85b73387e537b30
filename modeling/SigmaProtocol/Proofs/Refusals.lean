import SigmaProtocol.Proofs.Nonces
import SigmaProtocol.Proofs.Verifier

/-!
# Refused calls

Whatever a participant refuses, it refuses before it changes anything or draws anything at random.
So the refused calls of a run can be left out, any number of them, and the run goes on as before.
The check of a proof is the one call that changes a verifier even if it fails: it uses the challenge
up and keeps the statement.

* `Trace.of_omits`: what does not change the state can be left out of a run.
* `Verifier.unchangedByRefusals_ofRole`, `Prover.unchangedByRefusals_ofRole`: refusals, for any
  role.
* `exchange_of_soundnessBits_ne`: an exchange that does not begin.
* `unchangedByRefusals_participants`: the three together, for both protocols.
-/

namespace SigmaProtocol

/-! ## Runs with calls left out -/

/-- The second list is the first one without some of the items that `drops` allows to drop. -/
inductive Omits {α : Type} (drops : α → Prop) : List α → List α → Prop
  | nil : Omits drops [] []
  | keep {x : α} {t u : List α} (h : Omits drops t u) : Omits drops (x :: t) (x :: u)
  | drop {x : α} {t u : List α} (hx : drops x) (h : Omits drops t u) : Omits drops (x :: t) u

/-- Calls that leave the state as it is can be left out of a run. The other calls are replied to as
before, and the run ends in the same state. -/
theorem Trace.of_omits {σ C R : Type} {call : σ → C → Except Fault (R × σ)}
    {drops : C × R → Prop} {s s' : σ} {t u : List (C × R)}
    (hdrops : ∀ {s c reply s'}, call s c = .ok (reply, s') → drops (c, reply) → s' = s)
    (h : Trace call s t s') (hu : Omits drops t u) : Trace call s u s' := by
  -- The induction is on what is left out; a call that is left out has not moved the run.
  induction hu generalizing s with
  | nil => exact h
  | keep _ ih =>
    obtain ⟨middle, hcall, hrest⟩ := cons_iff.mp h
    exact cons_iff.mpr ⟨middle, hcall, ih hrest⟩
  | drop hx _ ih =>
    obtain ⟨middle, hcall, hrest⟩ := cons_iff.mp h
    obtain rfl := hdrops hcall hx
    exact ih hrest

/-! ## Verifiers -/

namespace Verifier

variable {S T : Type} {v v' : Verifier S T}

/-- A statement or a challenge has been refused. -/
def IsRefusal : Event S → Prop
  | (.setStatement _, .done (.error _)) => True
  | (.setChallenge _, .done (.error _)) => True
  | _ => False

theorem eq_of_isRefusal {c : Call S} {reply : Reply} (h : v.call c = .ok (reply, v'))
    (hrefusal : IsRefusal (c, reply)) : v' = v := by
  cases step_of_call h with
  | statementSet => exact hrefusal.elim
  | statementRefused => rfl
  | sampled => exact hrefusal.elim
  | challengeSet => exact hrefusal.elim
  | challengeRefused => rfl
  | verified => exact hrefusal.elim

/-- What failed calls leave of `v₀`. -/
structure UnchangedByRefusals (v₀ : Verifier S T) : Prop where
  /-- A run without some of its refusals has the same other replies and the same end. Since this
  holds for each beginning of the run, the challenge and the phase are the same all along. -/
  omits : ∀ {t u : List (Event S)} {v : Verifier S T},
    Trace call v₀ t v → Omits IsRefusal t u → Trace call v₀ u v
  /-- A check keeps the statement and uses the challenge up, whatever comes of it. -/
  verify : ∀ {v : Verifier S T}, Reaches call v₀ v → ∀ first second : Message,
    ∃ outcome v', v.verify first second = .ok (outcome, v') ∧
      v'.statement = v.statement ∧ v'.challenge = none

theorem unchangedByRefusals_ofRole {role : VerifierRole S T} (hjudges : JudgesProofs role) :
    (ofRole role).UnchangedByRefusals where
  omits := Trace.of_omits eq_of_isRefusal
  verify := by
    intro v h first second
    obtain ⟨outcome, hverify⟩ := exists_verify_of_reaches hjudges h first second
    exact ⟨outcome, _, hverify, rfl, rfl⟩

end Verifier

/-! ## Provers -/

namespace Prover

variable {I P : Type} {p p' : Prover I P}

theorem eq_of_isRefusal {c : Call I} {reply : Except ProtocolError Message}
    (h : p.call c = .ok (reply, p')) (hrefusal : IsRefusal (c, reply)) : p' = p := by
  cases step_of_call h with
  | committed => exact hrefusal.elim
  | refused => rfl
  | answered => exact hrefusal.elim
  | invalid => rfl
  | missing => rfl

/-- What failed calls leave of `p₀`. -/
structure UnchangedByRefusals (p₀ : Prover I P) : Prop where
  /-- A run without some of its refusals has the same other replies and the same end. -/
  omits : ∀ {t u : List (Event I)} {p : Prover I P},
    Trace call p₀ t p → Omits IsRefusal t u → Trace call p₀ u p
  /-- The refusal of a first message draws nothing. -/
  stream : ∀ {p p' : Prover I P} {input : I} {stream rest : Bytes} {e : ProtocolError},
    Reaches call p₀ p → p.firstMessage input stream = .ok ((.error e, p'), rest) →
      p' = p ∧ rest = stream

theorem unchangedByRefusals_ofRole {role : ProverRole I P}
    (hcommit : ∀ {input stream e rest}, role.commit input stream = .ok (.error e, rest) →
      rest = stream) : (ofRole role).UnchangedByRefusals where
  omits := Trace.of_omits eq_of_isRefusal
  stream := by
    intro p p' input stream rest e hreaches h
    obtain ⟨outcome, houtcome, h⟩ := firstMessage_eq_ok h
    rcases outcome with e' | ⟨message, secrets⟩
    · rw [role_of_reaches hreaches] at houtcome
      exact ⟨h.2, hcommit houtcome⟩
    · cases h.1

/-- A new prover of one of the protocols. -/
inductive Initial : {I P : Type} → Prover I P → Prop
  | encryptedZero {params : Params} {p : Prover EncryptedZero.ProverInput EncryptedZero.Secrets}
      (h : EncryptedZero.prover params = .ok p) : Initial p
  | discreteLog {g : CurveGroup} {params : Params}
      {p : Prover DiscreteLog.ProverInput DiscreteLog.Secrets}
      (h : DiscreteLog.prover g params = .ok p) : Initial p

/-- The statement is checked before the nonce is drawn; a discrete logarithm is always committed
to. -/
theorem Initial.unchangedByRefusals {p₀ : Prover I P} (hp₀ : p₀.Initial) :
    p₀.UnchangedByRefusals := by
  cases hp₀ with
  | @encryptedZero params p h =>
    rw [EncryptedZero.prover_eq_ok h]
    refine unchangedByRefusals_ofRole fun {input stream e rest} hcommit => ?_
    obtain ⟨m, hcheck⟩ | ⟨_, -, -, hrest⟩ := EncryptedZero.check_of_commit hcommit
    · obtain ⟨nonce, -, houtcome⟩ := (EncryptedZero.commit_eq_ok_iff hcheck).mp hcommit
      cases houtcome
    · exact hrest
  | discreteLog h =>
    rw [DiscreteLog.prover_eq_ok h]
    refine unchangedByRefusals_ofRole fun hcommit => ?_
    obtain ⟨nonce, -, houtcome⟩ := DiscreteLog.nonce_of_commit hcommit
    cases houtcome

end Prover

/-! ## Exchanges -/

/-- Different soundness parameters are refused before anything else is done. -/
theorem exchange_of_soundnessBits_ne {I P S T : Type} {p : Prover I P} {v : Verifier S T}
    (h : p.role.soundnessBits ≠ v.role.soundnessBits) (input : I) (statement : S)
    (stream : Bytes) : exchange p v input statement stream =
      .ok ((.error (.invalidParams .soundnessMismatch), p, v), stream) := by
  rw [exchange, if_pos h]
  rfl

/-- **Refusals.** The refused calls of a participant of either protocol change nothing, nor does an
exchange between participants with different soundness parameters, at any time. -/
theorem unchangedByRefusals_participants {I P S T : Type} {p₀ : Prover I P} {v₀ : Verifier S T}
    (hp₀ : p₀.Initial) (hv₀ : v₀.Initial) :
    v₀.UnchangedByRefusals ∧ p₀.UnchangedByRefusals ∧
      (p₀.role.soundnessBits ≠ v₀.role.soundnessBits →
        ∀ {p v}, Reaches Prover.call p₀ p → Reaches Verifier.call v₀ v →
          ∀ input statement stream, exchange p v input statement stream =
            .ok ((.error (.invalidParams .soundnessMismatch), p, v), stream)) := by
  obtain ⟨role, hjudges, rfl⟩ := hv₀.exists_role
  refine ⟨Verifier.unchangedByRefusals_ofRole hjudges, hp₀.unchangedByRefusals, ?_⟩
  intro hne p v hp hv
  refine exchange_of_soundnessBits_ne ?_
  rw [Prover.role_of_reaches hp, (Verifier.checked_of_reaches hv).role_eq]
  exact hne

/-- A run with two refusals, the same run without them, and an exchange that does not begin. -/
theorem unchangedByRefusals_thirtyFive :
    let p := Prover.ofRole (EncryptedZero.proverRole ⟨2, 1⟩)
    let v := Verifier.ofRole (EncryptedZero.verifierRole ⟨1, 1⟩)
    let w : Verifier EncryptedZero.Statement (Nat × Nat) :=
      { v with statement := some ⟨⟨35⟩, ⟨1⟩⟩, challenge := some ⟨[1]⟩ }
    let set : Verifier.Event EncryptedZero.Statement :=
      (.setStatement ⟨⟨35⟩, ⟨1⟩⟩, .done (.ok ()))
    let install : Verifier.Event EncryptedZero.Statement := (.setChallenge ⟨[1]⟩, .done (.ok ()))
    Trace Verifier.call v
      [(.setStatement ⟨⟨34⟩, ⟨1⟩⟩, .done (.error (.invalidStatement .evenModulus))), set, install,
        (.setChallenge ⟨[2]⟩, .done (.error .invalidChallenge))] w ∧
      Trace Verifier.call v [set, install] w ∧
      ∀ stream, exchange p w ⟨⟨⟨35⟩, ⟨4⟩⟩, .ofNat 3⟩ ⟨⟨35⟩, ⟨4⟩⟩ stream =
        .ok ((.error (.invalidParams .soundnessMismatch), p, w), stream) := by
  intro p v w set install
  have hp : p.Initial := .encryptedZero (rfl : EncryptedZero.prover ⟨2, 1⟩ = .ok p)
  have hv : v.Initial := .encryptedZero (rfl : EncryptedZero.verifier ⟨1, 1⟩ = .ok v)
  obtain ⟨hverifier, -, hexchange⟩ := unchangedByRefusals_participants hp hv
  have ht : Trace Verifier.call v
      [(.setStatement ⟨⟨34⟩, ⟨1⟩⟩, .done (.error (.invalidStatement .evenModulus))), set, install,
        (.setChallenge ⟨[2]⟩, .done (.error .invalidChallenge))] w := by
    refine Trace.cons_iff.mpr ⟨v, Verifier.call_of_step (.statementRefused rfl), ?_⟩
    refine Trace.cons_iff.mpr ⟨_, Verifier.call_of_step (.statementSet rfl), ?_⟩
    have he : Challenge.validate ⟨[1]⟩ 1 = .ok (.ok ()) := by decide
    refine Trace.cons_iff.mpr ⟨w, Verifier.call_of_step (.challengeSet he), ?_⟩
    have he' : Challenge.validate ⟨[2]⟩ 1 = .ok (.error .invalidChallenge) := by decide
    exact Trace.cons_iff.mpr
      ⟨w, Verifier.call_of_step (.challengeRefused he'), Trace.nil_iff.mpr rfl⟩
  have homits := hverifier.omits ht
    (.drop trivial (.keep (.keep (.drop trivial .nil))))
  exact ⟨ht, homits, hexchange (by decide) (.refl p) homits.reaches _ _⟩

end SigmaProtocol
