import SigmaProtocol.Proofs.EncryptedZero.Soundness
import SigmaProtocol.Proofs.Verifier

/-!
# Which statement a challenge is for

A proof of a false statement is easy to make for a challenge that is known beforehand. Setting a
statement leaves a pending challenge in place, so the challenge is fresh for its statement only if
no statement was set while it was pending.

* `Verifier.HoldsChallenge.fresh`: what makes a challenge fresh.
* `Verifier.keepsChallenges`: what setting a statement does.
* `challenge_outlives_statement`: a proof of a false statement that is accepted.
-/

namespace SigmaProtocol

namespace Verifier

variable {S T : Type} {role : VerifierRole S T} {v : Verifier S T} {t : List (Event S)}

/-- `e` is the challenge that was installed last, and neither has a proof been checked nor a
statement been set since. -/
def HoldsFreshChallenge (bits : UInt32) (e : Challenge) (t : List (Event S)) : Prop :=
  Since (fun x => ¬ ChecksProof x ∧ ¬ InstallsChallenge x ∧ ¬ SetsStatement x) (Installs bits e) t

/-- No statement has been set while a challenge was pending. -/
def StatementsFirst (t : List (Event S)) : Prop :=
  ∀ ⦃earlier x later⦄, t = earlier ++ x :: later → SetsStatement x → ¬ ChallengePending earlier

theorem Installs.installsChallenge {bits : UInt32} {e : Challenge} {x : Event S}
    (h : Installs bits e x) : InstallsChallenge x := by
  match x, h with
  | (.sampleChallenge _, _), _ => trivial
  | (.setChallenge _, .done (.ok ())), _ => trivial

/-- A statement that was set after the challenge would have come while it was pending. -/
theorem HoldsChallenge.fresh {bits : UInt32} {e : Challenge} (h : HoldsChallenge bits e t)
    (ht : StatementsFirst t) : HoldsFreshChallenge bits e t := by
  obtain ⟨earlier, x, later, rfl, hinstalls, hkeeps⟩ := h
  refine ⟨earlier, x, later, rfl, hinstalls, fun y hy => ?_⟩
  obtain ⟨hchecks, hreplaces⟩ := hkeeps y hy
  refine ⟨hchecks, hreplaces, fun hsets => ?_⟩
  obtain ⟨before, after, rfl⟩ := List.append_of_mem hy
  -- The challenge was pending when `y` came.
  have hpending : ChallengePending (earlier ++ x :: before) :=
    ⟨earlier, x, before, rfl, hinstalls.installsChallenge,
      fun z hz => (hkeeps z (List.mem_append_left _ hz)).1⟩
  have hsplit : earlier ++ x :: (before ++ y :: after) =
      (earlier ++ x :: before) ++ y :: after := by simp
  exact ht hsplit hsets hpending

/-- What setting a statement means for the challenge of `v₀`. -/
structure KeepsChallenges (v₀ : Verifier S T) : Prop where
  /-- A challenge that was pending stays. -/
  challenge_iff : ∀ {t : List (Event S)} {s : S} {e : Challenge} {v : Verifier S T},
    Trace call v₀ (t ++ [(.setStatement s, .done (.ok ()))]) v →
      (v.challenge = some e ↔ HoldsChallenge v₀.role.soundnessBits e t)
  /-- The verifier waits for a challenge exactly if none was pending. -/
  inputSet_iff : ∀ {t : List (Event S)} {s : S} {v : Verifier S T},
    Trace call v₀ (t ++ [(.setStatement s, .done (.ok ()))]) v →
      (v.challenge = none ∧ v.phase = .inputSet ↔ ¬ ChallengePending t)
  /-- If no statement was set while a challenge was pending, a verdict is on a challenge that was
  installed after the statement. -/
  verdict : ∀ {t later : List (Event S)} {first second : Message} {accepted : Bool}
    {v : Verifier S T},
    Trace call v₀ (t ++ (.verify first second, .verdict (.ok accepted)) :: later) v →
      StatementsFirst t →
        ∃ s x e, HoldsStatement s t ∧ HoldsFreshChallenge v₀.role.soundnessBits e t ∧
          v₀.role.contents? first second = some x ∧ v₀.role.accepts s x e = .ok (.ok accepted)

/-- **Binding.** A verifier of either protocol keeps a pending challenge when a statement is set. If
that never happens, each verdict is on a challenge that was installed after the statement. -/
theorem keepsChallenges {v₀ : Verifier S T} (hv₀ : v₀.Initial) : v₀.KeepsChallenges where
  challenge_iff := by
    intro t s e v h
    obtain ⟨role, -, rfl⟩ := hv₀.exists_role
    rw [challenge_eq_some_iff h, HoldsChallenge, since_concat_iff]
    simp [Installs, ChecksProof, InstallsChallenge, HoldsChallenge, ofRole]
  inputSet_iff := by
    intro t s v h
    obtain ⟨role, -, rfl⟩ := hv₀.exists_role
    obtain ⟨before, after, ht, hcall, hafter⟩ := Trace.append_cons_iff.mp h
    obtain rfl := Trace.nil_iff.mp hafter
    rw [← challenge_isSome_iff ht]
    cases step_of_call hcall with
    | statementSet => cases before.challenge <;> simp [phase]
  verdict := by
    intro t later first second accepted v h ht
    obtain ⟨role, -, rfl⟩ := hv₀.exists_role
    obtain ⟨s, x, e, hs, he, hx, haccepts⟩ := verdict_of_trace h
    exact ⟨s, x, e, hs, he.fresh ht, hx, haccepts⟩

end Verifier

theorem keepsChallenges_thirtyFive :
    let v := Verifier.ofRole (EncryptedZero.verifierRole ⟨1, 1⟩)
    let t : List (Verifier.Event EncryptedZero.Statement) :=
      [(.setStatement ⟨⟨35⟩, ⟨1⟩⟩, .done (.ok ())), (.setChallenge ⟨[1]⟩, .done (.ok ()))]
    let last : Verifier.Event EncryptedZero.Statement :=
      (.verify (.integer 1) (.integer 1), .verdict (.ok true))
    v.Initial ∧ (∃ w, Trace Verifier.call v (t ++ last :: []) w) ∧ Verifier.StatementsFirst t ∧
      ∃ s e, Verifier.HoldsStatement s t ∧ Verifier.HoldsFreshChallenge 1 e t := by
  intro v t last
  have hv : v.Initial := .encryptedZero (rfl : EncryptedZero.verifier ⟨1, 1⟩ = .ok v)
  let w : Verifier EncryptedZero.Statement (Nat × Nat) :=
    { v with statement := some ⟨⟨35⟩, ⟨1⟩⟩, challenge := some ⟨[1]⟩ }
  have he : Challenge.validate ⟨[1]⟩ 1 = .ok (.ok ()) := by decide
  have hjudge : w.judge (.integer 1) (.integer 1) = .ok (.ok true) := by decide +kernel
  have ht : Trace Verifier.call v (t ++ last :: [])
      { w with challenge := none, outcome := some true } := by
    refine Trace.cons_iff.mpr ⟨_, Verifier.call_of_step (.statementSet rfl), ?_⟩
    refine Trace.cons_iff.mpr ⟨w, Verifier.call_of_step (.challengeSet he), ?_⟩
    exact Trace.cons_iff.mpr ⟨_, Verifier.call_of_judge hjudge, Trace.nil_iff.mpr rfl⟩
  have hfirst : Verifier.StatementsFirst t := by
    intro earlier x later hsplit hsets
    rcases earlier with _ | ⟨y, _ | ⟨z, rest⟩⟩
    · exact since_nil
    · have hx := (List.cons.inj (List.cons.inj hsplit).2).1
      rw [← hx] at hsets
      exact hsets.elim
    · simp [t] at hsplit
  obtain ⟨s, x, e, hs, he, -⟩ := (Verifier.keepsChallenges hv).verdict ht hfirst
  exact ⟨hv, ⟨_, ht⟩, hfirst, s, e, hs, he⟩

theorem not_encryptsZero_two : ¬ EncryptedZero.EncryptsZero 35 1 2 := by
  rintro ⟨r, -, hr⟩
  have hpow : (r % 35) ^ 35 ≡ r ^ 35 [MOD 35 ^ 2] := modEq_pow_pow (Nat.mod_modEq r 35) 1
  have hall : ∀ x < 35, x ^ 35 % 35 ^ 2 ≠ 2 := by decide +kernel
  exact hall (r % 35) (Nat.mod_lt _ (by decide)) (hpow.trans hr.symm)

/-- A challenge that was released for one statement, and an accepted proof of another one, which is
false. -/
theorem challenge_outlives_statement :
    let v := Verifier.ofRole (EncryptedZero.verifierRole ⟨1, 1⟩)
    let t : List (Verifier.Event EncryptedZero.Statement) :=
      [(.setStatement ⟨⟨35⟩, ⟨1⟩⟩, .done (.ok ())), (.setChallenge ⟨[1]⟩, .done (.ok ())),
        (.setStatement ⟨⟨35⟩, ⟨2⟩⟩, .done (.ok ()))]
    let last : Verifier.Event EncryptedZero.Statement :=
      (.verify (.integer 613) (.integer 1), .verdict (.ok true))
    EncryptedZero.verifier ⟨1, 1⟩ = .ok v ∧
      (∃ w, Trace Verifier.call v t w ∧ w.challenge = some ⟨[1]⟩ ∧ w.phase = .challengeReady) ∧
      (∃ w, Trace Verifier.call v (t ++ [last]) w) ∧
      (∀ e, ¬ Verifier.HoldsFreshChallenge 1 e t) ∧ ¬ EncryptedZero.EncryptsZero 35 1 2 := by
  intro v t last
  let w : Verifier EncryptedZero.Statement (Nat × Nat) :=
    { v with statement := some ⟨⟨35⟩, ⟨2⟩⟩, challenge := some ⟨[1]⟩ }
  have he : Challenge.validate ⟨[1]⟩ 1 = .ok (.ok ()) := by decide
  have ht : Trace Verifier.call v t w := by
    refine Trace.cons_iff.mpr ⟨_, Verifier.call_of_step (.statementSet rfl), ?_⟩
    refine Trace.cons_iff.mpr ⟨_, Verifier.call_of_step (.challengeSet he), ?_⟩
    exact Trace.cons_iff.mpr
      ⟨_, Verifier.call_of_step (.statementSet rfl), Trace.nil_iff.mpr rfl⟩
  have hjudge : w.judge (.integer 613) (.integer 1) = .ok (.ok true) := by decide +kernel
  have hlast : Trace Verifier.call w [last] { w with challenge := none, outcome := some true } :=
    Trace.cons_iff.mpr ⟨_, Verifier.call_of_judge hjudge, Trace.nil_iff.mpr rfl⟩
  refine ⟨rfl, ⟨w, ht, rfl, rfl⟩, ⟨_, Trace.append_iff.mpr ⟨w, ht, hlast⟩⟩, fun e hfresh => ?_,
    not_encryptsZero_two⟩
  have hsets : Verifier.SetsStatement (S := EncryptedZero.Statement)
    (.setStatement ⟨⟨35⟩, ⟨2⟩⟩, .done (.ok ())) := trivial
  exact since_nil (Since.of_append_cons (t := t.take 2) (fun hkeeps => hkeeps.2.2 hsets) id hfresh)

end SigmaProtocol
