import SigmaProtocol.Group.Secp256k1
import SigmaProtocol.Proofs.DiscreteLog.Roles
import SigmaProtocol.Proofs.EncryptedZero.Roles
import SigmaProtocol.Proofs.Trace

/-!
# The order of a verifier's calls

What a verifier holds is determined by the outcomes of its calls: the statement is the one that was
set last, and the challenge is the one that was installed last, unless a proof has been checked
since. How a proof is judged depends on nothing else.

* `Verifier.statement_eq_some_iff`, `Verifier.challenge_eq_some_iff`: what a verifier holds, from
  its history.
* `Verifier.Checked.judged`: all that can come of a check.
* `Verifier.followsProtocol_ofRole`: the order of the calls, for any role.
* `followsProtocol_verifiers`: the same for both protocols.
-/

namespace SigmaProtocol

namespace Verifier

variable {S T : Type}

/-! ## Events -/

/-- A call and the reply to it. -/
abbrev Event (S : Type) := Call S × Reply

/-- The statement `s` has been set. -/
def Sets (s : S) : Event S → Prop
  | (.setStatement s', .done (.ok ())) => s' = s
  | _ => False

/-- A statement has been set. -/
def SetsStatement : Event S → Prop
  | (.setStatement _, .done (.ok ())) => True
  | _ => False

/-- The challenge `e` has been sampled or set. -/
def Installs (bits : UInt32) (e : Challenge) : Event S → Prop
  | (.sampleChallenge stream, _) => ∃ rest, Challenge.random bits stream = .ok (e, rest)
  | (.setChallenge c, .done (.ok ())) => c = e
  | _ => False

/-- A challenge has been sampled or set. -/
def InstallsChallenge : Event S → Prop
  | (.sampleChallenge _, _) => True
  | (.setChallenge _, .done (.ok ())) => True
  | _ => False

/-- A proof has been checked, whatever came of it. -/
def ChecksProof : Event S → Prop
  | (.verify _ _, _) => True
  | _ => False

/-- `s` is the statement that was set last. -/
def HoldsStatement (s : S) (t : List (Event S)) : Prop :=
  Since (¬ SetsStatement ·) (Sets s) t

/-- `e` is the challenge that was installed last, and no proof has been checked since. -/
def HoldsChallenge (bits : UInt32) (e : Challenge) (t : List (Event S)) : Prop :=
  Since (fun x => ¬ ChecksProof x ∧ ¬ InstallsChallenge x) (Installs bits e) t

/-- Since a challenge was installed, no proof has been checked. -/
def ChallengePending (t : List (Event S)) : Prop :=
  Since (¬ ChecksProof ·) InstallsChallenge t

/-! ## What a verifier holds -/

variable {role : VerifierRole S T} {v : Verifier S T} {t : List (Event S)}

theorem statement_eq_some_iff (h : Trace call (ofRole role) t v) {s : S} :
    v.statement = some s ↔ HoldsStatement s t := by
  refine h.since_iff (motive := fun v => v.statement = some s) (by simp [ofRole]) ?_
  intro t c reply v v' ht hcall
  cases step_of_call hcall with
  | statementSet => simp [Sets, SetsStatement]
  | statementRefused => simp [Sets, SetsStatement]
  | sampled => simp [Sets, SetsStatement]
  | challengeSet => simp [Sets, SetsStatement]
  | challengeRefused => simp [Sets, SetsStatement]
  | verified => simp [Sets, SetsStatement]

theorem statement_isSome_iff (h : Trace call (ofRole role) t v) :
    v.statement.isSome ↔ ∃ x ∈ t, SetsStatement x := by
  rw [← since_true_iff]
  refine h.since_iff (motive := fun v => v.statement.isSome) (by simp [ofRole]) ?_
  intro t c reply v v' ht hcall
  cases step_of_call hcall with
  | statementSet => simp [SetsStatement]
  | statementRefused => simp [SetsStatement]
  | sampled => simp [SetsStatement]
  | challengeSet => simp [SetsStatement]
  | challengeRefused => simp [SetsStatement]
  | verified => simp [SetsStatement]

/-- The challenge that is held is the one that was installed last, unless a proof has been checked
since. -/
theorem challenge_eq_some_iff (h : Trace call (ofRole role) t v) {e : Challenge} :
    v.challenge = some e ↔ HoldsChallenge role.soundnessBits e t := by
  refine h.since_iff (motive := fun v => v.challenge = some e) (by simp [ofRole]) ?_
  intro t c reply v v' ht hcall
  obtain rfl := (checked_of_reaches ht.reaches).role_eq
  cases step_of_call hcall with
  | statementSet => simp [Installs, InstallsChallenge, ChecksProof]
  | statementRefused => simp [Installs, InstallsChallenge, ChecksProof]
  | sampled random => simp [Installs, InstallsChallenge, random]
  | challengeSet => simp [Installs, InstallsChallenge]
  | challengeRefused => simp [Installs, InstallsChallenge, ChecksProof]
  | verified => simp [Installs, ChecksProof]

theorem challenge_isSome_iff (h : Trace call (ofRole role) t v) :
    v.challenge.isSome ↔ ChallengePending t := by
  refine h.since_iff (motive := fun v => v.challenge.isSome) (by simp [ofRole]) ?_
  intro t c reply v v' ht hcall
  cases step_of_call hcall with
  | statementSet => simp [InstallsChallenge, ChecksProof]
  | statementRefused => simp [InstallsChallenge, ChecksProof]
  | sampled => simp [InstallsChallenge]
  | challengeSet => simp [InstallsChallenge]
  | challengeRefused => simp [InstallsChallenge, ChecksProof]
  | verified => simp [InstallsChallenge, ChecksProof]

/-- The challenge after a check was installed after it. -/
theorem HoldsChallenge.of_append_cons {bits : UInt32} {e : Challenge} {x : Event S}
    {u : List (Event S)} (hx : ChecksProof x) (h : HoldsChallenge bits e (t ++ x :: u)) :
    HoldsChallenge bits e u := by
  refine Since.of_append_cons (fun hkeeps => hkeeps.1 hx) (fun hinstalls => ?_) h
  match x, hx, hinstalls with
  | (.verify _ _, _), _, hinstalls => exact hinstalls

/-- Only the statement decides whether a verifier is uninitialized. -/
theorem phase_eq_uninitialized_iff : v.phase = .uninitialized ↔ v.statement = none := by
  unfold phase
  cases v.statement with
  | none => simp
  | some s => cases v.challenge <;> cases v.outcome <;> simp

/-! ## What comes of a check -/

/-- The outcomes of a check, each with what leads to it. -/
inductive Judged (v : Verifier S T) (first second : Message) : Except ProtocolError Bool → Prop
  | unexpectedMessage (contents : v.role.contents? first second = none) :
      Judged v first second (.error .unexpectedMessage)
  | missingInput {x : T} (contents : v.role.contents? first second = some x)
      (statement : v.statement = none) : Judged v first second (.error .missingInput)
  | missingChallenge {x : T} {s : S} (contents : v.role.contents? first second = some x)
      (statement : v.statement = some s) (challenge : v.challenge = none) :
      Judged v first second (.error .missingChallenge)
  | checked {x : T} {s : S} {e : Challenge} {accepted : Bool}
      (contents : v.role.contents? first second = some x) (statement : v.statement = some s)
      (challenge : v.challenge = some e) (accepts : v.role.accepts s x e = .ok (.ok accepted)) :
      Judged v first second (.ok accepted)

/-- The role comes to a verdict on every proof of a statement that it takes. -/
def JudgesProofs (role : VerifierRole S T) : Prop :=
  ∀ {s}, role.checkStatement s = .ok (.ok ()) → ∀ x e, ∃ b, role.accepts s x e = .ok (.ok b)

/-- Such a role refuses nothing for the sake of the statement. -/
theorem Checked.judged (hv : Checked role v) (hjudges : JudgesProofs role)
    (first second : Message) :
    ∃ outcome, v.judge first second = .ok outcome ∧ v.Judged first second outcome := by
  obtain rfl := hv.role_eq
  -- The checks in their order; behind them the statement is one that the role takes.
  unfold judge
  rcases hcontents : v.role.contents? first second with _ | x
  · exact ⟨_, rfl, .unexpectedMessage hcontents⟩
  rcases hstatement : v.statement with _ | s
  · exact ⟨_, rfl, .missingInput hcontents hstatement⟩
  rcases hchallenge : v.challenge with _ | e
  · exact ⟨_, rfl, .missingChallenge hcontents hstatement hchallenge⟩
  obtain ⟨accepted, haccepts⟩ := hjudges (hv.statement hstatement) x e
  exact ⟨_, haccepts, .checked hcontents hstatement hchallenge haccepts⟩

/-- The check of a proof always returns. -/
theorem exists_verify_of_reaches (hjudges : JudgesProofs role)
    (h : Reaches call (ofRole role) v) (first second : Message) :
    ∃ outcome, v.verify first second =
      .ok (outcome, { v with challenge := none, outcome := outcome.toOption.or v.outcome }) := by
  obtain ⟨outcome, hjudge, -⟩ := (checked_of_reaches h).judged hjudges first second
  exact ⟨outcome, verify_eq_ok_iff.mpr ⟨hjudge, rfl⟩⟩

/-! ## Runs -/

/-- The calls to `v₀` and what follows them are in the order of the protocol. The messages of a
proof have to be of the kinds that `Expected` says. -/
structure FollowsProtocol (v₀ : Verifier S T) (Expected : Message → Message → Prop) : Prop where
  /-- The verifier is uninitialized until a statement has been set. -/
  phase_iff : ∀ {t : List (Event S)} {v : Verifier S T}, Trace call v₀ t v →
    (v.phase = .uninitialized ↔ ∀ x ∈ t, ¬ SetsStatement x)
  /-- A challenge is there if one has been installed since the last check. -/
  pending_iff : ∀ {t : List (Event S)} {v : Verifier S T}, Trace call v₀ t v →
    (v.challenge.isSome ↔ ChallengePending t)
  /-- The challenge is the one that was installed last. -/
  challenge_iff : ∀ {t : List (Event S)} {v : Verifier S T} {e : Challenge}, Trace call v₀ t v →
    (v.challenge = some e ↔ HoldsChallenge v₀.role.soundnessBits e t)
  /-- The check of a proof always returns. -/
  verify_returns : ∀ {v : Verifier S T}, Reaches call v₀ v → ∀ first second : Message,
    ∃ reply, v.verify first second = .ok reply
  /-- A verdict is reached exactly if the messages, a statement and a challenge are there. -/
  isOk_iff : ∀ {t later : List (Event S)} {first second : Message}
    {outcome : Except ProtocolError Bool} {v : Verifier S T},
    Trace call v₀ (t ++ (.verify first second, .verdict outcome) :: later) v →
      ((∃ accepted, outcome = .ok accepted) ↔
        Expected first second ∧ (∃ x ∈ t, SetsStatement x) ∧ ChallengePending t)
  /-- Otherwise the first of the three that is not there is named. -/
  error_iff : ∀ {t later : List (Event S)} {first second : Message}
    {outcome : Except ProtocolError Bool} {e : ProtocolError} {v : Verifier S T},
    Trace call v₀ (t ++ (.verify first second, .verdict outcome) :: later) v →
      (outcome = .error e ↔
        e = .unexpectedMessage ∧ ¬ Expected first second ∨
        e = .missingInput ∧ Expected first second ∧ (∀ x ∈ t, ¬ SetsStatement x) ∨
        e = .missingChallenge ∧ Expected first second ∧ (∃ x ∈ t, SetsStatement x) ∧
          ¬ ChallengePending t)
  /-- The verdict is on the statement and the challenge that came last. -/
  verdict : ∀ {t later : List (Event S)} {first second : Message} {accepted : Bool}
    {v : Verifier S T},
    Trace call v₀ (t ++ (.verify first second, .verdict (.ok accepted)) :: later) v →
      ∃ s x e, HoldsStatement s t ∧ HoldsChallenge v₀.role.soundnessBits e t ∧
        v₀.role.contents? first second = some x ∧ v₀.role.accepts s x e = .ok (.ok accepted)
  /-- No challenge outlives a check. -/
  used_once : ∀ {t u : List (Event S)} {first second : Message} {reply : Reply} {e : Challenge}
    {v : Verifier S T}, Trace call v₀ (t ++ (.verify first second, reply) :: u) v →
    v.challenge = some e → HoldsChallenge v₀.role.soundnessBits e u

/-- What a check in the middle of a run replies is what the verifier before it judges. -/
theorem judge_of_trace {later : List (Event S)} {first second : Message}
    {outcome : Except ProtocolError Bool}
    (h : Trace call (ofRole role) (t ++ (.verify first second, .verdict outcome) :: later) v) :
    ∃ before, Trace call (ofRole role) t before ∧ Checked role before ∧
      before.judge first second = .ok outcome := by
  obtain ⟨before, after, ht, hcall, -⟩ := Trace.append_cons_iff.mp h
  refine ⟨before, ht, checked_of_reaches ht.reaches, ?_⟩
  cases step_of_call hcall with
  | verified judge => exact judge

theorem verdict_of_trace {later : List (Event S)} {first second : Message} {accepted : Bool}
    (h : Trace call (ofRole role)
      (t ++ (.verify first second, .verdict (.ok accepted)) :: later) v) :
    ∃ s x e, HoldsStatement s t ∧ HoldsChallenge role.soundnessBits e t ∧
      role.contents? first second = some x ∧ role.accepts s x e = .ok (.ok accepted) := by
  obtain ⟨before, ht, hbefore, hjudge⟩ := judge_of_trace h
  obtain ⟨s, x, e, hs, he, hx, haccepts⟩ := judge_eq_ok_iff.mp hjudge
  rw [hbefore.role_eq] at hx haccepts
  exact ⟨s, x, e, (statement_eq_some_iff ht).mp hs, (challenge_eq_some_iff ht).mp he, hx, haccepts⟩

theorem judged_of_trace {later : List (Event S)} {first second : Message}
    {outcome : Except ProtocolError Bool} (hjudges : JudgesProofs role)
    (h : Trace call (ofRole role) (t ++ (.verify first second, .verdict outcome) :: later) v) :
    ∃ before, Trace call (ofRole role) t before ∧ before.role = role ∧
      before.Judged first second outcome := by
  obtain ⟨before, ht, hbefore, hjudge⟩ := judge_of_trace h
  obtain ⟨outcome', hjudge', hjudged⟩ := hbefore.judged hjudges first second
  cases hjudge.symm.trans hjudge'
  exact ⟨before, ht, hbefore.role_eq, hjudged⟩

theorem followsProtocol_ofRole {Expected : Message → Message → Prop}
    (hexpected : ∀ {first second},
      (∃ x, role.contents? first second = some x) ↔ Expected first second)
    (hjudges : JudgesProofs role) :
    (ofRole role).FollowsProtocol Expected where
  phase_iff := by
    intro t v h
    rw [phase_eq_uninitialized_iff, ← Option.not_isSome_iff_eq_none, statement_isSome_iff h]
    push Not
    rfl
  pending_iff := challenge_isSome_iff
  challenge_iff := fun h => challenge_eq_some_iff h
  verify_returns := by
    intro v h first second
    obtain ⟨outcome, hverify⟩ := exists_verify_of_reaches hjudges h first second
    exact ⟨_, hverify⟩
  isOk_iff := by
    intro t later first second outcome v h
    obtain ⟨before, ht, hrole, hjudged⟩ := judged_of_trace hjudges h
    -- What the history says is read off the verifier before the check.
    rw [← hexpected, ← statement_isSome_iff ht, ← challenge_isSome_iff ht, ← hrole]
    cases hjudged with
    | unexpectedMessage contents => simp [contents]
    | missingInput contents statement => simp [statement]
    | missingChallenge contents statement challenge => simp [challenge]
    | checked contents statement challenge accepts => simp [contents, statement, challenge]
  error_iff := by
    intro t later first second outcome e v h
    obtain ⟨before, ht, hrole, hjudged⟩ := judged_of_trace hjudges h
    have hnone : (∀ x ∈ t, ¬ SetsStatement x) ↔ ¬ ∃ x ∈ t, SetsStatement x := by simp
    rw [hnone, ← hexpected, ← statement_isSome_iff ht, ← challenge_isSome_iff ht, ← hrole]
    cases hjudged with
    | unexpectedMessage contents =>
      simp only [contents, Except.error.injEq]
      simpa using eq_comm
    | missingInput contents statement =>
      simp only [contents, statement, Except.error.injEq]
      simpa using eq_comm
    | missingChallenge contents statement challenge =>
      simp only [contents, statement, challenge, Except.error.injEq]
      simpa using eq_comm
    | checked contents statement challenge accepts => simp [contents, statement, challenge]
  verdict := fun h => verdict_of_trace h
  used_once := by
    intro t u first second reply e v h he
    have hholds := (challenge_eq_some_iff h).mp he
    exact HoldsChallenge.of_append_cons (x := (.verify first second, reply)) trivial hholds

end Verifier

/-! ## The verifiers of the protocols -/

/-- A new verifier of one of the protocols. -/
inductive Verifier.Initial : {S T : Type} → Verifier S T → Prop
  | encryptedZero {params : Params} {v : Verifier EncryptedZero.Statement (Nat × Nat)}
      (h : EncryptedZero.verifier params = .ok v) : Initial v
  | discreteLog {g : CurveGroup} {params : Params}
      {v : Verifier DiscreteLog.Statement (Bytes × Nat)}
      (h : DiscreteLog.verifier g params = .ok v) : Initial v

theorem EncryptedZero.judgesProofs (params : Params) :
    Verifier.JudgesProofs (verifierRole params) :=
  exists_accepts_eq

theorem DiscreteLog.judgesProofs (g : CurveGroup) (params : Params) :
    Verifier.JudgesProofs (verifierRole g params) :=
  fun _ _ _ => ⟨_, accepts_verifierRole_iff.mpr rfl⟩

theorem Verifier.Initial.exists_role {S T : Type} {v : Verifier S T} (h : v.Initial) :
    ∃ role, JudgesProofs role ∧ v = ofRole role := by
  cases h with
  | encryptedZero h =>
    exact ⟨_, EncryptedZero.judgesProofs _, EncryptedZero.verifier_eq_ok h⟩
  | discreteLog h => exact ⟨_, DiscreteLog.judgesProofs _ _, DiscreteLog.verifier_eq_ok h⟩

/-- **Order.** The calls to a verifier of either protocol follow the order of the protocol. -/
theorem followsProtocol_verifiers :
    (∀ params v, EncryptedZero.verifier params = .ok v →
      v.FollowsProtocol fun first second => ∃ a z, first = .integer a ∧ second = .integer z) ∧
    (∀ g params v, DiscreteLog.verifier g params = .ok v →
      v.FollowsProtocol fun first second => ∃ a z, first = .element a ∧ second = .integer z) := by
  refine ⟨fun params v hv => ?_, fun g params v hv => ?_⟩
  · rw [EncryptedZero.verifier_eq_ok hv]
    refine Verifier.followsProtocol_ofRole ?_ (EncryptedZero.judgesProofs params)
    intro first second
    simp only [Prod.exists, EncryptedZero.contents?_eq_some_iff]
  · rw [DiscreteLog.verifier_eq_ok hv]
    refine Verifier.followsProtocol_ofRole ?_ (DiscreteLog.judgesProofs g params)
    intro first second
    simp only [Prod.exists, DiscreteLog.contents?_eq_some_iff]

/-- A message of the wrong kind uses the challenge up like any other. -/
theorem followsProtocol_thirtyFive_secp256k1 :
    let v := Verifier.ofRole (EncryptedZero.verifierRole ⟨1, 1⟩)
    let t : List (Verifier.Event EncryptedZero.Statement) :=
      [(.setStatement ⟨⟨35⟩, ⟨1⟩⟩, .done (.ok ())), (.setChallenge ⟨[1]⟩, .done (.ok ())),
        (.verify (.element []) (.integer 1), .verdict (.error .unexpectedMessage))]
    let last : Verifier.Event EncryptedZero.Statement :=
      (.verify (.integer 1) (.integer 1), .verdict (.error .missingChallenge))
    Trace Verifier.call v (t ++ last :: []) { v with statement := some ⟨⟨35⟩, ⟨1⟩⟩ } ∧
      ¬ Verifier.ChallengePending t ∧
      (Verifier.ofRole (DiscreteLog.verifierRole .secp256k1 ⟨80, 1⟩)).FollowsProtocol
        fun first second => ∃ a z, first = .element a ∧ second = .integer z := by
  intro v t last
  have hv : EncryptedZero.verifier ⟨1, 1⟩ = .ok v := rfl
  have hw : DiscreteLog.verifier .secp256k1 ⟨80, 1⟩ =
    .ok (.ofRole (DiscreteLog.verifierRole .secp256k1 ⟨80, 1⟩)) := rfl
  have ht : Trace Verifier.call v (t ++ last :: []) { v with statement := some ⟨⟨35⟩, ⟨1⟩⟩ } := by
    refine Trace.cons_iff.mpr ⟨_, Verifier.call_of_step (.statementSet rfl), ?_⟩
    have he : Challenge.validate ⟨[1]⟩ 1 = .ok (.ok ()) := by decide
    refine Trace.cons_iff.mpr ⟨_, Verifier.call_of_step (.challengeSet he), ?_⟩
    refine Trace.cons_iff.mpr ⟨_, Verifier.call_of_step (.verified rfl), ?_⟩
    exact Trace.cons_iff.mpr ⟨_, Verifier.call_of_step (.verified rfl), Trace.nil_iff.mpr rfl⟩
  refine ⟨ht, ?_, followsProtocol_verifiers.2 _ _ _ hw⟩
  have herror := ((followsProtocol_verifiers.1 _ _ hv).error_iff ht).mp rfl
  simp only [reduceCtorEq, false_and, true_and, false_or] at herror
  exact herror.2.2

end SigmaProtocol
