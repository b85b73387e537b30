import SigmaProtocol.Exchange
import SigmaProtocol.Proofs.Challenge

/-!
# Runs of provers and verifiers

A caller drives a participant through any sequence of calls, whatever they return. What every call
keeps holds in every state that such a run reaches.

* `Reaches.invariant`: what every call keeps.
* `Prover.step_of_call`, `Verifier.step_of_call`: all that a call can do; `Prover.call_of_step` and
  `Verifier.call_of_step` are the converses.
* `Prover.role_of_reaches`: a prover keeps its role.
* `Verifier.checked_of_reaches`: a verifier keeps its role, the statement that it holds has been
  checked, and so has the challenge.
* `Verifier.accepts_ofRole_iff`: what a verifier accepts in some run is what its role accepts;
  `Verifier.rejects_ofRole`: what its role does not accept, it rejects in every run.
-/

namespace SigmaProtocol

section Run

variable {σ C R : Type} (call : σ → C → Except Fault (R × σ))

/-- The replies to a sequence of calls, and the state behind it. A fault ends the run. -/
def runCalls (s : σ) : List C → Except Fault (List R × σ)
  | [] => .ok ([], s)
  | c :: cs => do
    let (reply, s) ← call s c
    let (replies, s) ← runCalls s cs
    return (reply :: replies, s)

/-- Some sequence of calls leads from one state to the other. -/
def Reaches (s s' : σ) : Prop :=
  ∃ calls replies, runCalls call s calls = .ok (replies, s')

variable {call}

theorem Reaches.refl (s : σ) : Reaches call s s := ⟨[], [], rfl⟩

theorem runCalls_cons {s s' : σ} {c : C} {cs : List C} {replies : List R}
    (h : runCalls call s (c :: cs) = .ok (replies, s')) :
    ∃ reply rest middle, call s c = .ok (reply, middle) ∧
      runCalls call middle cs = .ok (rest, s') ∧ replies = reply :: rest := by
  obtain ⟨⟨reply, middle⟩, hcall, h⟩ := except_bind_eq_ok.mp h
  obtain ⟨⟨rest, last⟩, hrun, h⟩ := except_bind_eq_ok.mp h
  cases h
  exact ⟨reply, rest, middle, hcall, hrun, rfl⟩

theorem Reaches.head {s middle s' : σ} {c : C} {reply : R} (hcall : call s c = .ok (reply, middle))
    (h : Reaches call middle s') : Reaches call s s' := by
  obtain ⟨calls, replies, h⟩ := h
  refine ⟨c :: calls, reply :: replies, ?_⟩
  rw [runCalls, except_bind_eq_ok]
  exact ⟨_, hcall, except_bind_eq_ok.mpr ⟨_, h, rfl⟩⟩

/-- What every call keeps holds in every state that is reached. -/
theorem Reaches.invariant (inv : σ → Prop)
    (hcall : ∀ {s c reply s'}, inv s → call s c = .ok (reply, s') → inv s') {s s' : σ}
    (h : Reaches call s s') (hs : inv s) : inv s' := by
  -- The induction is on the calls from the front, for any state to begin with.
  obtain ⟨calls, replies, h⟩ := h
  induction calls generalizing s replies with
  | nil =>
    cases h
    exact hs
  | cons c cs ih =>
    obtain ⟨reply, rest, middle, hstep, hrun, -⟩ := runCalls_cons h
    exact ih (hcall hs hstep) rest hrun

end Run

/-! ## Provers -/

namespace Prover

variable {I P : Type}

/-- What can be asked of a prover. -/
inductive Call (I : Type)
  | firstMessage (input : I) (stream : Bytes)
  | secondMessage (c : Challenge)

/-- The reply to a call, and the prover after it. -/
def call (p : Prover I P) : Call I → Except Fault (Except ProtocolError Message × Prover I P)
  | .firstMessage input stream => (p.firstMessage input stream).map Prod.fst
  | .secondMessage c => p.secondMessage c

/-- A first message is what the role commits to; a refusal leaves the prover as it was. -/
theorem firstMessage_eq_ok {p p' : Prover I P} {input : I} {stream rest : Bytes}
    {reply : Except ProtocolError Message}
    (h : p.firstMessage input stream = .ok ((reply, p'), rest)) :
    ∃ outcome, p.role.commit input stream = .ok (outcome, rest) ∧
      match outcome with
      | .error e => reply = .error e ∧ p' = p
      | .ok (message, secrets) =>
        reply = .ok message ∧ p' = { p with pending := some secrets } := by
  obtain ⟨outcome, middle, hcommit, h⟩ := Sampler.bind_eq_ok.mp h
  rcases outcome with e | ⟨message, secrets⟩
  · obtain ⟨h, rfl⟩ := Sampler.pure_eq_ok.mp h
    cases h
    exact ⟨_, hcommit, rfl, rfl⟩
  · obtain ⟨h, rfl⟩ := Sampler.pure_eq_ok.mp h
    cases h
    exact ⟨_, hcommit, rfl, rfl⟩

theorem firstMessage_of_commit {p : Prover I P} {input : I} {stream rest : Bytes}
    {first : Message} {secrets : P}
    (h : p.role.commit input stream = .ok (.ok (first, secrets), rest)) :
    p.firstMessage input stream =
      .ok ((.ok first, { p with pending := some secrets }), rest) :=
  Sampler.bind_eq_ok.mpr ⟨_, _, h, rfl⟩

/-- What a call does to a prover, and what it replies. -/
inductive Step (p : Prover I P) : Call I → Except ProtocolError Message → Prover I P → Prop
  | committed {input : I} {stream rest : Bytes} {first : Message} {secrets : P}
      (commit : p.role.commit input stream = .ok (.ok (first, secrets), rest)) :
      Step p (.firstMessage input stream) (.ok first) { p with pending := some secrets }
  | refused {input : I} {stream rest : Bytes} {e : ProtocolError}
      (commit : p.role.commit input stream = .ok (.error e, rest)) :
      Step p (.firstMessage input stream) (.error e) p
  | answered {c : Challenge} {secrets : P}
      (valid : c.validate p.role.soundnessBits = .ok (.ok ()))
      (pending : p.pending = some secrets) :
      Step p (.secondMessage c) (.ok (p.role.answer secrets c)) { p with pending := none }
  | invalid {c : Challenge}
      (invalid : c.validate p.role.soundnessBits = .ok (.error .invalidChallenge)) :
      Step p (.secondMessage c) (.error .invalidChallenge) p
  | missing {c : Challenge} (valid : c.validate p.role.soundnessBits = .ok (.ok ()))
      (pending : p.pending = none) : Step p (.secondMessage c) (.error .missingFirstMessage) p

/-- Whatever is asked of a prover, this is all that can happen. -/
theorem step_of_call {p p' : Prover I P} {c : Call I} {reply : Except ProtocolError Message}
    (h : p.call c = .ok (reply, p')) : p.Step c reply p' := by
  cases c with
  | firstMessage input stream =>
    simp only [call] at h
    rcases hrun : p.firstMessage input stream with _ | ⟨⟨reply', q⟩, rest⟩
    · rw [hrun] at h
      cases h
    · rw [hrun] at h
      cases h
      obtain ⟨outcome, hcommit, h⟩ := firstMessage_eq_ok hrun
      rcases outcome with e | ⟨first, secrets⟩
      · obtain ⟨rfl, rfl⟩ := h
        exact .refused hcommit
      · obtain ⟨rfl, rfl⟩ := h
        exact .committed hcommit
  | secondMessage c =>
    obtain ⟨outcome, hvalidate, h⟩ := except_bind_eq_ok.mp h
    rcases outcome with e | ⟨⟩
    · obtain rfl := Challenge.eq_invalidChallenge_of_validate hvalidate
      cases h
      exact .invalid hvalidate
    · rcases hpending : p.pending with _ | secrets
      · rw [hpending] at h
        cases h
        exact .missing hvalidate hpending
      · rw [hpending] at h
        cases h
        exact .answered hvalidate hpending

theorem call_of_step {p p' : Prover I P} {c : Call I} {reply : Except ProtocolError Message}
    (h : p.Step c reply p') : p.call c = .ok (reply, p') := by
  cases h with
  | committed commit => exact congrArg (Except.map Prod.fst) (firstMessage_of_commit commit)
  | @refused input stream rest e commit =>
    have hrun : p.firstMessage input stream = .ok ((.error e, p), rest) :=
      Sampler.bind_eq_ok.mpr ⟨_, _, commit, rfl⟩
    exact congrArg (Except.map Prod.fst) hrun
  | answered valid pending =>
    exact except_bind_eq_ok.mpr ⟨_, valid, by rw [pending]; rfl⟩
  | invalid invalid => exact except_bind_eq_ok.mpr ⟨_, invalid, rfl⟩
  | missing valid pending =>
    exact except_bind_eq_ok.mpr ⟨_, valid, by rw [pending]; rfl⟩

/-- The prover answers the challenge `c` with `second`. -/
def Answers (p : Prover I P) (c : Challenge) (second : Message) : Prop :=
  ∃ p', p.secondMessage c = .ok (.ok second, p')

/-- The answer to a valid challenge uses the secrets of the last first message. -/
theorem answers_iff {p : Prover I P} {secrets : P} {c : Challenge} {second : Message}
    (hpending : p.pending = some secrets) (hc : c.validate p.role.soundnessBits = .ok (.ok ())) :
    p.Answers c second ↔ p.role.answer secrets c = second := by
  have hanswer : p.secondMessage c =
      .ok (.ok (p.role.answer secrets c), { p with pending := none }) :=
    call_of_step (.answered hc hpending)
  constructor
  · rintro ⟨p', hsecond⟩
    cases hanswer.symm.trans hsecond
    rfl
  · rintro rfl
    exact ⟨_, hanswer⟩

theorem role_call {p p' : Prover I P} {c : Call I} {reply : Except ProtocolError Message}
    (h : p.call c = .ok (reply, p')) : p'.role = p.role := by
  cases step_of_call h <;> rfl

theorem role_of_reaches {p p' : Prover I P} (h : Reaches call p p') : p'.role = p.role :=
  h.invariant (fun q => q.role = p.role) (fun hq hcall => (role_call hcall).trans hq) rfl

end Prover

/-! ## Verifiers -/

namespace Verifier

variable {S T : Type} {role : VerifierRole S T} {v v' : Verifier S T}

/-- What can be asked of a verifier. -/
inductive Call (S : Type)
  | setStatement (statement : S)
  | sampleChallenge (stream : Bytes)
  | setChallenge (c : Challenge)
  | verify (first second : Message)

/-- What a verifier replies to a call. -/
inductive Reply
  | done (outcome : Except ProtocolError Unit)
  | verdict (outcome : Except ProtocolError Bool)

/-- The reply to a call, and the verifier after it. -/
def call (v : Verifier S T) : Call S → Except Fault (Reply × Verifier S T)
  | .setStatement statement => (v.setStatement statement).map fun r => (.done r.1, r.2)
  | .sampleChallenge stream => (v.sampleChallenge stream).map fun r => (.done (.ok ()), r.1)
  | .setChallenge c => (v.setChallenge c).map fun r => (.done r.1, r.2)
  | .verify first second => (v.verify first second).map fun r => (.verdict r.1, r.2)

theorem sampleChallenge_eq_ok {stream rest : Bytes}
    (h : v.sampleChallenge stream = .ok (v', rest)) :
    ∃ c, Challenge.random v.role.soundnessBits stream = .ok (c, rest) ∧
      v' = { v with challenge := some c } := by
  obtain ⟨c, middle, hrandom, h⟩ := Sampler.bind_eq_ok.mp h
  obtain ⟨rfl, rfl⟩ := Sampler.pure_eq_ok.mp h
  exact ⟨c, hrandom, rfl⟩

/-- A verdict is the role's, on the statement and the challenge that are held. -/
theorem judge_eq_ok_iff {first second : Message} {accepted : Bool} :
    v.judge first second = .ok (.ok accepted) ↔
      ∃ s x e, v.statement = some s ∧ v.challenge = some e ∧
        v.role.contents? first second = some x ∧ v.role.accepts s x e = .ok (.ok accepted) := by
  unfold judge
  rcases v.role.contents? first second with _ | x
  · simp
  rcases v.statement with _ | s
  · simp
  rcases v.challenge with _ | e
  · simp
  · simp

/-- A check uses the challenge up. An outcome that it has not reached leaves the last one. -/
theorem verify_eq_ok_iff {first second : Message} {outcome : Except ProtocolError Bool} :
    v.verify first second = .ok (outcome, v') ↔ v.judge first second = .ok outcome ∧
      v' = { v with challenge := none, outcome := outcome.toOption.or v.outcome } := by
  constructor
  · intro h
    obtain ⟨judged, hjudge, h⟩ := except_bind_eq_ok.mp h
    rcases judged with e | accepted
    · cases h
      exact ⟨hjudge, rfl⟩
    · cases h
      exact ⟨hjudge, rfl⟩
  · rintro ⟨hjudge, rfl⟩
    rcases outcome with e | accepted
    · exact except_bind_eq_ok.mpr ⟨_, hjudge, rfl⟩
    · exact except_bind_eq_ok.mpr ⟨_, hjudge, rfl⟩

/-- The check of a proof comes to the verdict `accepted`. -/
def Decides (v : Verifier S T) (first second : Message) (accepted : Bool) : Prop :=
  ∃ v', v.verify first second = .ok (.ok accepted, v')

theorem decides_iff {first second : Message} {accepted : Bool} :
    v.Decides first second accepted ↔ v.judge first second = .ok (.ok accepted) := by
  simp only [Decides, verify_eq_ok_iff, exists_and_left, exists_eq, and_true]

theorem setStatement_of_check {statement : S}
    (h : v.role.checkStatement statement = .ok (.ok ())) : v.setStatement statement =
      .ok (.ok (), { v with statement := some statement, outcome := none }) :=
  except_bind_eq_ok.mpr ⟨_, h, rfl⟩

theorem setChallenge_of_validate {e : Challenge}
    (h : e.validate v.role.soundnessBits = .ok (.ok ())) :
    v.setChallenge e = .ok (.ok (), { v with challenge := some e }) :=
  except_bind_eq_ok.mpr ⟨_, h, rfl⟩

/-- What a call does to a verifier, and what it replies. -/
inductive Step (v : Verifier S T) : Call S → Reply → Verifier S T → Prop
  | statementSet {statement : S} (check : v.role.checkStatement statement = .ok (.ok ())) :
      Step v (.setStatement statement) (.done (.ok ()))
        { v with statement := some statement, outcome := none }
  | statementRefused {statement : S} {e : ProtocolError}
      (check : v.role.checkStatement statement = .ok (.error e)) :
      Step v (.setStatement statement) (.done (.error e)) v
  | sampled {stream rest : Bytes} {c : Challenge}
      (random : Challenge.random v.role.soundnessBits stream = .ok (c, rest)) :
      Step v (.sampleChallenge stream) (.done (.ok ())) { v with challenge := some c }
  | challengeSet {c : Challenge} (valid : c.validate v.role.soundnessBits = .ok (.ok ())) :
      Step v (.setChallenge c) (.done (.ok ())) { v with challenge := some c }
  | challengeRefused {c : Challenge} {e : ProtocolError}
      (invalid : c.validate v.role.soundnessBits = .ok (.error e)) :
      Step v (.setChallenge c) (.done (.error e)) v
  | verified {first second : Message} {outcome : Except ProtocolError Bool}
      (judge : v.judge first second = .ok outcome) :
      Step v (.verify first second) (.verdict outcome)
        { v with challenge := none, outcome := outcome.toOption.or v.outcome }

theorem step_of_call {c : Call S} {reply : Reply}
    (h : v.call c = .ok (reply, v')) : v.Step c reply v' := by
  cases c with
  | setStatement statement =>
    obtain ⟨_, hset, hreply⟩ := except_map_eq_ok.mp h
    obtain ⟨outcome, hcheck, hset⟩ := except_bind_eq_ok.mp hset
    rcases outcome with e | ⟨⟩
    · cases hset
      cases hreply
      exact .statementRefused hcheck
    · cases hset
      cases hreply
      exact .statementSet hcheck
  | sampleChallenge stream =>
    obtain ⟨⟨w, rest⟩, hsample, hreply⟩ := except_map_eq_ok.mp h
    obtain ⟨c, hrandom, rfl⟩ := sampleChallenge_eq_ok hsample
    cases hreply
    exact .sampled hrandom
  | setChallenge c =>
    obtain ⟨_, hset, hreply⟩ := except_map_eq_ok.mp h
    obtain ⟨outcome, hvalid, hset⟩ := except_bind_eq_ok.mp hset
    rcases outcome with e | ⟨⟩
    · cases hset
      cases hreply
      exact .challengeRefused hvalid
    · cases hset
      cases hreply
      exact .challengeSet hvalid
  | verify first second =>
    obtain ⟨_, hverify, hreply⟩ := except_map_eq_ok.mp h
    obtain ⟨hjudge, hafter⟩ := verify_eq_ok_iff.mp hverify
    cases hreply
    rw [hafter]
    exact .verified hjudge

theorem call_of_step {c : Call S} {reply : Reply} (h : v.Step c reply v') :
    v.call c = .ok (reply, v') := by
  cases h with
  | statementSet check => exact except_map_eq_ok.mpr ⟨_, setStatement_of_check check, rfl⟩
  | @statementRefused statement e check =>
    have hset : v.setStatement statement = .ok (.error e, v) :=
      except_bind_eq_ok.mpr ⟨_, check, rfl⟩
    exact except_map_eq_ok.mpr ⟨_, hset, rfl⟩
  | @sampled stream rest c random =>
    have hrun : v.sampleChallenge stream = .ok ({ v with challenge := some c }, rest) :=
      Sampler.bind_eq_ok.mpr ⟨_, _, random, rfl⟩
    exact except_map_eq_ok.mpr ⟨_, hrun, rfl⟩
  | challengeSet valid => exact except_map_eq_ok.mpr ⟨_, setChallenge_of_validate valid, rfl⟩
  | @challengeRefused c e invalid =>
    have hset : v.setChallenge c = .ok (.error e, v) :=
      except_bind_eq_ok.mpr ⟨_, invalid, rfl⟩
    exact except_map_eq_ok.mpr ⟨_, hset, rfl⟩
  | verified judge => exact except_map_eq_ok.mpr ⟨_, verify_eq_ok_iff.mpr ⟨judge, rfl⟩, rfl⟩

theorem call_of_judge {first second : Message} {accepted : Bool}
    (h : v.judge first second = .ok (.ok accepted)) : v.call (.verify first second) =
      .ok (.verdict (.ok accepted), { v with challenge := none, outcome := some accepted }) :=
  call_of_step (.verified h)

/-- What a verifier holds has been checked by its role. -/
structure Checked (role : VerifierRole S T) (v : Verifier S T) : Prop where
  role_eq : v.role = role
  statement : ∀ {s}, v.statement = some s → role.checkStatement s = .ok (.ok ())
  challenge : ∀ {c}, v.challenge = some c → c.validate role.soundnessBits = .ok (.ok ())

theorem decides_of_accepts {statement : S} {e : Challenge} {first second : Message} {contents : T}
    {verdict : Bool} (hcontents : v.role.contents? first second = some contents)
    (hstatement : v.statement = some statement) (he : v.challenge = some e)
    (haccepts : v.role.accepts statement contents e = .ok (.ok verdict)) :
    v.Decides first second verdict :=
  decides_iff.mpr (judge_eq_ok_iff.mpr ⟨_, _, _, hstatement, he, hcontents, haccepts⟩)

theorem checked_ofRole (role : VerifierRole S T) : Checked role (ofRole role) :=
  ⟨rfl, nofun, nofun⟩

/-- Every call keeps what a verifier holds checked. -/
theorem Checked.call {c : Call S} {reply : Reply} (hv : Checked role v)
    (h : v.call c = .ok (reply, v')) : Checked role v' := by
  obtain ⟨rfl, hstatement, hchallenge⟩ := hv
  cases step_of_call h with
  | statementSet check =>
    refine ⟨rfl, fun hs => ?_, hchallenge⟩
    cases hs
    exact check
  | statementRefused => exact ⟨rfl, hstatement, hchallenge⟩
  | sampled random =>
    refine ⟨rfl, hstatement, fun hc => ?_⟩
    cases hc
    exact Challenge.validate_random random
  | challengeSet valid =>
    refine ⟨rfl, hstatement, fun hc => ?_⟩
    cases hc
    exact valid
  | challengeRefused => exact ⟨rfl, hstatement, hchallenge⟩
  | verified => exact ⟨rfl, hstatement, nofun⟩

theorem Checked.of_reaches (hv : Checked role v) (h : Reaches Verifier.call v v') :
    Checked role v' :=
  h.invariant (Checked role) (fun hv hcall => hv.call hcall) hv

theorem checked_of_reaches (h : Reaches call (ofRole role) v) : Checked role v :=
  (checked_ofRole role).of_reaches h

/-- Some run brings the verifier to hold `statement` and `e`, and then to accept the messages. -/
def Accepts (v : Verifier S T) (statement : S) (e : Challenge) (first second : Message) : Prop :=
  ∃ v', Reaches call v v' ∧ v'.statement = some statement ∧ v'.challenge = some e ∧
    v'.Decides first second true

/-- Some run brings the verifier to hold `statement` and `e`, and after any such run it rejects the
messages. -/
def Rejects (v : Verifier S T) (statement : S) (e : Challenge) (first second : Message) : Prop :=
  (∃ v', Reaches call v v' ∧ v'.statement = some statement ∧ v'.challenge = some e) ∧
    ∀ {v'}, Reaches call v v' → v'.statement = some statement → v'.challenge = some e →
      v'.Decides first second false

theorem exists_reaches_of_check {statement : S} {e : Challenge}
    (hstatement : role.checkStatement statement = .ok (.ok ()))
    (he : e.validate role.soundnessBits = .ok (.ok ())) :
    ∃ v, Reaches call (ofRole role) v ∧ v.statement = some statement ∧ v.challenge = some e := by
  let v : Verifier S T := ⟨role, some statement, none, none⟩
  have hset : (ofRole role).call (.setStatement statement) = .ok (.done (.ok ()), v) :=
    call_of_step (.statementSet hstatement)
  have hinstall : v.call (.setChallenge e) =
      .ok (.done (.ok ()), { v with challenge := some e }) :=
    call_of_step (.challengeSet he)
  exact ⟨_, .head hset (.head hinstall (.refl _)), rfl, rfl⟩

/-- The verdict of a verifier is that of its role. -/
theorem decides_of_reaches {statement : S} {e : Challenge} {first second : Message} {contents : T}
    {verdict : Bool} (hreaches : Reaches call (ofRole role) v)
    (hstatement : v.statement = some statement) (he : v.challenge = some e)
    (hcontents : role.contents? first second = some contents)
    (haccepts : role.accepts statement contents e = .ok (.ok verdict)) :
    v.Decides first second verdict := by
  rw [← (checked_of_reaches hreaches).role_eq] at hcontents haccepts
  exact decides_of_accepts hcontents hstatement he haccepts

/-- What is accepted in some run is what the role accepts. -/
theorem accepts_ofRole_iff {statement : S} {e : Challenge} {first second : Message} :
    (ofRole role).Accepts statement e first second ↔
      role.checkStatement statement = .ok (.ok ()) ∧
        e.validate role.soundnessBits = .ok (.ok ()) ∧
        ∃ contents, role.contents? first second = some contents ∧
          role.accepts statement contents e = .ok (.ok true) := by
  constructor
  · rintro ⟨w, hreaches, hstatement, he, hdecides⟩
    have hw := checked_of_reaches hreaches
    refine ⟨hw.statement hstatement, hw.challenge he, ?_⟩
    obtain ⟨s, x, c, hs, hc, hcontents, haccepts⟩ :=
      judge_eq_ok_iff.mp (decides_iff.mp hdecides)
    rw [hstatement] at hs
    rw [he] at hc
    cases hs
    cases hc
    rw [hw.role_eq] at hcontents haccepts
    exact ⟨x, hcontents, haccepts⟩
  · rintro ⟨hstatement, he, contents, hcontents, haccepts⟩
    obtain ⟨w, hreaches, hw, hc⟩ := exists_reaches_of_check hstatement he
    exact ⟨w, hreaches, hw, hc, decides_of_reaches hreaches hw hc hcontents haccepts⟩

/-- What the role does not accept is rejected. -/
theorem rejects_ofRole {statement : S} {e : Challenge} {first second : Message} {contents : T}
    (hstatement : role.checkStatement statement = .ok (.ok ()))
    (he : e.validate role.soundnessBits = .ok (.ok ()))
    (hcontents : role.contents? first second = some contents)
    (haccepts : role.accepts statement contents e = .ok (.ok false)) :
    (ofRole role).Rejects statement e first second :=
  ⟨exists_reaches_of_check hstatement he,
    fun hreaches hw hc => decides_of_reaches hreaches hw hc hcontents haccepts⟩

end Verifier

end SigmaProtocol
