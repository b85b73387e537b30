import SigmaProtocol.Group.Secp256k1
import SigmaProtocol.Proofs.DiscreteLog.Roles
import SigmaProtocol.Proofs.EncryptedZero.Roles
import SigmaProtocol.Proofs.Trace

/-!
# No nonce is used twice

Two answers from one nonce give the witness away. A prover holds the secrets behind its last first
message until it has computed an answer from them; refused calls change nothing, in particular the
refusal of a challenge, which is checked before the secrets are taken.

* `Prover.pending_eq_some_iff`: the secrets that a prover holds, from its history.
* `Prover.replied_of_trace`: what a challenge is answered with, from the history before it.
* `Prover.noncesUsedOnce_ofRole`: no nonce is used twice, for any role.
* `noncesUsedOnce_provers`: the same for both protocols, whose nonces are drawn at random.
-/

namespace SigmaProtocol

namespace Prover

variable {I P : Type}

/-! ## Events -/

/-- A call and the reply to it. -/
abbrev Event (I : Type) := Call I × Except ProtocolError Message

/-- A first message has been computed. -/
def IsCommitment : Event I → Prop
  | (.firstMessage _ _, .ok _) => True
  | _ => False

/-- An answer has been computed. -/
def IsAnswer : Event I → Prop
  | (.secondMessage _, .ok _) => True
  | _ => False

/-- The call has been refused. -/
def IsRefusal : Event I → Prop
  | (_, .error _) => True
  | (_, .ok _) => False

/-- A first message has been computed, and `secrets` are behind it. -/
def Stores (role : ProverRole I P) (secrets : P) : Event I → Prop
  | (.firstMessage input stream, .ok first) =>
    ∃ rest, role.commit input stream = .ok (.ok (first, secrets), rest)
  | _ => False

/-- Since a first message was computed, no answer has been. -/
def NoncePending (t : List (Event I)) : Prop :=
  Since (¬ IsAnswer ·) IsCommitment t

/-! ## What a prover holds -/

variable {role : ProverRole I P} {p : Prover I P} {t : List (Event I)}

/-- The secrets are those behind the last first message, if only refusals came after it. -/
theorem pending_eq_some_iff (h : Trace call (ofRole role) t p) {secrets : P} :
    p.pending = some secrets ↔ Since IsRefusal (Stores role secrets) t := by
  refine h.since_iff (motive := fun p => p.pending = some secrets) (by simp [ofRole]) ?_
  intro t c reply p p' ht hcall
  obtain rfl := role_of_reaches ht.reaches
  cases step_of_call hcall with
  | committed commit => simp [Stores, IsRefusal, commit]
  | refused => simp [Stores, IsRefusal]
  | answered => simp [Stores, IsRefusal]
  | invalid => simp [Stores, IsRefusal]
  | missing => simp [Stores, IsRefusal]

theorem pending_isSome_iff (h : Trace call (ofRole role) t p) :
    p.pending.isSome ↔ NoncePending t := by
  refine h.since_iff (motive := fun p => p.pending.isSome) (by simp [ofRole]) ?_
  intro t c reply p p' ht hcall
  cases step_of_call hcall with
  | committed => simp [IsCommitment]
  | refused => simp [IsCommitment, IsAnswer]
  | answered => simp [IsCommitment, IsAnswer]
  | invalid => simp [IsCommitment, IsAnswer]
  | missing => simp [IsCommitment, IsAnswer]

/-! ## Runs -/

/-- The answer `second` to the challenge `c` comes from the nonce and the witness of this first
message. -/
def Explains (explains : I → Bytes → Message → Challenge → Message → Prop) (c : Challenge)
    (second : Message) : Event I → Prop
  | (.firstMessage input stream, .ok first) => explains input stream first c second
  | _ => False

/-- In no run from `p₀` is a nonce used in two answers. A first message and an answer that come from
the same nonce and witness are in the relation `explains`. -/
structure NoncesUsedOnce (p₀ : Prover I P)
    (explains : I → Bytes → Message → Challenge → Message → Prop) : Prop where
  /-- An answer comes from the last first message, and only refusals lie in between. -/
  answer : ∀ {t later : List (Event I)} {c : Challenge} {second : Message} {p : Prover I P},
    Trace call p₀ (t ++ (.secondMessage c, .ok second) :: later) p →
      Since IsRefusal (Explains explains c second) t
  /-- Between two answers there is a first message. -/
  commitment_between : ∀ {t u later : List (Event I)} {c₁ c₂ : Challenge}
    {second₁ second₂ : Message} {p : Prover I P},
    Trace call p₀ (t ++ (.secondMessage c₁, .ok second₁) :: u ++
      (.secondMessage c₂, .ok second₂) :: later) p → ∃ x ∈ u, IsCommitment x
  /-- A valid challenge is answered exactly if a nonce is there that has not been used. -/
  isOk_iff : ∀ {t later : List (Event I)} {c : Challenge} {reply : Except ProtocolError Message}
    {p : Prover I P}, Trace call p₀ (t ++ (.secondMessage c, reply) :: later) p →
    c.validate p₀.role.soundnessBits = .ok (.ok ()) →
      ((∃ second, reply = .ok second) ↔ NoncePending t)
  /-- Before the first nonce, and when the last one has been used, a valid challenge is refused. -/
  missing : ∀ {t later : List (Event I)} {c : Challenge} {reply : Except ProtocolError Message}
    {p : Prover I P}, Trace call p₀ (t ++ (.secondMessage c, reply) :: later) p →
    c.validate p₀.role.soundnessBits = .ok (.ok ()) → ¬ NoncePending t →
      reply = .error .missingFirstMessage
  /-- A challenge that is not valid is refused whether or not a nonce is there. -/
  invalid : ∀ {t later : List (Event I)} {c : Challenge} {reply : Except ProtocolError Message}
    {p : Prover I P}, Trace call p₀ (t ++ (.secondMessage c, reply) :: later) p →
    c.validate p₀.role.soundnessBits ≠ .ok (.ok ()) → reply = .error .invalidChallenge
  /-- The refusal of a challenge uses no nonce: the run would be the same without it. -/
  invalid_kept : ∀ {t later : List (Event I)} {c : Challenge} {p : Prover I P},
    Trace call p₀ (t ++ (.secondMessage c, .error .invalidChallenge) :: later) p →
      Trace call p₀ (t ++ later) p

/-- What a call in the middle of a run does. -/
theorem step_of_trace {later : List (Event I)} {c : Call I} {reply : Except ProtocolError Message}
    (h : Trace call (ofRole role) (t ++ (c, reply) :: later) p) :
    ∃ before after, Trace call (ofRole role) t before ∧ before.role = role ∧
      before.Step c reply after ∧ Trace call after later p := by
  obtain ⟨before, after, ht, hcall, hlater⟩ := Trace.append_cons_iff.mp h
  exact ⟨before, after, ht, role_of_reaches ht.reaches, step_of_call hcall, hlater⟩

/-- What is said to the challenge `c` after the history `t`, each with what leads to it. -/
inductive Replied (role : ProverRole I P) (t : List (Event I)) (c : Challenge) :
    Except ProtocolError Message → Prop
  | answered {second : Message} (valid : c.validate role.soundnessBits = .ok (.ok ()))
      (pending : NoncePending t) : Replied role t c (.ok second)
  | invalid (invalid : c.validate role.soundnessBits = .ok (.error .invalidChallenge)) :
      Replied role t c (.error .invalidChallenge)
  | missing (valid : c.validate role.soundnessBits = .ok (.ok ())) (used : ¬ NoncePending t) :
      Replied role t c (.error .missingFirstMessage)

theorem replied_of_trace {later : List (Event I)} {c : Challenge}
    {reply : Except ProtocolError Message}
    (h : Trace call (ofRole role) (t ++ (.secondMessage c, reply) :: later) p) :
    Replied role t c reply := by
  obtain ⟨before, after, ht, rfl, hstep, -⟩ := step_of_trace h
  cases hstep with
  | answered valid pending =>
    exact .answered valid ((pending_isSome_iff ht).mp (by simp [pending]))
  | invalid invalid => exact .invalid invalid
  | missing valid pending =>
    exact .missing valid fun hused => by simpa [pending] using (pending_isSome_iff ht).mpr hused

/-- Whatever the role, its secrets are taken when an answer is computed, and not before. -/
theorem noncesUsedOnce_ofRole {explains : I → Bytes → Message → Challenge → Message → Prop}
    (hexplains : ∀ {input stream first secrets rest},
      role.commit input stream = .ok (.ok (first, secrets), rest) →
        ∀ c, explains input stream first c (role.answer secrets c)) :
    (ofRole role).NoncesUsedOnce explains where
  answer := by
    intro t later c second p h
    obtain ⟨before, after, ht, hrole, hstep, -⟩ := step_of_trace h
    cases hstep with
    | answered valid pending =>
      refine ((pending_eq_some_iff ht).mp pending).mono (fun _ _ => id) fun x _ hx => ?_
      match x, hx with
      | (.firstMessage input stream, .ok first), ⟨rest, hcommit⟩ =>
        rw [hrole]
        exact hexplains hcommit c
  commitment_between := by
    intro t u later c₁ c₂ second₁ second₂ p h
    cases replied_of_trace h with
    | answered _ pending =>
      obtain ⟨earlier, x, later, rfl, hx, -⟩ :=
        pending.of_append_cons (by simp [IsAnswer]) (by simp [IsCommitment])
      exact ⟨x, by simp, hx⟩
  isOk_iff := by
    intro t later c reply p h hvalid
    cases replied_of_trace h with
    | answered _ pending => simp [pending]
    | invalid invalid => cases invalid.symm.trans hvalid
    | missing _ used => simp [used]
  missing := by
    intro t later c reply p h hvalid hused
    cases replied_of_trace h with
    | answered _ pending => exact absurd pending hused
    | invalid invalid => cases invalid.symm.trans hvalid
    | missing => rfl
  invalid := by
    intro t later c reply p h hinvalid
    cases replied_of_trace h with
    | answered valid => exact absurd valid hinvalid
    | invalid => rfl
    | missing valid => exact absurd valid hinvalid
  invalid_kept := by
    intro t later c p h
    obtain ⟨before, after, ht, -, hstep, hlater⟩ := step_of_trace h
    cases hstep with
    | invalid => exact Trace.append_iff.mpr ⟨before, ht, hlater⟩

end Prover

/-! ## The provers of the protocols -/

/-- A first message and an answer from the nonce in `stream` and the witness in `input`. -/
def EncryptedZero.Explains (params : Params) (input : ProverInput) (stream : Bytes)
    (first : Message) (c : Challenge) (second : Message) : Prop :=
  ∃ m nonce rest, input.common.check params = .ok (.ok m) ∧
    Sampler.unitTopFirst m.n stream = .ok (nonce, rest) ∧
    first = .integer (firstMessage m nonce) ∧
    second = .integer (response ⟨nonce, input.randomness.toNat % m.n, m.n⟩ c.exponent.toNat)

/-- A first message and an answer from the nonce in `stream` and the witness in `input`. -/
def DiscreteLog.Explains (g : CurveGroup) (input : ProverInput) (stream : Bytes)
    (first : Message) (c : Challenge) (second : Message) : Prop :=
  ∃ nonce rest, Sampler.residueTopFirst g.order (fun _ => true) stream = .ok (nonce, rest) ∧
    first = .element (firstMessage g nonce) ∧
    second = .integer (response g ⟨nonce, input.witness.toNat % g.order⟩ c.exponent.toNat)

/-- **Nonces.** In no run of a prover of either protocol is a nonce used in two answers. -/
theorem noncesUsedOnce_provers :
    (∀ params p, EncryptedZero.prover params = .ok p →
      p.NoncesUsedOnce (EncryptedZero.Explains params)) ∧
    (∀ g params p, DiscreteLog.prover g params = .ok p →
      p.NoncesUsedOnce (DiscreteLog.Explains g)) := by
  refine ⟨fun params p hp => ?_, fun g params p hp => ?_⟩
  · rw [EncryptedZero.prover_eq_ok hp]
    refine Prover.noncesUsedOnce_ofRole fun {input stream first secrets rest} hcommit c => ?_
    obtain ⟨m, nonce, hcheck, hnonce, rfl, rfl⟩ := EncryptedZero.nonce_of_commit hcommit
    exact ⟨m, nonce, rest, hcheck, hnonce, rfl, rfl⟩
  · rw [DiscreteLog.prover_eq_ok hp]
    refine Prover.noncesUsedOnce_ofRole fun {input stream first secrets rest} hcommit c => ?_
    obtain ⟨nonce, hnonce, houtcome⟩ := DiscreteLog.nonce_of_commit hcommit
    cases houtcome
    exact ⟨nonce, rest, hnonce, rfl, rfl⟩

theorem noncesUsedOnce_thirtyFive_secp256k1 :
    let p := Prover.ofRole (EncryptedZero.proverRole ⟨1, 1⟩)
    let t : List (Prover.Event EncryptedZero.ProverInput) :=
      [(.firstMessage ⟨⟨⟨35⟩, ⟨4⟩⟩, .ofNat 3⟩ [2, 0, 0, 0, 0, 0, 0, 0], .ok (.integer 18)),
        (.secondMessage ⟨[2]⟩, .error .invalidChallenge)]
    Trace Prover.call p (t ++ (.secondMessage ⟨[1]⟩, .ok (.integer 6)) :: []) p ∧
      Since Prover.IsRefusal
        (Prover.Explains (EncryptedZero.Explains ⟨1, 1⟩) ⟨[1]⟩ (.integer 6)) t ∧
      (Prover.ofRole (DiscreteLog.proverRole .secp256k1 ⟨80, 1⟩)).NoncesUsedOnce
        (DiscreteLog.Explains .secp256k1) := by
  intro p t
  have hp : EncryptedZero.prover ⟨1, 1⟩ = .ok p := rfl
  have hq : DiscreteLog.prover .secp256k1 ⟨80, 1⟩ =
    .ok (.ofRole (DiscreteLog.proverRole .secp256k1 ⟨80, 1⟩)) := rfl
  have hcommit : EncryptedZero.commit ⟨1, 1⟩ ⟨⟨⟨35⟩, ⟨4⟩⟩, .ofNat 3⟩ [2, 0, 0, 0, 0, 0, 0, 0] =
    .ok (.ok (.integer 18, ⟨2, 3, 35⟩), []) := by decide +kernel
  have hanswer : (EncryptedZero.proverRole ⟨1, 1⟩).answer ⟨2, 3, 35⟩ ⟨[1]⟩ = .integer 6 := by
    decide +kernel
  let q : Prover EncryptedZero.ProverInput EncryptedZero.Secrets :=
    { p with pending := some ⟨2, 3, 35⟩ }
  have hfirst : p.Step (.firstMessage ⟨⟨⟨35⟩, ⟨4⟩⟩, .ofNat 3⟩ [2, 0, 0, 0, 0, 0, 0, 0])
    (.ok (.integer 18)) q := .committed hcommit
  have hrefused : q.Step (.secondMessage ⟨[2]⟩) (.error .invalidChallenge) q :=
    .invalid (show Challenge.validate ⟨[2]⟩ 1 = .ok (.error .invalidChallenge) by decide)
  have hsecond : q.Step (.secondMessage ⟨[1]⟩) (.ok (.integer 6)) p :=
    hanswer ▸ .answered (show Challenge.validate ⟨[1]⟩ 1 = .ok (.ok ()) by decide) rfl
  have ht : Trace Prover.call p (t ++ (.secondMessage ⟨[1]⟩, .ok (.integer 6)) :: []) p :=
    Trace.cons_iff.mpr ⟨q, Prover.call_of_step hfirst, Trace.cons_iff.mpr
      ⟨q, Prover.call_of_step hrefused, Trace.cons_iff.mpr
        ⟨p, Prover.call_of_step hsecond, Trace.nil_iff.mpr rfl⟩⟩⟩
  exact ⟨ht, (noncesUsedOnce_provers.1 _ _ hp).answer ht, noncesUsedOnce_provers.2 _ _ _ hq⟩

/-- The challenge is checked first: one that is not valid hides that there is no first message. -/
theorem missingFirstMessage_hidden :
    let p := Prover.ofRole (EncryptedZero.proverRole ⟨8, 1⟩)
    EncryptedZero.prover ⟨8, 1⟩ = .ok p ∧
      ∃ reply, Trace Prover.call p [(.secondMessage ⟨[]⟩, reply)] p ∧
        reply ≠ .error .missingFirstMessage := by
  intro p
  have hstep : p.Step (.secondMessage ⟨[]⟩) (.error .invalidChallenge) p :=
    .invalid (show Challenge.validate ⟨[]⟩ 8 = .ok (.error .invalidChallenge) by decide)
  refine ⟨rfl, .error .invalidChallenge, ?_, by decide⟩
  exact Trace.cons_iff.mpr ⟨p, Prover.call_of_step hstep, Trace.nil_iff.mpr rfl⟩

end SigmaProtocol
