import SigmaProtocol.DiscreteLog
import SigmaProtocol.Proofs.Random
import SigmaProtocol.Proofs.Run

/-!
# What the roles of the proof of a discrete logarithm check

* `DiscreteLog.nonce_of_commit`: what a first message commits to.
* `DiscreteLog.accepts_verifierRole_iff`, `DiscreteLog.accepts_iff`: which proofs are accepted.
* `DiscreteLog.accepts_of_accepts`: what a verifier has checked when it accepts.
-/

namespace SigmaProtocol.DiscreteLog

variable {g : CurveGroup} {params : Params}

theorem prover_eq_ok {p : Prover ProverInput Secrets} (h : prover g params = .ok p) :
    p = .ofRole (proverRole g params) := by
  obtain ⟨_, -, h⟩ := except_bind_eq_ok.mp h
  obtain ⟨_, -, h⟩ := except_bind_eq_ok.mp h
  split at h
  · cases h
  · exact (Except.ok.inj h).symm

theorem verifier_eq_ok {v : Verifier Statement (Bytes × Nat)} (h : verifier g params = .ok v) :
    v = .ofRole (verifierRole g params) := by
  obtain ⟨_, -, h⟩ := except_bind_eq_ok.mp h
  obtain ⟨_, -, h⟩ := except_bind_eq_ok.mp h
  exact (Except.ok.inj h).symm

/-- A verifier has fewer binary digits in its challenges than there are in the order. -/
theorem soundnessBits_lt_of_verifier {v : Verifier Statement (Bytes × Nat)}
    (h : verifier g params = .ok v) : params.soundnessBits.toNat < bitLength g.order := by
  obtain ⟨_, -, h⟩ := except_bind_eq_ok.mp h
  obtain ⟨_, hbelow, -⟩ := except_bind_eq_ok.mp h
  exact Params.requireSoundnessBelow_eq_ok_iff.mp hbelow

/-! ## First messages -/

/-- The nonce comes from the stream, and the witness from the input. -/
theorem nonce_of_commit {input : ProverInput} {stream rest : Bytes}
    {outcome : Except ProtocolError (Message × Secrets)}
    (h : commit g input stream = .ok (outcome, rest)) :
    ∃ nonce, Sampler.residueTopFirst g.order (fun _ => true) stream = .ok (nonce, rest) ∧ outcome =
      .ok (.element (firstMessage g nonce), ⟨nonce, input.witness.toNat % g.order⟩) := by
  obtain ⟨nonce, _, hnonce, h⟩ := Sampler.bind_eq_ok.mp h
  obtain ⟨rfl, rfl⟩ := Sampler.pure_eq_ok.mp h
  exact ⟨nonce, hnonce, rfl⟩

theorem commit_eq_ok_iff {input : ProverInput} {stream rest : Bytes}
    {outcome : Except ProtocolError (Message × Secrets)} :
    commit g input stream = .ok (outcome, rest) ↔
      ∃ nonce, Sampler.residueTopFirst g.order (fun _ => true) stream = .ok (nonce, rest) ∧
        outcome =
          .ok (.element (firstMessage g nonce), ⟨nonce, input.witness.toNat % g.order⟩) := by
  constructor
  · exact nonce_of_commit
  · rintro ⟨nonce, hnonce, rfl⟩
    exact Sampler.bind_eq_ok.mpr ⟨_, _, hnonce, rfl⟩

theorem checkStatement_eq_ok_iff {statement : Statement} :
    (verifierRole g params).checkStatement statement = .ok (.ok ()) ↔
      g.isMember statement.h = true := by
  unfold verifierRole
  by_cases h : g.isMember statement.h = true
  · simp [h]
  · simp [h]

/-- A proof is judged by its equation. -/
theorem accepts_verifierRole_iff {statement : Statement} {contents : Bytes × Nat} {e : Challenge}
    {verdict : Bool} : (verifierRole g params).accepts statement contents e = .ok (.ok verdict) ↔
      accepts g statement.h contents.1 contents.2 e.exponent = verdict := by
  show Except.ok (Except.ok _) = .ok (.ok verdict) ↔ _
  rw [Except.ok.injEq, Except.ok.injEq]

theorem contents?_eq_some_iff {first second : Message} {a : Bytes} {z : Nat} :
    (verifierRole g params).contents? first second = some (a, z) ↔
      first = .element a ∧ second = .integer z := by
  cases first <;> cases second <;> simp [verifierRole]

/-- Which proofs are accepted: the answer is reduced, the first message is the encoding of a member,
and the two satisfy the equation. -/
theorem accepts_iff {h : Point} {a : Bytes} {z : Nat} {e : LimbNat} :
    accepts g h a z e = true ↔ z < g.order ∧
      ∃ p, g.ofBytes a = .ok p ∧ g.powGenerator z = g.mul p (g.powSecret h e) := by
  unfold accepts
  cases g.ofBytes a with
  | error e => simp
  | ok p => simp

theorem accepts_of_accepts {v : Verifier Statement (Bytes × Nat)} {h : Point} {e : Challenge}
    {a : Bytes} {z : Nat} (hv : verifier g params = .ok v)
    (haccepts : v.Accepts ⟨h⟩ e (.element a) (.integer z)) :
    g.isMember h = true ∧ e.validate params.soundnessBits = .ok (.ok ()) ∧
      accepts g h a z e.exponent = true := by
  rw [verifier_eq_ok hv] at haccepts
  obtain ⟨hstatement, he, contents, hcontents, haccepted⟩ :=
    Verifier.accepts_ofRole_iff.mp haccepts
  cases hcontents
  exact ⟨checkStatement_eq_ok_iff.mp hstatement, he, accepts_verifierRole_iff.mp haccepted⟩

theorem rejects_of_not_accepts {v : Verifier Statement (Bytes × Nat)} {h : Point} {e : Challenge}
    {a : Bytes} {z : Nat} (hv : verifier g params = .ok v) (hh : g.isMember h = true)
    (he : e.validate params.soundnessBits = .ok (.ok ()))
    (hnot : ¬ accepts g h a z e.exponent = true) : v.Rejects ⟨h⟩ e (.element a) (.integer z) := by
  rw [verifier_eq_ok hv]
  refine Verifier.rejects_ofRole (checkStatement_eq_ok_iff.mpr hh) he rfl ?_
  exact accepts_verifierRole_iff.mpr (Bool.eq_false_iff.mpr hnot)

end SigmaProtocol.DiscreteLog
