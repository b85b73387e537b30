import SigmaProtocol.Proofs.Limbs
import SigmaProtocol.Random
import Mathlib

/-!
# What samplers return

A run of a sampler is taken apart into the runs of its parts. The residues that are drawn by
rejection are those that are below the modulus and allowed.

* `Sampler.bind_eq_ok`, `Sampler.lift_eq_ok`: the parts of a run; `Sampler.bind_of_error`,
  `Sampler.lift_of_error`: what ends in a fault.
* `Sampler.residue_spec`, `Sampler.residueTopFirst_spec`: the residues that come out.
* `Sampler.exists_residueTopFirst_iff`: each of them comes out of some stream.
-/

namespace SigmaProtocol

theorem except_bind_eq_ok {ε α β : Type} {x : Except ε α} {f : α → Except ε β} {b : β} :
    (x >>= f) = .ok b ↔ ∃ a, x = .ok a ∧ f a = .ok b := by
  cases x with
  | error e => simp [bind, Except.bind]
  | ok a => simp [bind, Except.bind]

/-- A fault of the first part is a fault of the whole. -/
theorem except_bind_of_error {ε α β : Type} {x : Except ε α} {f : α → Except ε β} {e : ε}
    (h : x = .error e) : (x >>= f) = .error e := by
  rw [h]
  rfl

theorem except_map_eq_ok {ε α β : Type} {x : Except ε α} {f : α → β} {b : β} :
    x.map f = .ok b ↔ ∃ a, x = .ok a ∧ f a = b := by
  cases x with
  | error e => simp [Except.map]
  | ok a => simp [Except.map]

namespace Sampler

variable {α β : Type} {stream rest : Bytes}

/-- The second part draws from what the first has left of the stream. -/
theorem bind_eq_ok {x : Sampler α} {f : α → Sampler β} {b : β} :
    (x >>= f) stream = .ok (b, rest) ↔
      ∃ a middle, x stream = .ok (a, middle) ∧ f a middle = .ok (b, rest) := by
  show (x stream >>= fun r => f r.1 r.2) = .ok (b, rest) ↔ _
  rw [except_bind_eq_ok, Prod.exists]

theorem bind_of_eq_ok {x : Sampler α} {f : α → Sampler β} {a : α} (h : x stream = .ok (a, rest)) :
    (x >>= f) stream = f a rest := by
  show (x stream >>= fun r => f r.1 r.2) = _
  rw [h]
  rfl

theorem pure_eq_ok {a b : α} :
    (pure a : Sampler α) stream = .ok (b, rest) ↔ a = b ∧ stream = rest := by
  show Except.ok (a, stream) = .ok (b, rest) ↔ _
  rw [Except.ok.injEq, Prod.mk.injEq]

theorem bind_of_error {x : Sampler α} {f : α → Sampler β} {e : Fault}
    (h : x stream = .error e) : (x >>= f) stream = .error e :=
  except_bind_of_error h

/-- What draws nothing leaves the stream as it is. -/
theorem lift_eq_ok {x : Except Fault α} {a : α} :
    (liftM x : Sampler α) stream = .ok (a, rest) ↔ x = .ok a ∧ stream = rest := by
  show (x >>= fun a => .ok (a, stream)) = .ok (a, rest) ↔ _
  simp [except_bind_eq_ok]

theorem lift_of_error {x : Except Fault α} {e : Fault} (h : x = .error e) :
    (liftM x : Sampler α) stream = .error e :=
  except_bind_of_error h

theorem length_of_bytes {count : Nat} {bs : Bytes} (h : bytes count stream = .ok (bs, rest)) :
    bs.length = count := by
  unfold bytes at h
  split at h
  · next hle =>
    rw [List.splitAt_eq, Except.ok.injEq, Prod.mk.injEq] at h
    rw [← h.1, List.length_take, Nat.min_eq_left hle]
  · cases h

theorem bytes_append {count : Nat} {bs : Bytes} (h : bs.length = count) (rest : Bytes) :
    bytes count (bs ++ rest) = .ok (bs, rest) := by
  have hle : count ≤ (bs ++ rest).length := by
    rw [← h, List.length_append]
    exact Nat.le_add_right _ _
  rw [bytes, if_pos hle, List.splitAt_eq, List.take_left' h, List.drop_left' h]

theorem residue_spec {m v : Nat} {keep : Nat → Bool}
    (h : residue m keep stream = .ok (v, rest)) : v < m ∧ keep v = true := by
  fun_induction residue m keep stream with
  | case1 => cases h
  | case2 _ _ _ _ _ hkept =>
    rw [Except.ok.injEq, Prod.mk.injEq] at h
    rw [← h.1]
    simpa using hkept
  | case3 _ _ _ _ _ _ ih => exact ih h
  | case4 => cases h

theorem residueTopFirst_spec {m v : Nat} {keep : Nat → Bool}
    (h : residueTopFirst m keep stream = .ok (v, rest)) : v < m ∧ keep v = true := by
  fun_induction residueTopFirst m keep stream with
  | case1 _ _ _ _ _ _ ih => exact ih h
  | case2 _ _ _ _ _ _ _ _ _ _ hkept =>
    rw [Except.ok.injEq, Prod.mk.injEq] at h
    rw [← h.1]
    simpa using hkept
  | case3 _ _ _ _ _ _ _ _ _ _ _ ih => exact ih h
  | case4 => cases h
  | case5 => cases h

/-! ## Streams -/

theorem littleEndian_eq (bs : Bytes) : littleEndian bs = Bytes.toNat bs.reverse := by
  induction bs with
  | nil => rfl
  | cons b bs ih =>
    have hcons : littleEndian (b :: bs) = b.toNat + 256 * littleEndian bs := rfl
    rw [hcons, ih, List.reverse_cons, Bytes.toNat_concat]
    omega

theorem littleEndian_reverse_ofNat {len v : Nat} (h : v < 256 ^ len) :
    littleEndian (Bytes.ofNat len v).reverse = v := by
  rw [littleEndian_eq, List.reverse_reverse, Bytes.toNat_ofNat, Nat.mod_eq_of_lt h]

/-- The top limb of a number fits eight bytes. -/
theorem top_limb_lt (m : Nat) :
    m / 256 ^ (8 * (groupCount 64 (bitLength m) - 1)) < 256 ^ 8 := by
  have hm : m < 2 ^ (64 * groupCount 64 (bitLength m)) :=
    lt_two_pow_groupCount (by decide) le_rfl
  rw [Nat.div_lt_iff_lt_mul (by positivity), ← pow_add, show 256 = 2 ^ 8 from rfl, ← pow_mul]
  refine hm.trans_le (Nat.pow_le_pow_right two_pos ?_)
  omega

/-- The stream is the top limb of the residue and then its other limbs, so that the first draw is
kept. -/
theorem exists_residueTopFirst {m v : Nat} {keep : Nat → Bool} (hv : v < m)
    (hkeep : keep v = true) : ∃ stream, residueTopFirst m keep stream = .ok (v, []) := by
  obtain ⟨lower, hlower⟩ : ∃ lower, 8 * (groupCount 64 (bitLength m) - 1) = lower := ⟨_, rfl⟩
  have htop : v / 256 ^ lower ≤ m / 256 ^ lower := Nat.div_le_div_right hv.le
  have hwidth : v / 256 ^ lower < 256 ^ 8 := htop.trans_lt (hlower ▸ top_limb_lt m)
  have hmask : v / 256 ^ lower < 2 ^ bitLength (m / 256 ^ lower) :=
    htop.trans_lt (lt_two_pow_bitLength _)
  let high := (Bytes.ofNat 8 (v / 256 ^ lower)).reverse
  let low := (Bytes.ofNat lower (v % 256 ^ lower)).reverse
  have hhigh : high.length = 8 := by simp [high]
  have hlow : low.length = lower := by simp [low]
  -- Both parts are read back, and neither the mask nor the bound on the top limb turns them away.
  have hhighValue : littleEndian high = v / 256 ^ lower := littleEndian_reverse_ofNat hwidth
  have hlowValue : littleEndian low = v % 256 ^ lower :=
    littleEndian_reverse_ofNat (Nat.mod_lt _ (by positivity))
  refine ⟨high ++ low, ?_⟩
  have hbits : 64 * (groupCount 64 (bitLength m) - 1) = 8 * lower := by omega
  have hpow : 2 ^ (8 * lower) = 256 ^ lower := by
    rw [pow_mul]
    rfl
  rw [residueTopFirst]
  simp only [hlower, hbits, Nat.shiftRight_eq_div_pow, Nat.shiftLeft_eq, hpow, one_mul]
  rw [List.take_left' hhigh, List.drop_left' hhigh, hhighValue, Nat.mod_eq_of_lt hmask,
    List.take_of_length_le hlow.le, List.drop_of_length_le hlow.le, hlowValue, Nat.mod_add_div']
  simp [hhigh, hlow, hv, hkeep, htop]

theorem exists_residueTopFirst_iff {m v : Nat} {keep : Nat → Bool} :
    (∃ stream rest, residueTopFirst m keep stream = .ok (v, rest)) ↔ v < m ∧ keep v = true := by
  constructor
  · rintro ⟨stream, rest, h⟩
    exact residueTopFirst_spec h
  · rintro ⟨hv, hkeep⟩
    obtain ⟨stream, h⟩ := exists_residueTopFirst hv hkeep
    exact ⟨stream, [], h⟩

end Sampler

end SigmaProtocol
