import SigmaProtocol.DamgardJurik
import SigmaProtocol.Proofs.EncryptedZero.Roles
import SigmaProtocol.Proofs.Sampling.Count

/-!
# Units are sampled uniformly

A residue is drawn by rejection, and what a draw is cut from has more binary digits than the
residue. How many bytes a run takes depends on the draws that are thrown away, above all where the
top limb is drawn first: then a draw may end after eight bytes. So streams are counted by length:
for each length, every residue that is kept comes from equally many byte strings of that length.

* `Sampler.UniformOn`: a sampler that is uniform in this sense.
* `Sampler.count_candidate`, `Sampler.count_candidateTopFirst`: one draw is uniform.
* `Sampler.yields_residue`, `Sampler.yields_residueTopFirst`: the streams of a run by its first
  draw.
* `Sampler.uniformOn_residue`, `Sampler.uniformOn_residueTopFirst`: a run is uniform on the residues
  that are kept.
* `units_uniform`: the randomness of an encryption and the nonce of the prover.
-/

namespace SigmaProtocol

namespace Sampler

variable {m v v' len : Nat} {keep : Nat → Bool} {stream : Bytes}

/-- How many byte strings of length `len` a sampler uses up and turns into `v`. -/
noncomputable def yields (s : Sampler Nat) (len v : Nat) : Nat :=
  Bytes.count len fun bs => s bs = .ok (v, [])

/-- Whatever the length, each number in `A` comes from equally many byte strings of that length,
and no other number comes from any. -/
structure UniformOn (s : Sampler Nat) (A : Set Nat) : Prop where
  equal (len : Nat) {v v' : Nat} : v ∈ A → v' ∈ A → yields s len v = yields s len v'
  outside (len : Nat) {v : Nat} : v ∉ A → yields s len v = 0
  /-- The numbers in `A` do come up. -/
  arises {v : Nat} : v ∈ A → ∃ len, 0 < yields s len v

/-- A draw of `v` is not thrown away. -/
def Kept (m : Nat) (keep : Nat → Bool) (v : Nat) : Prop := v < m ∧ keep v = true

instance : DecidablePred (Kept m keep) := fun _ => inferInstanceAs (Decidable (_ ∧ _))

/-! ## Parts of a draw -/

/-- A number that is cut in two. -/
theorem add_mul_eq_iff {low high K : Nat} (hlow : low < K) :
    low + high * K = v ↔ low = v % K ∧ high = v / K := by
  rw [Nat.mul_comm high]
  constructor
  · rintro rfl
    rw [Nat.add_mul_mod_self_left, Nat.mod_eq_of_lt hlow,
      Nat.add_mul_div_left _ _ (Nat.zero_lt_of_lt hlow), Nat.div_eq_of_lt hlow, zero_add]
    exact ⟨rfl, rfl⟩
  · rintro ⟨rfl, rfl⟩
    exact Nat.mod_add_div v K

theorem littleEndian_lt (bs : Bytes) : littleEndian bs < 256 ^ bs.length := by
  rw [littleEndian_eq, ← List.length_reverse]
  exact Bytes.toNat_lt bs.reverse

theorem count_littleEndian (len : Nat) (p : Nat → Prop) :
    Bytes.count len (fun bs => p (littleEndian bs)) = Bytes.count len (fun bs => p bs.toNat) := by
  simp only [littleEndian_eq]
  exact Bytes.count_reverse len fun bs => p bs.toNat

/-! ## Draws of whole numbers -/

/-- How many bytes one draw of a residue takes. -/
def drawLength (m : Nat) : Nat := 4 * groupCount 32 (bitLength m)

/-- How many binary digits one draw of a residue throws away. -/
def excess (m : Nat) : Nat := 32 * groupCount 32 (bitLength m) - bitLength m

theorem groupCount_pos (hm : 0 < m) : 0 < groupCount 32 (bitLength m) := by
  have hbits : bitLength m ≠ 0 := mt bitLength_eq_zero_iff.mp hm.ne'
  unfold groupCount
  omega

theorem residue_eq (hm : 0 < m) (h : drawLength m ≤ stream.length) :
    residue m keep stream =
      if Kept m keep (candidate m (stream.take (drawLength m))) then
        .ok (candidate m (stream.take (drawLength m)), stream.drop (drawLength m))
      else residue m keep (stream.drop (drawLength m)) := by
  have hpos : 0 < drawLength m := Nat.mul_pos (by decide) (groupCount_pos hm)
  unfold drawLength at *
  rw [residue, if_neg hm.ne', dif_pos ⟨hpos, h⟩]
  simp only [Kept, Bool.and_eq_true, decide_eq_true_eq]
  rfl

theorem residue_eq_exhausted (hm : 0 < m) (h : stream.length < drawLength m) :
    residue m keep stream = .error .exhausted := by
  unfold drawLength at h
  rw [residue, if_neg hm.ne', dif_neg fun hle => absurd hle.2 (not_le.mpr h)]

/-- All words but the last are taken whole, and of the last the upper digits. -/
theorem candidate_eq_iff {words : Nat} {chunk : Bytes}
    (hwords : groupCount 32 (bitLength m) = words + 1) (h : chunk.length = 4 * words + 4) :
    candidate m chunk = v ↔ littleEndian (chunk.take (4 * words)) = v % 2 ^ (32 * words) ∧
      littleEndian (chunk.drop (4 * words)) / 2 ^ excess m = v / 2 ^ (32 * words) := by
  have hlow := littleEndian_lt (chunk.take (4 * words))
  rw [List.length_take, h, Nat.min_eq_left (Nat.le_add_right _ _), show 256 = 2 ^ 8 from rfl,
    ← pow_mul, ← Nat.mul_assoc] at hlow
  rw [excess]
  simp only [candidate, hwords, Nat.add_sub_cancel, Nat.shiftRight_eq_div_pow, Nat.shiftLeft_eq]
  exact add_mul_eq_iff hlow

/-- Each number of `m`'s width is the candidate of equally many draws. -/
theorem count_candidate (hm : 0 < m) (hv : v < 2 ^ bitLength m) :
    Bytes.count (drawLength m) (fun chunk => candidate m chunk = v) = 2 ^ excess m := by
  obtain ⟨words, hwords⟩ := Nat.exists_eq_add_one.mpr (groupCount_pos hm)
  have hexcess : excess m ≤ 8 * 4 ∧ bitLength m = 8 * 4 - excess m + 32 * words := by
    unfold excess
    unfold groupCount at *
    omega
  have hlow : v % 2 ^ (32 * words) < 2 ^ (8 * (4 * words)) := by
    rw [← Nat.mul_assoc]
    exact Nat.mod_lt _ (by positivity)
  have hhigh : v / 2 ^ (32 * words) < 2 ^ (8 * 4 - excess m) := by
    rw [Nat.div_lt_iff_lt_mul (by positivity), ← pow_add, ← hexcess.2]
    exact hv
  rw [drawLength, hwords, Nat.mul_succ, Bytes.count_congr fun chunk => candidate_eq_iff hwords,
    Bytes.count_append (4 * words) 4 (fun low => littleEndian low = v % 2 ^ (32 * words))
      fun high => littleEndian high / 2 ^ excess m = v / 2 ^ (32 * words),
    count_littleEndian _ (· = v % 2 ^ (32 * words)), Bytes.count_eq_value hlow,
    count_littleEndian _ (· / 2 ^ excess m = v / 2 ^ (32 * words)),
    Bytes.count_div hexcess.1 hhigh, one_mul]

/-- A run begins with the residue, or with another number that it throws away. -/
theorem residue_eq_ok_iff {bs : Bytes} (hm : 0 < m) (hv : Kept m keep v)
    (h : drawLength m ≤ bs.length) :
    residue m keep bs = .ok (v, []) ↔
      candidate m (bs.take (drawLength m)) = v ∧ bs.drop (drawLength m) = [] ∨
      ¬ Kept m keep (candidate m (bs.take (drawLength m))) ∧
        residue m keep (bs.drop (drawLength m)) = .ok (v, []) := by
  rw [residue_eq hm h]
  split
  · next hkept => simp [hkept]
  · next hkept =>
    have hne : candidate m (bs.take (drawLength m)) ≠ v := fun heq => hkept (heq ▸ hv)
    simp [hkept, hne]

/-- Streams are counted by how a run begins. -/
theorem yields_residue (hm : 0 < m) (hv : Kept m keep v) (len : Nat) :
    yields (residue m keep) (drawLength m + len) v =
      2 ^ excess m * Bytes.count len (· = []) +
        Bytes.count (drawLength m) (fun chunk => ¬ Kept m keep (candidate m chunk)) *
          yields (residue m keep) len v := by
  rw [yields, Bytes.count_congr fun bs h => residue_eq_ok_iff hm hv (h ▸ Nat.le_add_right _ _),
    Bytes.count_or,
    Bytes.count_append _ len (fun chunk => candidate m chunk = v) (· = []),
    count_candidate hm (hv.1.trans (lt_two_pow_bitLength m)),
    Bytes.count_append _ len (fun chunk => ¬ Kept m keep (candidate m chunk))
      fun rest => residue m keep rest = .ok (v, [])]
  · rfl
  · rintro bs - ⟨hkept, -⟩ ⟨hnot, -⟩
    exact hnot (hkept ▸ hv)

theorem yields_residue_of_lt (hm : 0 < m) (h : len < drawLength m) :
    yields (residue m keep) len v = 0 := by
  refine Bytes.count_eq_zero fun bs hbs hrun => ?_
  rw [residue_eq_exhausted hm (hbs.trans_lt h)] at hrun
  cases hrun

theorem yields_residue_congr (hm : 0 < m) (hv : Kept m keep v) (hv' : Kept m keep v') (len : Nat) :
    yields (residue m keep) len v = yields (residue m keep) len v' := by
  -- By induction on what is left of the stream after a draw.
  induction len using Nat.strong_induction_on with
  | _ len ih =>
    obtain h | h := lt_or_ge len (drawLength m)
    · rw [yields_residue_of_lt hm h, yields_residue_of_lt hm h]
    · obtain ⟨rest, rfl⟩ := Nat.exists_eq_add_of_le h
      have hpos : 0 < drawLength m := Nat.mul_pos (by decide) (groupCount_pos hm)
      rw [yields_residue hm hv, yields_residue hm hv', ih rest (Nat.lt_add_of_pos_left hpos)]

theorem uniformOn_residue (hm : 0 < m) (keep : Nat → Bool) :
    UniformOn (residue m keep) {v | Kept m keep v} where
  equal len := fun hv hv' => yields_residue_congr hm hv hv' len
  outside len := by
    intro v hv
    exact Bytes.count_eq_zero fun bs _ h => hv (residue_spec h)
  arises := by
    intro v hv
    refine ⟨drawLength m + 0, ?_⟩
    have hnil : 0 < Bytes.count 0 (· = []) := Bytes.count_pos List.length_nil rfl
    rw [yields_residue hm hv]
    positivity

/-! ## Draws with the top limb first -/

/-- The most significant limb of `m`. -/
def topLimb (m : Nat) : Nat := m >>> (64 * (groupCount 64 (bitLength m) - 1))

/-- How many bytes the other limbs of `m` fill. -/
def lowerLength (m : Nat) : Nat := 8 * (groupCount 64 (bitLength m) - 1)

/-- The top limb of a draw. -/
def drawnTop (m : Nat) (chunk : Bytes) : Nat :=
  littleEndian (chunk.take 8) % 2 ^ bitLength (topLimb m)

/-- The number that a top limb and the other limbs make. -/
def candidateTopFirst (m : Nat) (chunk : Bytes) : Nat :=
  littleEndian (chunk.drop 8) + drawnTop m chunk * 256 ^ lowerLength m

theorem two_pow_lower (m : Nat) :
    2 ^ (64 * (groupCount 64 (bitLength m) - 1)) = 256 ^ lowerLength m := by
  rw [lowerLength, show 256 = 2 ^ 8 from rfl, ← pow_mul]
  congr 1
  omega

theorem topLimb_eq (m : Nat) : topLimb m = m / 256 ^ lowerLength m := by
  rw [topLimb, Nat.shiftRight_eq_div_pow, two_pow_lower]

theorem div_le_topLimb (hv : v < m) : v / 256 ^ lowerLength m ≤ topLimb m := by
  rw [topLimb_eq]
  exact Nat.div_le_div_right hv.le

theorem bitLength_topLimb_le (m : Nat) : bitLength (topLimb m) ≤ 8 * 8 := by
  rw [bitLength_le_iff_lt, topLimb_eq]
  exact top_limb_lt m

theorem drawnTop_take {k : Nat} (h : 8 ≤ k) (chunk : Bytes) :
    drawnTop m (chunk.take k) = drawnTop m chunk := by
  rw [drawnTop, List.take_take, Nat.min_eq_left h, drawnTop]

/-- A top limb that is too large is thrown away by itself. -/
theorem residueTopFirst_eq_redraw (h : 8 ≤ stream.length) (htop : topLimb m < drawnTop m stream) :
    residueTopFirst m keep stream = residueTopFirst m keep (stream.drop 8) := by
  unfold drawnTop topLimb at htop
  rw [residueTopFirst, dif_pos h]
  simp only [Nat.one_shiftLeft]
  rw [if_pos htop]

theorem residueTopFirst_eq (h : 8 + lowerLength m ≤ stream.length)
    (htop : drawnTop m stream ≤ topLimb m) :
    residueTopFirst m keep stream =
      if Kept m keep (candidateTopFirst m (stream.take (8 + lowerLength m))) then
        .ok (candidateTopFirst m (stream.take (8 + lowerLength m)),
          stream.drop (8 + lowerLength m))
      else residueTopFirst m keep (stream.drop (8 + lowerLength m)) := by
  have hcandidate : candidateTopFirst m (stream.take (8 + lowerLength m)) =
      littleEndian ((stream.drop 8).take (lowerLength m)) +
        drawnTop m stream <<< (64 * (groupCount 64 (bitLength m) - 1)) := by
    rw [candidateTopFirst, drawnTop_take (Nat.le_add_right _ _), List.drop_take,
      Nat.add_sub_cancel_left, Nat.shiftLeft_eq, two_pow_lower]
  rw [hcandidate, ← List.drop_drop]
  unfold drawnTop topLimb lowerLength at *
  rw [residueTopFirst, dif_pos ((Nat.le_add_right _ _).trans h)]
  simp only [Nat.one_shiftLeft]
  rw [if_neg (not_lt.mpr htop), if_pos h]
  simp [Kept]

theorem residueTopFirst_eq_exhausted
    (h : stream.length < 8 ∨ stream.length < 8 + lowerLength m ∧ drawnTop m stream ≤ topLimb m) :
    residueTopFirst m keep stream = .error .exhausted := by
  unfold drawnTop topLimb lowerLength at h
  rw [residueTopFirst]
  simp only [Nat.one_shiftLeft]
  split
  · next hle =>
    obtain ⟨hlength, htop⟩ := h.resolve_left (not_lt.mpr hle)
    rw [if_neg (not_lt.mpr htop), if_neg (not_le.mpr hlength)]
  · rfl

/-- The top limb and the other limbs are the two parts of a number. -/
theorem candidateTopFirst_eq_iff {chunk : Bytes} (h : chunk.length = 8 + lowerLength m) :
    candidateTopFirst m chunk = v ↔
      drawnTop m (chunk.take 8) = v / 256 ^ lowerLength m ∧
        littleEndian (chunk.drop 8) = v % 256 ^ lowerLength m := by
  have hlow := littleEndian_lt (chunk.drop 8)
  rw [List.length_drop, h, Nat.add_sub_cancel_left] at hlow
  rw [drawnTop_take le_rfl, and_comm]
  exact add_mul_eq_iff hlow

theorem drawnTop_le {chunk : Bytes} (hv : v < m) (h : chunk.length = 8 + lowerLength m)
    (hcandidate : candidateTopFirst m chunk = v) : drawnTop m chunk ≤ topLimb m := by
  have htop := ((candidateTopFirst_eq_iff h).mp hcandidate).1
  rw [drawnTop_take le_rfl] at htop
  exact htop.trans_le (div_le_topLimb hv)

/-- Each residue is the candidate of equally many draws. -/
theorem count_candidateTopFirst (hv : v < m) :
    Bytes.count (8 + lowerLength m) (fun chunk => candidateTopFirst m chunk = v) =
      2 ^ (8 * 8 - bitLength (topLimb m)) := by
  have hlow : v % 256 ^ lowerLength m < 2 ^ (8 * lowerLength m) := by
    rw [pow_mul 2 8]
    exact Nat.mod_lt _ (by positivity)
  have hhigh : v / 256 ^ lowerLength m < 2 ^ bitLength (topLimb m) :=
    (div_le_topLimb hv).trans_lt (lt_two_pow_bitLength (topLimb m))
  have htop : Bytes.count 8 (fun high => drawnTop m high = v / 256 ^ lowerLength m) =
      2 ^ (8 * 8 - bitLength (topLimb m)) := by
    rw [← Bytes.count_mod (bitLength_topLimb_le m) hhigh, ← count_littleEndian 8
      (· % 2 ^ bitLength (topLimb m) = v / 256 ^ lowerLength m)]
    refine Bytes.count_congr fun high hlength => ?_
    rw [drawnTop, List.take_of_length_le hlength.le]
  rw [Bytes.count_congr fun chunk h => candidateTopFirst_eq_iff h,
    Bytes.count_append 8 _ (fun high => drawnTop m high = v / 256 ^ lowerLength m)
      fun low => littleEndian low = v % 256 ^ lowerLength m,
    htop, count_littleEndian _ (· = v % 256 ^ lowerLength m), Bytes.count_eq_value hlow, mul_one]

/-- A run begins with a top limb that is too large, or with the residue, or with another number
that it throws away. -/
theorem residueTopFirst_eq_ok_iff {bs : Bytes} (hv : Kept m keep v)
    (h : 8 + lowerLength m ≤ bs.length) :
    residueTopFirst m keep bs = .ok (v, []) ↔
      topLimb m < drawnTop m (bs.take 8) ∧
        residueTopFirst m keep (bs.drop 8) = .ok (v, []) ∨
      candidateTopFirst m (bs.take (8 + lowerLength m)) = v ∧ bs.drop (8 + lowerLength m) = [] ∨
      (drawnTop m (bs.take (8 + lowerLength m)) ≤ topLimb m ∧
          ¬ Kept m keep (candidateTopFirst m (bs.take (8 + lowerLength m)))) ∧
        residueTopFirst m keep (bs.drop (8 + lowerLength m)) = .ok (v, []) := by
  have hchunk : (bs.take (8 + lowerLength m)).length = 8 + lowerLength m := by simp [h]
  have hle := drawnTop_le (v := v) hv.1 hchunk
  rw [drawnTop_take (Nat.le_add_right _ _)] at hle ⊢
  rw [drawnTop_take le_rfl]
  -- The top limb decides whether more is read. A residue never begins with one that is too large.
  obtain htop | htop := lt_or_ge (topLimb m) (drawnTop m bs)
  · have hne := mt hle (not_le.mpr htop)
    rw [residueTopFirst_eq_redraw ((Nat.le_add_right _ _).trans h) htop]
    simp [htop, hne]
  · rw [residueTopFirst_eq h htop]
    split
    · next hkept => simp [hkept, htop]
    · next hkept =>
      have hne : candidateTopFirst m (bs.take (8 + lowerLength m)) ≠ v :=
        fun heq => hkept (heq ▸ hv)
      simp [hkept, htop, hne]

/-- Streams are counted by how a run begins. -/
theorem yields_residueTopFirst (hv : Kept m keep v) (len : Nat) :
    yields (residueTopFirst m keep) (8 + (lowerLength m + len)) v =
      Bytes.count 8 (fun high => topLimb m < drawnTop m high) *
          yields (residueTopFirst m keep) (lowerLength m + len) v +
        (2 ^ (8 * 8 - bitLength (topLimb m)) * Bytes.count len (· = []) +
          Bytes.count (8 + lowerLength m) (fun chunk => drawnTop m chunk ≤ topLimb m ∧
              ¬ Kept m keep (candidateTopFirst m chunk)) *
            yields (residueTopFirst m keep) len v) := by
  have hsum : 8 + (lowerLength m + len) = 8 + lowerLength m + len := (Nat.add_assoc _ _ _).symm
  have hchunk (bs : Bytes) (h : bs.length = 8 + (lowerLength m + len)) :
      (bs.take (8 + lowerLength m)).length = 8 + lowerLength m := by simp [h]
  -- The three beginnings exclude each other, and each constrains its own stretch of the stream.
  rw [yields, Bytes.count_congr fun bs h => residueTopFirst_eq_ok_iff hv (by omega),
    Bytes.count_or, Bytes.count_or,
    Bytes.count_append 8 _ (fun high => topLimb m < drawnTop m high)
      fun rest => residueTopFirst m keep rest = .ok (v, []), hsum,
    Bytes.count_append _ len (fun chunk => candidateTopFirst m chunk = v) (· = []),
    count_candidateTopFirst hv.1,
    Bytes.count_append _ len
      (fun chunk => drawnTop m chunk ≤ topLimb m ∧ ¬ Kept m keep (candidateTopFirst m chunk))
      fun rest => residueTopFirst m keep rest = .ok (v, [])]
  · rfl
  · rintro bs - ⟨hkept, -⟩ ⟨⟨-, hnot⟩, -⟩
    exact hnot (hkept ▸ hv)
  · rintro bs hbs ⟨htop, -⟩ hother
    have hle : drawnTop m (bs.take (8 + lowerLength m)) ≤ topLimb m :=
      hother.elim (fun hkept => drawnTop_le hv.1 (hchunk bs hbs) hkept.1) fun hnot => hnot.1.1
    rw [drawnTop_take (Nat.le_add_right _ _)] at hle
    rw [drawnTop_take le_rfl] at htop
    exact absurd hle (not_le.mpr htop)

/-- A stream that does not hold a whole draw can only be used up by top limbs. -/
theorem yields_residueTopFirst_of_lt (h : len < lowerLength m) :
    yields (residueTopFirst m keep) (8 + len) v =
      Bytes.count 8 (fun high => topLimb m < drawnTop m high) *
        yields (residueTopFirst m keep) len v := by
  have hrun (bs : Bytes) (hbs : bs.length = 8 + len) : residueTopFirst m keep bs = .ok (v, []) ↔
      topLimb m < drawnTop m (bs.take 8) ∧
        residueTopFirst m keep (bs.drop 8) = .ok (v, []) := by
    rw [drawnTop_take le_rfl]
    obtain htop | htop := lt_or_ge (topLimb m) (drawnTop m bs)
    · rw [residueTopFirst_eq_redraw (hbs ▸ Nat.le_add_right 8 len) htop, and_iff_right htop]
    · rw [residueTopFirst_eq_exhausted (.inr ⟨by omega, htop⟩)]
      simp [htop]
  rw [yields, Bytes.count_congr hrun,
    Bytes.count_append 8 len (fun high => topLimb m < drawnTop m high)
      fun rest => residueTopFirst m keep rest = .ok (v, [])]
  rfl

/-- For each length, two residues that are kept come from equally many byte strings. -/
theorem yields_residueTopFirst_congr (hv : Kept m keep v) (hv' : Kept m keep v') (len : Nat) :
    yields (residueTopFirst m keep) len v = yields (residueTopFirst m keep) len v' := by
  -- The stream has no room for a top limb, or for a top limb alone, or for a whole draw.
  induction len using Nat.strong_induction_on with
  | _ len ih =>
    obtain h | h := lt_or_ge len 8
    · have hzero (v : Nat) : yields (residueTopFirst m keep) len v = 0 := by
        refine Bytes.count_eq_zero fun bs hbs hrun => ?_
        rw [residueTopFirst_eq_exhausted (.inl (hbs.trans_lt h))] at hrun
        cases hrun
      rw [hzero, hzero]
    · obtain ⟨rest, rfl⟩ := Nat.exists_eq_add_of_le h
      have hredraw := ih rest (by omega)
      obtain hrest | hrest := lt_or_ge rest (lowerLength m)
      · rw [yields_residueTopFirst_of_lt hrest, yields_residueTopFirst_of_lt hrest, hredraw]
      · obtain ⟨rest, rfl⟩ := Nat.exists_eq_add_of_le hrest
        rw [yields_residueTopFirst hv, yields_residueTopFirst hv', hredraw,
          ih rest (by omega)]

theorem uniformOn_residueTopFirst (m : Nat) (keep : Nat → Bool) :
    UniformOn (residueTopFirst m keep) {v | Kept m keep v} where
  equal len := fun hv hv' => yields_residueTopFirst_congr hv hv' len
  outside len := by
    intro v hv
    exact Bytes.count_eq_zero fun bs _ h => hv (residueTopFirst_spec h)
  arises := by
    rintro v ⟨hv, hkeep⟩
    obtain ⟨stream, h⟩ := exists_residueTopFirst hv hkeep
    exact ⟨stream.length, Bytes.count_pos rfl h⟩

/-! ## Units -/

/-- The units modulo `n`, as numbers from `1` to `n - 1`. -/
def unitsBelow (n : Nat) : Set Nat := {v | 1 ≤ v ∧ v < n ∧ v.gcd n = 1}

/-- Zero is no unit, so that nothing is lost by leaving it out. -/
theorem setOf_kept_eq_unitsBelow {n : Nat} (hn : 1 < n) :
    {v | Kept n (fun v => v.gcd n == 1) v} = unitsBelow n := by
  ext v
  have hpos : v.gcd n = 1 → 1 ≤ v := by
    intro h
    refine Nat.one_le_iff_ne_zero.mpr ?_
    rintro rfl
    rw [Nat.gcd_zero_left] at h
    exact hn.ne' h
  simp only [Kept, unitsBelow, Set.mem_ofPred_eq, beq_iff_eq]
  tauto

end Sampler

open Sampler

/-- The nonce of a first message is what the sampler returns, and nothing else is drawn. -/
theorem EncryptedZero.count_nonce {params : Params} {input : ProverInput} {m : Moduli}
    (hcheck : input.common.check params = .ok (.ok m)) (len v : Nat) :
    Bytes.count len (fun bs => ∃ first secrets,
        commit params input bs = .ok (.ok (first, secrets), []) ∧ secrets.nonce = v) =
      yields (unitTopFirst m.n) len v := by
  refine Bytes.count_congr fun bs _ => ?_
  simp only [commit_eq_ok_iff hcheck]
  constructor
  · rintro ⟨first, secrets, ⟨nonce, hnonce, heq⟩, rfl⟩
    cases heq
    exact hnonce
  · intro h
    exact ⟨_, _, ⟨v, h, rfl⟩, rfl⟩

/-- **Units are sampled uniformly**, by the key that encrypts and by the prover, whose nonce is
what the second sampler returns. -/
theorem units_uniform {n : Nat} (hn : 1 < n) :
    UniformOn (DamgardJurik.PublicKey.randomUnit ⟨n⟩) (unitsBelow n) ∧
      UniformOn (unitTopFirst n) (unitsBelow n) ∧
      ∀ {params : Params} {input : EncryptedZero.ProverInput} {m : EncryptedZero.Moduli},
        input.common.check params = .ok (.ok m) → m.n = n → ∀ len v,
          Bytes.count len (fun bs => ∃ first secrets,
              EncryptedZero.commit params input bs = .ok (.ok (first, secrets), []) ∧
                secrets.nonce = v) =
            yields (unitTopFirst n) len v := by
  rw [← setOf_kept_eq_unitsBelow hn]
  refine ⟨uniformOn_residue (Nat.zero_lt_of_lt hn) _, uniformOn_residueTopFirst n _, ?_⟩
  rintro params input m hcheck rfl len v
  exact EncryptedZero.count_nonce hcheck len v

/-- The prover's statement is that `1` encrypts zero under the key `35`. -/
theorem units_uniform_thirtyFive :
    let params : Params := ⟨1, 1⟩
    let input : EncryptedZero.ProverInput := ⟨⟨⟨35⟩, ⟨1⟩⟩, .ofNat 1⟩
    (∀ len, yields (DamgardJurik.PublicKey.randomUnit ⟨35⟩) len 1 =
        yields (DamgardJurik.PublicKey.randomUnit ⟨35⟩) len 34) ∧
      (∀ len, yields (unitTopFirst 35) len 7 = 0) ∧
      ∀ len v, Bytes.count len (fun bs => ∃ first secrets,
          EncryptedZero.commit params input bs = .ok (.ok (first, secrets), []) ∧
            secrets.nonce = v) = yields (unitTopFirst 35) len v := by
  intro params input
  obtain ⟨hkey, hprover, hnonce⟩ := units_uniform (n := 35) (by decide)
  have hone : 1 ∈ unitsBelow 35 := ⟨by decide, by decide, by decide⟩
  have hlast : 34 ∈ unitsBelow 35 := ⟨by decide, by decide, by decide⟩
  have hseven : 7 ∉ unitsBelow 35 := fun h => absurd h.2.2 (by decide)
  have hcheck : input.common.check params = .ok (.ok (EncryptedZero.moduli 35 1)) :=
    EncryptedZero.check_eq_ok_iff.mpr ⟨by decide, by decide, by decide, by decide, rfl⟩
  exact ⟨fun len => hkey.equal len hone hlast, fun len => hprover.outside len hseven,
    hnonce hcheck rfl⟩

end SigmaProtocol
