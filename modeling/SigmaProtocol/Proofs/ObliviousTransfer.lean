import SigmaProtocol.ObliviousTransfer
import SigmaProtocol.Proofs.Random

/-!
# How the messages of a batch are split

If there are transfers, and each buffer has a multiple of their number of bytes, then the messages
are cut off a buffer one after the other until nothing is left. The number of bytes of a message may
be zero, and different for the two buffers. No message is looked for behind the end of a buffer.

* `ObliviousTransfer.flatten_items`: the messages put together again.
* `ObliviousTransfer.SenderInput.splitsMessages`: which inputs are refused, and why, and how all
  others are split.
-/

namespace SigmaProtocol.ObliviousTransfer

open SenderInput

/-! ## One buffer -/

/-- `parts` are the `count` parts of a buffer, all of the given length, one after the other. -/
structure Splits (buffer : Bytes) (count length : Nat) (parts : List Bytes) : Prop where
  length_parts : parts.length = count
  length_part : ∀ part ∈ parts, part.length = length
  flatten_parts : parts.flatten = buffer

section Buffer

variable {buffer : Bytes} {count index length : Nat}

theorem item_eq (h : (index + 1) * length ≤ buffer.length) :
    item buffer index length = (buffer.drop (index * length)).take length := if_pos h

theorem length_item (h : (index + 1) * length ≤ buffer.length) :
    (item buffer index length).length = length := by
  rw [item_eq h, List.length_take, List.length_drop]
  rw [Nat.succ_mul] at h
  omega

/-- The messages of a buffer, as many as it has room for, are its beginning. -/
theorem flatten_items (h : count * length ≤ buffer.length) :
    ((List.range count).map fun index => item buffer index length).flatten =
      buffer.take (count * length) := by
  induction count with
  | zero => simp
  | succ count ih =>
    have hprefix : count * length ≤ buffer.length :=
      (Nat.mul_le_mul_right length count.le_succ).trans h
    rw [List.range_succ, List.map_append, List.flatten_append, ih hprefix, Nat.succ_mul,
      List.take_add, ← item_eq h]
    simp

theorem splits_items (h : count * length = buffer.length) :
    Splits buffer count length ((List.range count).map fun index => item buffer index length) where
  length_parts := by rw [List.length_map, List.length_range]
  length_part := by
    intro part hpart
    obtain ⟨index, hindex, rfl⟩ := List.mem_map.mp hpart
    exact length_item (h ▸ Nat.mul_le_mul_right length (List.mem_range.mp hindex))
  flatten_parts := by rw [flatten_items h.le, h, List.take_length]

end Buffer

/-! ## Both buffers -/

namespace SenderInput

variable {input : SenderInput}

/-- The checks in their order. -/
theorem validate_eq (input : SenderInput) :
    input.validate =
      if input.numOts = 0 then .error .zeroCount
      else if ¬ input.numOts.toNat ∣ input.x0.length then
        .error (.notDivisible input.x0.length input.numOts.toNat)
      else if ¬ input.numOts.toNat ∣ input.x1.length then
        .error (.notDivisible input.x1.length input.numOts.toNat)
      else .ok () := by
  have hcheck (buffer : Bytes) (count : Nat) : checkBuffer buffer count =
      if ¬ count ∣ buffer.length then .error (.notDivisible buffer.length count) else .ok () := by
    simp only [checkBuffer, Nat.dvd_iff_mod_eq_zero, ite_not]
  rw [validate, hcheck, hcheck]
  split
  · rfl
  · split <;> rfl

theorem validate_eq_ok_iff : input.validate = .ok () ↔
    input.numOts ≠ 0 ∧ input.numOts.toNat ∣ input.x0.length ∧
      input.numOts.toNat ∣ input.x1.length := by
  rw [validate_eq]
  split_ifs <;> grind

theorem firstPairs_eq_ok_iff {limit : Nat} {ps : List (Bytes × Bytes)} :
    input.firstPairs limit = .ok ps ↔ input.validate = .ok () ∧
      ps = (List.range (min limit input.numOts.toNat)).map input.pair := by
  rw [firstPairs, except_bind_eq_ok]
  constructor
  · rintro ⟨_, hvalid, h⟩
    exact ⟨hvalid, (Except.ok.inj h).symm⟩
  · rintro ⟨hvalid, rfl⟩
    exact ⟨(), hvalid, rfl⟩

theorem pairs_eq_ok_iff {ps : List (Bytes × Bytes)} :
    input.pairs = .ok ps ↔ input.validate = .ok () ∧
      ps = (List.range input.numOts.toNat).map input.pair := by
  rw [pairs, firstPairs_eq_ok_iff, Nat.min_self]

theorem pairs_eq_error_iff {e : LayoutError} :
    input.pairs = .error e ↔ input.validate = .error e := by
  rw [pairs, firstPairs]
  rcases input.validate with _ | _ <;> simp [bind, Except.bind, pure, Except.pure]

/-- How an input is split into the messages of its transfers. -/
structure SplitsMessages (input : SenderInput) : Prop where
  validate_zeroCount_iff : input.validate = .error .zeroCount ↔ input.numOts = 0
  /-- The first buffer that does not split evenly is the one that is named. -/
  validate_notDivisible_iff (length count : Nat) :
    input.validate = .error (.notDivisible length count) ↔
      input.numOts ≠ 0 ∧ count = input.numOts.toNat ∧
        (¬ count ∣ input.x0.length ∧ length = input.x0.length ∨
          count ∣ input.x0.length ∧ ¬ count ∣ input.x1.length ∧ length = input.x1.length)
  validate_ok_iff : input.validate = .ok () ↔
    input.numOts ≠ 0 ∧ input.numOts.toNat ∣ input.x0.length ∧
      input.numOts.toNat ∣ input.x1.length
  /-- Exactly the inputs that are in order are split. -/
  pairs_ok_iff : (∃ ps, input.pairs = .ok ps) ↔ input.validate = .ok ()
  pairs_error_iff (e : LayoutError) : input.pairs = .error e ↔ input.validate = .error e
  /-- The messages for either choice are all of one length, and put together they are the buffer. -/
  pairs_split {ps : List (Bytes × Bytes)} : input.pairs = .ok ps →
    Splits input.x0 input.numOts.toNat input.x0ItemLength (ps.map Prod.fst) ∧
      Splits input.x1 input.numOts.toNat input.x1ItemLength (ps.map Prod.snd)
  /-- No message is out of range. -/
  in_range (index : Nat) : index < input.numOts.toNat →
    (index + 1) * input.x0ItemLength ≤ input.x0.length ∧
      (index + 1) * input.x1ItemLength ≤ input.x1.length
  /-- Taking only the first pairs gives the beginning of the list. -/
  firstPairs_eq (limit : Nat) {ps : List (Bytes × Bytes)} : input.pairs = .ok ps →
    input.firstPairs limit = .ok (ps.take limit)

/-- **The messages are split** without loss, overlap or reordering. -/
theorem splitsMessages (input : SenderInput) : SplitsMessages input where
  validate_zeroCount_iff := by
    rw [validate_eq]
    split_ifs <;> grind
  validate_notDivisible_iff := by
    intro length count
    rw [validate_eq]
    split_ifs <;> grind
  validate_ok_iff := validate_eq_ok_iff
  pairs_ok_iff := by
    simp only [pairs_eq_ok_iff, exists_and_left, exists_eq, and_true]
  pairs_error_iff _ := pairs_eq_error_iff
  pairs_split := by
    intro ps h
    obtain ⟨hvalid, rfl⟩ := pairs_eq_ok_iff.mp h
    obtain ⟨-, hx0, hx1⟩ := validate_eq_ok_iff.mp hvalid
    rw [List.map_map, List.map_map]
    exact ⟨splits_items (Nat.mul_div_cancel' hx0), splits_items (Nat.mul_div_cancel' hx1)⟩
  in_range := by
    intro index hindex
    have hle (length : Nat) : (index + 1) * (length / input.numOts.toNat) ≤ length :=
      (Nat.mul_le_mul_right _ hindex).trans (Nat.mul_div_le ..)
    exact ⟨hle _, hle _⟩
  firstPairs_eq := by
    intro limit ps h
    obtain ⟨hvalid, rfl⟩ := pairs_eq_ok_iff.mp h
    rw [firstPairs_eq_ok_iff, ← List.map_take, List.take_range]
    exact ⟨hvalid, rfl⟩

example : (SenderInput.mk [1, 2, 3, 4] [5, 6] 2).pairs = .ok [([1, 2], [5]), ([3, 4], [6])] := by
  decide

end SenderInput

end SigmaProtocol.ObliviousTransfer
