import ExtendibleHashing.Bucket.Split

/-!
# Where the hashes of a bucket separate

`separatingDepth?` combines the hashes of a bucket by words: it collects the bits on which some
entry differs from the new hash, masks the ones the bucket has used up, and takes the lowest. Read
bit by bit, the answer is one more than the first position from the local depth on at which some
entry disagrees with the new hash, and there is no answer exactly when all of them agree on every
such position.
-/

namespace ExtendibleHashing

namespace HashValue

/-- The set bits of a mask are those below its depth. -/
theorem bit_mask (depth : Nat) {i : Nat} (hi : i < hashBits) : bit i (mask depth) = decide (i < depth) := by
  -- a mask is what it leaves of the word with all bits set
  have hones : (0xffffffff : HashValue).toNat.testBit i = true :=
    (Nat.testBit_two_pow_sub_one 32 i).trans (decide_eq_true hi)
  have hmask : 0xffffffff &&& mask depth = mask depth := UInt32.neg_one_and
  rw [bit, ← hmask, toNat_and_mask, residue, Nat.one_shiftLeft, Nat.testBit_mod_two_pow, hones, Bool.and_true]

/-- Clearing the bits of a mask leaves those from its depth on. -/
theorem bit_and_not_mask (bits : HashValue) (depth : Nat) {i : Nat} (hi : i < hashBits) :
    bit i (bits &&& ~~~ mask depth) = (bit i bits && decide (depth ≤ i)) := by
  have hmask : (mask depth).toBitVec.getLsbD i = decide (i < depth) := bit_mask depth hi
  change (bits &&& ~~~ mask depth).toBitVec.getLsbD i = (bits.toBitVec.getLsbD i && _)
  rw [UInt32.toBitVec_and, UInt32.toBitVec_not, BitVec.getLsbD_and, BitVec.getLsbD_not, hmask]
  have hwidth : decide (i < 32) = true := decide_eq_true hi
  rw [hwidth, Bool.true_and, ← decide_not]
  simp only [Nat.not_lt]

/-- The lowest set bit is set, and no lower one is. -/
theorem lowestBit?_eq_some_iff {hash : HashValue} {i : Nat} :
    lowestBit? hash = some i ↔ i < hashBits ∧ bit i hash = true ∧ ∀ j < i, bit j hash = false := by
  rw [lowestBit?, List.find?_range_eq_some]
  simp only [List.mem_range, Bool.not_eq_true']
  exact ⟨fun ⟨hbit, hi, hlow⟩ => ⟨hi, hbit, hlow⟩, fun ⟨hi, hbit, hlow⟩ => ⟨hbit, hi, hlow⟩⟩

/-- A word without set bits has no lowest one. -/
theorem lowestBit?_eq_none_iff {hash : HashValue} :
    lowestBit? hash = none ↔ ∀ i < hashBits, bit i hash = false := by
  simp [lowestBit?]

/-- Hashes with the same bits are the same. -/
theorem eq_of_bit_eq {a b : HashValue} (h : ∀ i < hashBits, bit i a = bit i b) : a = b := by
  apply UInt32.toNat_inj.mp
  apply Nat.eq_of_testBit_eq
  intro i
  by_cases hi : i < hashBits
  · exact h i hi
  · have hle : 2 ^ 32 ≤ 2 ^ i := Nat.pow_le_pow_right (by decide) (Nat.le_of_not_lt hi)
    have ha : a.toNat < 2 ^ i := Nat.lt_of_lt_of_le a.toNat_lt hle
    have hb : b.toNat < 2 ^ i := Nat.lt_of_lt_of_le b.toNat_lt hle
    rw [Nat.testBit_lt_two_pow ha, Nat.testBit_lt_two_pow hb]

end HashValue

namespace Bucket

/-- Every entry of the bucket has the bit of a new hash at a position. -/
def AgreesAt (hash : HashFunction) (newHash : HashValue) (i : Nat) (b : Bucket) : Prop :=
  ∀ e ∈ b.entries, (hash e.key).bit i = newHash.bit i

/-- The first position from the local depth on at which an entry disagrees with a new hash. -/
structure SeparatesAt (hash : HashFunction) (newHash : HashValue) (i : Nat) (b : Bucket) : Prop where
  localDepth_le : b.localDepth ≤ i
  lt_hashBits : i < hashBits
  disagrees : ¬ b.AgreesAt hash newHash i
  agrees_below : ∀ j, b.localDepth ≤ j → j < i → b.AgreesAt hash newHash j

/-- A differing bit is one at which some entry disagrees. -/
theorem bit_differingBits (hash : HashFunction) (newHash : HashValue) (b : Bucket) (i : Nat) :
    (b.differingBits hash newHash).bit i =
      b.entries.any fun e => (hash e.key).bit i != newHash.bit i := by
  have hfold (entries : List Entry) (bits : HashValue) :
      HashValue.bit i (entries.foldl (fun bits e => bits ||| (hash e.key ^^^ newHash)) bits) =
        (HashValue.bit i bits || entries.any fun e => (hash e.key).bit i != newHash.bit i) := by
    induction entries generalizing bits with
    | nil => simp
    | cons e rest ih =>
      have hor : HashValue.bit i (bits ||| (hash e.key ^^^ newHash)) =
          (HashValue.bit i bits || (hash e.key).bit i != newHash.bit i) := by
        simp [HashValue.bit, Nat.testBit_or, Nat.testBit_xor]
      rw [List.foldl_cons, ih, hor, List.any_cons, Bool.or_assoc]
  have hzero : HashValue.bit i 0 = false := Nat.zero_testBit i
  rw [differingBits, hfold, hzero, Bool.false_or]

/-- An undecided bit is set where an entry disagrees, from the local depth on. -/
theorem bit_undecided_eq_false_iff (hash : HashFunction) (newHash : HashValue) (b : Bucket) {i : Nat}
    (hi : i < hashBits) :
    (b.differingBits hash newHash &&& ~~~ HashValue.mask b.localDepth).bit i = false ↔
      (b.localDepth ≤ i → b.AgreesAt hash newHash i) := by
  rw [HashValue.bit_and_not_mask _ _ hi, bit_differingBits]
  by_cases hdepth : b.localDepth ≤ i <;> simp [hdepth, AgreesAt]

/-- The separating depth lies just above the first position of disagreement. -/
theorem separatingDepth?_eq_some_iff {hash : HashFunction} {newHash : HashValue} {b : Bucket}
    {depth : Nat} :
    b.separatingDepth? hash newHash = some depth ↔
      ∃ i, depth = i + 1 ∧ b.SeparatesAt hash newHash i := by
  rw [separatingDepth?, Option.map_eq_some_iff]
  refine exists_congr fun i => ?_
  rw [and_comm, eq_comm, HashValue.lowestBit?_eq_some_iff]
  refine and_congr_right fun _ => ?_
  constructor
  · rintro ⟨hi, hbit, hlow⟩
    have hset := mt (bit_undecided_eq_false_iff hash newHash b hi).mpr (by simp [hbit])
    obtain ⟨hdepth, hdisagrees⟩ := Classical.not_imp.mp hset
    exact ⟨hdepth, hi, hdisagrees, fun j hj hji =>
      (bit_undecided_eq_false_iff hash newHash b (Nat.lt_trans hji hi)).mp (hlow j hji) hj⟩
  · intro h
    refine ⟨h.lt_hashBits, ?_, fun j hj => ?_⟩
    · rw [← Bool.not_eq_false, bit_undecided_eq_false_iff hash newHash b h.lt_hashBits]
      exact fun hagrees => h.disagrees (hagrees h.localDepth_le)
    · rw [bit_undecided_eq_false_iff hash newHash b (Nat.lt_trans hj h.lt_hashBits)]
      exact fun hdepth => h.agrees_below j hdepth hj

/-- Nothing separates a bucket from a new hash exactly when all bits from its depth on agree. -/
theorem separatingDepth?_eq_none_iff {hash : HashFunction} {newHash : HashValue} {b : Bucket} :
    b.separatingDepth? hash newHash = none ↔
      ∀ i, b.localDepth ≤ i → i < hashBits → b.AgreesAt hash newHash i := by
  rw [separatingDepth?, Option.map_eq_none_iff, HashValue.lowestBit?_eq_none_iff]
  constructor
  · intro h i hdepth hi
    exact (bit_undecided_eq_false_iff hash newHash b hi).mp (h i hi) hdepth
  · intro h i hi
    exact (bit_undecided_eq_false_iff hash newHash b hi).mpr fun hdepth => h i hdepth hi

end Bucket

end ExtendibleHashing
