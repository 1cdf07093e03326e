import ExtendibleHashing.Hash.Word
import ExtendibleHashing.Proofs.Bucket.Separation
import Mathlib.Algebra.Group.Nat.Defs

/-!
# What words keep

The operations that hash functions are composed of lose nothing of a word: reading up to four bytes,
rotation, multiplication by a word that has an inverse, and folding a word onto itself. Each is
injective, by its bits, by the inverse, or because only zero is its own shift.
-/

namespace ExtendibleHashing

/-- A byte string denotes a number of as many digits to the base 256. -/
theorem littleEndian_lt (bytes : Bytes) : littleEndian bytes < 256 ^ bytes.length := by
  induction bytes with
  | nil => exact Nat.one_pos
  | cons byte rest ih =>
    have hbyte : byte.toNat < 256 := byte.toNat_lt
    rw [littleEndian, List.length_cons, Nat.pow_succ]
    omega

/-- Byte strings of one length that fit a word denote different words. -/
theorem word_injective {a b : Bytes} (ha : a.length ≤ 4) (hlength : a.length = b.length)
    (h : UInt32.ofNat (littleEndian a) = UInt32.ofNat (littleEndian b)) : a = b := by
  have hfits {bytes : Bytes} (hbytes : bytes.length ≤ 4) : littleEndian bytes < UInt32.size :=
    Nat.lt_of_lt_of_le (littleEndian_lt bytes) (Nat.pow_le_pow_right (by decide) hbytes)
  apply littleEndian_injective hlength
  rw [← UInt32.toNat_ofNat_of_lt' (hfits ha), h, UInt32.toNat_ofNat_of_lt' (hfits (hlength ▸ ha))]

/-- A rotation takes each bit up by the distance, and the topmost ones around to the low end. -/
theorem bit_rotate32 (word : UInt32) {distance i : Nat} (hpos : 0 < distance) (hlt : distance < 32) (hi : i < 32) :
    HashValue.bit ((i + distance) % 32) (rotate32 word (UInt32.ofNat distance)) = HashValue.bit i word := by
  have hdistance : (UInt32.ofNat distance).toNat = distance :=
    UInt32.toNat_ofNat_of_lt' (Nat.lt_trans hlt (by decide))
  have hle : UInt32.ofNat distance ≤ 32 := by
    rw [UInt32.le_iff_toNat_le, hdistance]
    exact Nat.le_of_lt hlt
  have hback : (32 - UInt32.ofNat distance).toNat = 32 - distance := by
    rw [UInt32.toNat_sub_of_le _ _ hle, hdistance]
    rfl
  have htop {j : Nat} (hj : 32 ≤ j) : word.toNat.testBit j = false :=
    Nat.testBit_lt_two_pow (Nat.lt_of_lt_of_le word.toNat_lt (Nat.pow_le_pow_right (by decide) hj))
  simp only [HashValue.bit, rotate32, UInt32.toNat_or, UInt32.toNat_shiftLeft, UInt32.toNat_shiftRight, hdistance,
    hback, Nat.mod_eq_of_lt hlt, Nat.mod_eq_of_lt (by omega : 32 - distance < 32), Nat.testBit_or,
    Nat.testBit_mod_two_pow, Nat.testBit_shiftLeft, Nat.testBit_shiftRight]
  by_cases hwraps : i + distance < 32
  · rw [Nat.mod_eq_of_lt hwraps, htop (by omega : 32 ≤ 32 - distance + (i + distance)), Nat.add_sub_cancel]
    simp [hwraps]
  · rw [show (i + distance) % 32 = i + distance - 32 by omega,
      show 32 - distance + (i + distance - 32) = i by omega]
    simp [show ¬ distance ≤ i + distance - 32 by omega]

/-- A rotation loses nothing. -/
theorem rotate32_injective (distance : Nat) (hpos : 0 < distance) (hlt : distance < 32) :
    Function.Injective fun word => rotate32 word (UInt32.ofNat distance) := by
  intro x y hxy
  apply HashValue.eq_of_bit_eq
  intro i hi
  rw [← bit_rotate32 x hpos hlt hi, ← bit_rotate32 y hpos hlt hi]
  exact congrArg (HashValue.bit _) hxy

/-- Multiplication by a word that has an inverse loses nothing. -/
theorem mul_injective {factor : UInt32} (inverse : UInt32) (h : factor * inverse = 1) :
    Function.Injective fun word => word * factor := by
  intro x y hxy
  have hback := congrArg (· * inverse) hxy
  simpa only [UInt32.mul_assoc, h, UInt32.mul_one] using hback

/-- Only zero stays the same when it is shifted towards its low end. -/
theorem eq_zero_of_shiftRight_eq {word distance : UInt32} (hpos : 0 < distance) (hlt : distance < 32)
    (h : word >>> distance = word) : word = 0 := by
  have hdistance : distance.toNat % 32 = distance.toNat := Nat.mod_eq_of_lt (UInt32.lt_iff_toNat_lt.mp hlt)
  have hfactor : 1 < 2 ^ distance.toNat :=
    Nat.one_lt_two_pow (Nat.ne_of_gt (UInt32.lt_iff_toNat_lt.mp hpos))
  have hdiv : word.toNat / 2 ^ distance.toNat = word.toNat := by
    rw [← Nat.shiftRight_eq_div_pow, ← hdistance, ← UInt32.toNat_shiftRight, h]
  apply UInt32.toNat_inj.mp
  rcases Nat.eq_zero_or_pos word.toNat with hzero | hpositive
  · exact hzero
  · exact absurd hdiv (Nat.ne_of_lt (Nat.div_lt_self hpositive hfactor))

/-- Folding the high bits of a word into the low ones loses nothing. -/
theorem xorShift_injective {distance : UInt32} (hpos : 0 < distance) (hlt : distance < 32) :
    Function.Injective fun word : UInt32 => word ^^^ (word >>> distance) := by
  intro x y (hxy : x ^^^ (x >>> distance) = y ^^^ (y >>> distance))
  -- the difference of two such words is the same when it is shifted
  have hdifference : (x ^^^ y) ^^^ ((x ^^^ y) >>> distance) = 0 := by
    calc
      (x ^^^ y) ^^^ ((x ^^^ y) >>> distance) = (x ^^^ (x >>> distance)) ^^^ (y ^^^ (y >>> distance)) := by
        rw [UInt32.shiftRight_xor]
        ac_rfl
      _ = 0 := UInt32.xor_eq_zero_iff.mpr hxy
  have hzero := eq_zero_of_shiftRight_eq hpos hlt (UInt32.xor_eq_zero_iff.mp hdifference).symm
  exact UInt32.xor_eq_zero_iff.mp hzero

end ExtendibleHashing
