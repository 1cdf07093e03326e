import ExtendibleHashing.Entry

/-!
# Words

The machine words that hash functions compute with: bytes read in little-endian order, and
rotation.
-/

namespace ExtendibleHashing

/-- The number whose little-endian bytes are given; missing high bytes count as zero. -/
def littleEndian : Bytes → Nat
  | [] => 0
  | byte :: rest => byte.toNat + 256 * littleEndian rest

/-- Byte strings of one length denote different numbers. -/
theorem littleEndian_injective {a b : Bytes} (hlength : a.length = b.length)
    (h : littleEndian a = littleEndian b) : a = b := by
  induction a generalizing b with
  | nil => exact (List.eq_nil_of_length_eq_zero hlength.symm).symm
  | cons x xs ih =>
    cases b with
    | nil => simp at hlength
    | cons y ys =>
      have hx : x.toNat < 256 := x.toNat_lt
      have hy : y.toNat < 256 := y.toNat_lt
      simp only [littleEndian] at h
      rw [UInt8.toNat_inj.mp (by omega : x.toNat = y.toNat),
        ih (by simpa using hlength) (by omega : littleEndian xs = littleEndian ys)]

/-- A 32-bit word rotated towards its high end by a distance between 1 and 31. -/
def rotate32 (word distance : UInt32) : UInt32 :=
  (word <<< distance) ||| (word >>> (32 - distance))

/-- A 64-bit word rotated towards its high end by a distance between 1 and 63. -/
def rotate64 (word distance : UInt64) : UInt64 :=
  (word <<< distance) ||| (word >>> (64 - distance))

end ExtendibleHashing
