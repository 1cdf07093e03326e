import ExtendibleHashing.Entry

/-!
# Hash values

A hash value is a 32-bit word. A directory or bucket of depth `d` looks at its low `d` bits
only, which is the residue of the word modulo `2 ^ d`; `mask` selects the same bits as a
word.
-/

namespace ExtendibleHashing

/-- The hash of a key. -/
abbrev HashValue := UInt32

/-- A hash function gives every key its hash value. -/
abbrev HashFunction := Bytes → HashValue

/-- The number of bits of a hash value. -/
def hashBits : Nat := 32

namespace HashValue

/-- The low `depth` bits of a hash, as a number below `2 ^ depth`. -/
def residue (depth : Nat) (hash : HashValue) : Nat := hash.toNat % (1 <<< depth)

/-- Bit `i` of a hash, counted from the least significant one. -/
def bit (i : Nat) (hash : HashValue) : Bool := hash.toNat.testBit i

/-- The word whose low `depth` bits are set; from the full width on, every bit is. -/
def mask (depth : Nat) : HashValue :=
  if hashBits ≤ depth then 0xffffffff else UInt32.ofNat ((1 <<< depth) - 1)

/-- The position of the least significant bit that is set. -/
def lowestBit? (hash : HashValue) : Option Nat := (List.range hashBits).find? fun i => bit i hash

/-- Masking a hash leaves its residue. -/
theorem toNat_and_mask (depth : Nat) (hash : HashValue) :
    (hash &&& mask depth).toNat = residue depth hash := by
  have hlt : hash.toNat < 2 ^ 32 := hash.toNat_lt
  rw [mask, residue, hashBits, Nat.one_shiftLeft]
  split
  next hdepth =>
    have hle : 2 ^ 32 ≤ 2 ^ depth := Nat.pow_le_pow_right (by decide) hdepth
    rw [UInt32.toNat_and, Nat.mod_eq_of_lt (by omega)]
    change hash.toNat &&& (2 ^ 32 - 1) = _
    rw [Nat.and_two_pow_sub_one_eq_mod, Nat.mod_eq_of_lt hlt]
  next hdepth =>
    have hle : 2 ^ depth ≤ 2 ^ 32 := Nat.pow_le_pow_right (by decide) (by omega)
    have hpos := Nat.two_pow_pos depth
    rw [UInt32.toNat_and, UInt32.toNat_ofNat_of_lt' (by simp only [UInt32.size]; omega),
      Nat.and_two_pow_sub_one_eq_mod]

end HashValue

end ExtendibleHashing
