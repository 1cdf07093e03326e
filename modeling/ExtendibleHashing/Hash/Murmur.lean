import ExtendibleHashing.Hash.Value
import ExtendibleHashing.Hash.Word

/-!
# Murmur hashing

The 32-bit variant of the third Murmur hash. A key is cut into blocks of four bytes, each
scrambled and mixed into a running state that starts at the seed. The tail of at most three
bytes is scrambled like a block but only added to the state. The length and a final
avalanche close the hash.
-/

namespace ExtendibleHashing.Murmur

/-- Spread the bits of one block. -/
def scramble (block : UInt32) : UInt32 := rotate32 (block * 0xcc9e2d51) 15 * 0x1b873593

/-- Mix one block into the state. -/
def absorb (state block : UInt32) : UInt32 :=
  rotate32 (state ^^^ scramble block) 13 * 5 + 0xe6546b64

/-- Mix all blocks and the tail of a key into the state; an empty tail changes nothing. -/
def absorbKey (state : UInt32) : Bytes → UInt32
  | a :: b :: c :: d :: rest =>
      absorbKey (absorb state (UInt32.ofNat (littleEndian [a, b, c, d]))) rest
  | tail => state ^^^ scramble (UInt32.ofNat (littleEndian tail))

/-- Fold the high half of the state into the low half and back until every bit depends on
every other. -/
def avalanche (state : UInt32) : UInt32 :=
  let state := (state ^^^ (state >>> 16)) * 0x85ebca6b
  let state := (state ^^^ (state >>> 13)) * 0xc2b2ae35
  state ^^^ (state >>> 16)

/-- The hash of a key under a seed. -/
def hash (seed : UInt32) (key : Bytes) : HashValue :=
  avalanche (absorbKey seed key ^^^ UInt32.ofNat key.length)

end ExtendibleHashing.Murmur
