import ExtendibleHashing.Hash.Value
import ExtendibleHashing.Hash.Word

/-!
# Multiply-shift hashing

The first eight bytes of a key, read in little-endian order, are multiplied by an odd seed
modulo `2 ^ 64`; the hash is the high half of the product. Later bytes do not count, so
the family suits short keys.
-/

namespace ExtendibleHashing.MultiplyShift

/-- The hash of a key under a seed, whose lowest bit is set first. -/
def hash (seed : UInt64) (key : Bytes) : HashValue :=
  (((seed ||| 1) * UInt64.ofNat (littleEndian (key.take 8))) >>> 32).toUInt32

end ExtendibleHashing.MultiplyShift
