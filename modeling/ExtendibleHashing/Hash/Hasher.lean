import ExtendibleHashing.Hash.DecimalResidue
import ExtendibleHashing.Hash.Murmur
import ExtendibleHashing.Hash.MultiplyShift
import ExtendibleHashing.Hash.Sip

/-!
# Hashers

The families of hash functions an index can be built with. Every hasher denotes a hash
function, except the decimal residue modulo zero, which has no value on any key.
-/

namespace ExtendibleHashing

/-- A choice of hash function. -/
inductive Hasher where
  /-- The decimal number in the key, reduced by a modulus. -/
  | decimalResidue (modulus : UInt32)
  /-- Murmur hashing under a seed. -/
  | murmur (seed : UInt32)
  /-- Multiply-shift hashing under a seed. -/
  | multiplyShift (seed : UInt64)
  /-- Sip hashing under the zero key. -/
  | sip
  /-- The same hash for every key. -/
  | constant (value : HashValue)
deriving DecidableEq, Repr

/-- Why a hasher has no value on a key. -/
inductive HashError where
  /-- The decimal residue was asked for the modulus zero. -/
  | zeroModulus
deriving DecidableEq, Repr

/-- The wording of a hash error. -/
def HashError.message : HashError → String
  | .zeroModulus => "attempt to calculate the remainder with a divisor of zero"

/-- The hash function that a hasher denotes. -/
def Hasher.function : Hasher → Except HashError HashFunction
  | .decimalResidue modulus =>
      if modulus = 0 then .error .zeroModulus else .ok (DecimalResidue.hash modulus)
  | .murmur seed => .ok (Murmur.hash seed)
  | .multiplyShift seed => .ok (MultiplyShift.hash seed)
  | .sip => .ok Sip.hash
  | .constant value => .ok fun _ => value

/-- A function that hashes the given keys as required. Where no key is given, any will do, so a
missing hash function is no hindrance. -/
def hashOn (keys : List Bytes) (hash : Except HashError HashFunction) :
    Except HashError HashFunction :=
  if keys.isEmpty then .ok fun _ => 0 else hash

end ExtendibleHashing
