import ExtendibleHashing.Hash.Value
import ExtendibleHashing.Text.Column

/-!
# Errors

What an index refuses: a configuration it cannot address, an append to a full bucket, and
an insertion that no split can make room for.
-/

namespace ExtendibleHashing

/-- Why a request is refused. -/
inductive IndexError where
  /-- The keys of a full bucket and the new key have one and the same hash. -/
  | collision (hash : HashValue) (localDepth : Nat)
  /-- A directory would be addressed by more bits than a hash value has. -/
  | depthBeyondHash (depth : Nat)
  /-- A bucket has no room left. -/
  | bucketFull
deriving DecidableEq, Repr

/-- The wording of an error. -/
def IndexError.message : IndexError → String
  | .collision hash localDepth =>
      let hex := padStart 8 '0' (hexNumeral hash.toNat)
      s!"keys collide on every hash bit (hash 0x{hex}, local depth {localDepth})"
  | .depthBeyondHash depth =>
      s!"invalid configuration: initial global depth {depth} exceeds the {hashBits} bit hash width"
  | .bucketFull => "The bucket is full"

end ExtendibleHashing
