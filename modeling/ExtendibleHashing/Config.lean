import ExtendibleHashing.Error

/-!
# Configuration

An index starts with a directory of `2 ^ initialDepth` slots, each with a bucket of its own.
-/

namespace ExtendibleHashing

/-- The depth of the first directory where none is asked for. -/
def defaultInitialDepth : Nat := 2

/-- The parameters an index is built from. -/
structure Config where
  /-- The number of hash bits that address the first directory. -/
  initialDepth : Nat := defaultInitialDepth
deriving DecidableEq, Repr

/-- A directory cannot be addressed by more bits than a hash value has. That its slots fit into memory is not
checked besides: `2 ^ 32` of them, at four bytes each, always do with 64-bit addresses. -/
def Config.validate (config : Config) : Except IndexError Unit :=
  if hashBits < config.initialDepth then .error (.depthBeyondHash config.initialDepth) else .ok ()

end ExtendibleHashing
