import ExtendibleHashing.Config
import ExtendibleHashing.Directory
import ExtendibleHashing.Operation

/-!
# The index

An index is a directory and a count of the stored keys. It is built from a configuration
and then changed by point operations only.
-/

namespace ExtendibleHashing

/-- A directory and the number of keys stored in its buckets. -/
structure Index where
  directory : Directory
  size : UInt64
deriving DecidableEq, Repr

/-- The state after a point operation, with its answer. -/
structure Answered where
  outcome : Outcome
  index : Index
deriving DecidableEq, Repr

namespace Index

/-- An index without entries, unless the configuration is invalid. -/
def ofConfig (config : Config) : Except IndexError Index := do
  config.validate
  return ⟨.ofDepth config.initialDepth, 0⟩

/-- Put back a bucket that gained an entry. -/
def storeGrown (located : Located) (index : Index) : Index :=
  ⟨index.directory.store located, index.size + 1⟩

/-- Put back a bucket that was split to take in a new entry, and publish what it was split
into. -/
def storeSplit (located : Located) (created : List Bucket) (index : Index) :
    Except Fault Index := do
  let directory ← (index.directory.store located).publishAll created
  return ⟨directory, index.size + 1⟩

end Index

end ExtendibleHashing
