import ExtendibleHashing.Error

/-!
# Buckets

A bucket is a short list of entries whose hashes agree on their low `localDepth` bits with
`origin`, the smallest slot that can refer to the bucket. The origin never changes, so it
serves as the identity of the bucket. Keys are found by a scan in stored order.
-/

namespace ExtendibleHashing

/-- The number of entries a bucket has room for. -/
def bucketCapacity : Nat := 4

/-- The unit of splitting: at most `bucketCapacity` entries of one residue class of hashes. -/
structure Bucket where
  entries : List Entry
  localDepth : Nat
  origin : Nat
deriving DecidableEq, Repr, Inhabited

namespace Bucket

/-- A bucket without entries. -/
def empty (localDepth origin : Nat) : Bucket := ⟨[], localDepth, origin⟩

/-- There is no room for another entry. -/
def isFull (b : Bucket) : Bool := b.entries.length == bucketCapacity

/-- The keys in stored order. -/
def keys (b : Bucket) : List Bytes := b.entries.map (·.key)

/-- A key of this hash belongs in the bucket at its present depth. This ends when a split
takes the residue class of the hash away. -/
def routes (hash : HashValue) (b : Bucket) : Bool := hash.residue b.localDepth == b.origin

/-- The position of a key in stored order. -/
def position? (key : Bytes) (b : Bucket) : Option Nat := b.entries.findIdx? fun e => e.key == key

/-- The value stored under a key. -/
def get? (key : Bytes) (b : Bucket) : Option Bytes :=
  (b.entries.find? fun e => e.key == key).map (·.value)

/-- Add an entry after the last one, without looking for its key. -/
def append (entry : Entry) (b : Bucket) : Except IndexError Bucket :=
  if b.isFull then .error .bucketFull else .ok { b with entries := b.entries ++ [entry] }

/-- Replace the value under a key, which keeps its position. -/
def update? (entry : Entry) (b : Bucket) : Option Bucket :=
  (b.position? entry.key).map fun i => { b with entries := b.entries.set i entry }

/-- Take out the entry of a key. The last entry moves into its place. -/
def remove? (key : Bytes) (b : Bucket) : Option (Entry × Bucket) := do
  let i ← b.position? key
  let removed ← b.entries[i]?
  let last ← b.entries.getLast?
  return (removed, { b with entries := (b.entries.set i last).dropLast })

end Bucket

end ExtendibleHashing
