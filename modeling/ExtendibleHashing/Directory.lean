import ExtendibleHashing.Bucket.Basic
import ExtendibleHashing.Event
import ExtendibleHashing.Fault

/-!
# The directory

The directory has `2 ^ depth` slots, addressed by the low `depth` bits of a hash, and as
many cells. A slot holds the identity of a bucket and cell `i` holds the bucket with
identity `i`, once that exists. A bucket of local depth `d` is referred to by every slot
that is congruent to its origin modulo `2 ^ d`; publishing a new bucket redirects these
slots to it, and doubling the directory copies all of them.
-/

namespace ExtendibleHashing

/-- The slots, and the buckets they refer to. -/
structure Directory where
  depth : Nat
  slots : Array Nat
  cells : Array (Option Bucket)
deriving DecidableEq, Repr

/-- A bucket with the cell it was read from. -/
structure Located where
  id : Nat
  bucket : Bucket
deriving DecidableEq, Repr

namespace Directory

/-- A directory in which every slot has an empty bucket of its own. -/
def ofDepth (depth : Nat) : Directory where
  depth := depth
  slots := Array.range (1 <<< depth)
  cells := (Array.range (1 <<< depth)).map fun origin => some (.empty depth origin)

/-- The slot that a hash addresses. -/
def slotOf (hash : HashValue) (dir : Directory) : Nat := hash.residue dir.depth

/-- The identity of the bucket that a slot refers to. -/
def idAt (slot : Nat) (dir : Directory) : Except Fault Nat :=
  match dir.slots[slot]? with
  | some id => .ok id
  | none => .error (.slotMissing slot)

/-- The identity of the bucket responsible for a hash. -/
def idOf (hash : HashValue) (dir : Directory) : Except Fault Nat := dir.idAt (dir.slotOf hash)

/-- The bucket with an identity. -/
def fetch (id : Nat) (dir : Directory) : Except Fault Bucket :=
  match dir.cells[id]? with
  | some (some bucket) => .ok bucket
  | _ => .error (.unpublished id)

/-- Every bucket once, by ascending identity. -/
def buckets (dir : Directory) : List Bucket := dir.cells.toList.filterMap id

/-- The bucket that the slot of a hash refers to. -/
def lookUp (hash : HashValue) (dir : Directory) : Except Fault Located := do
  let id ← dir.idOf hash
  let bucket ← dir.fetch id
  if bucket.routes hash then return ⟨id, bucket⟩ else throw (.misrouted id)

/-- The bucket responsible for a hash, tried first under an identity that was read earlier.
That bucket may have been split since and have passed the hash on; then the slot is read
again. -/
def locate (hash : HashValue) (id : Nat) (dir : Directory) : Except Fault (Logged Located) := do
  let bucket ← dir.fetch id
  if bucket.routes hash then
    return ⟨⟨id, bucket⟩, []⟩
  else
    let located ← dir.lookUp hash
    return ⟨located, [.reread id]⟩

/-- Put back a bucket that was read from a cell. -/
def store (located : Located) (dir : Directory) : Directory :=
  { dir with cells := dir.cells.setIfInBounds located.id (some located.bucket) }

/-- A slot lies at the origin of a bucket or a multiple of `2 ^ localDepth` above it. -/
def inAliasRange (bucket : Bucket) (slot : Nat) : Bool :=
  bucket.origin ≤ slot && (slot - bucket.origin) % (1 <<< bucket.localDepth) == 0

/-- Make a new bucket reachable: keep it in its cell, then redirect its slots to it. -/
def publish (bucket : Bucket) (dir : Directory) : Except Fault Directory :=
  match dir.cells[bucket.origin]? with
  | none => .error (.cellMissing bucket.origin)
  | some (some _) => .error (.republished bucket.origin)
  | some none => .ok {
      dir with
      cells := dir.cells.setIfInBounds bucket.origin (some bucket)
      slots := dir.slots.mapIdx fun slot id =>
        if inAliasRange bucket slot then bucket.origin else id }

/-- Make new buckets reachable in the order of their creation. -/
def publishAll (created : List Bucket) (dir : Directory) : Except Fault Directory :=
  created.foldlM (fun dir bucket => dir.publish bucket) dir

/-- Address the directory by one more bit. The new slots repeat the old ones, and the new
cells are empty. -/
def double (dir : Directory) : Directory where
  depth := dir.depth + 1
  slots := dir.slots ++ dir.slots
  cells := dir.cells ++ Array.replicate dir.slots.size none

/-- Double the directory until it is addressed by at least the given number of bits. -/
def deepen (depth : Nat) (dir : Directory) : Directory :=
  Nat.repeat double (depth - dir.depth) dir

end Directory

end ExtendibleHashing
