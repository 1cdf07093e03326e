import ExtendibleHashing.Index.Basic

/-!
# Snapshots

A snapshot copies the shape of a directory: one row per slot, with the identity, the depth
and the keys of the bucket that the slot refers to. A bucket shows in as many rows as slots
refer to it, and the row of its own slot owns it.
-/

namespace ExtendibleHashing

/-- What a snapshot says of one slot. -/
structure SlotRow where
  slot : Nat
  origin : Nat
  localDepth : Nat
  keys : List Bytes
deriving DecidableEq, Repr

namespace SlotRow

/-- The number of entries of the bucket. -/
def entryCount (row : SlotRow) : Nat := row.keys.length

/-- The slot is the smallest one that can refer to the bucket. -/
def isOwner (row : SlotRow) : Bool := row.slot == row.origin

end SlotRow

/-- The shape of a directory at one moment. -/
structure Snapshot where
  depth : Nat
  rows : List SlotRow
deriving DecidableEq, Repr

namespace Snapshot

/-- The rows that own their buckets, so that each bucket shows once. -/
def owners (snapshot : Snapshot) : List SlotRow := snapshot.rows.filter SlotRow.isOwner

/-- The number of entries in all buckets, each bucket counted once. -/
def entryCount (snapshot : Snapshot) : Nat :=
  snapshot.owners.foldr (fun row count => row.entryCount + count) 0

end Snapshot

/-- The row of a slot. -/
def Directory.row (slot : Nat) (dir : Directory) : Except Fault SlotRow := do
  let bucket ← dir.fetch (← dir.idAt slot)
  return ⟨slot, bucket.origin, bucket.localDepth, bucket.keys⟩

/-- The present shape of the directory of an index. -/
def Index.snapshot (index : Index) : Except Fault Snapshot := do
  let dir := index.directory
  let rows ← (List.range dir.slots.size).mapM fun slot => dir.row slot
  return ⟨dir.depth, rows⟩

end ExtendibleHashing
