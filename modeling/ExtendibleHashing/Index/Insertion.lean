import ExtendibleHashing.Bucket.Split
import ExtendibleHashing.Index.Basic

/-!
# Insertion

An insertion into a full bucket splits it. As long as the split fits the directory this
happens in place, while others use the directory too. Otherwise the insertion is escalated:
it lets go of the directory, takes hold of all of it, and starts over with `insertGrowing`,
which doubles the directory as often as the split asks for.
-/

namespace ExtendibleHashing

/-- How far a point operation gets while it shares the directory. -/
inductive Attempt where
  /-- It is over. -/
  | finished (answer : Answered)
  /-- It is an insertion that has to start over with the directory to itself. -/
  | escalated (entry : Entry)
deriving DecidableEq, Repr

namespace Index

/-- The record of a split. -/
def splitEvent (bucket : Bucket) (created : List Bucket) : Event :=
  .split bucket.origin bucket.localDepth (created.map (·.origin))

/-- Insert an entry into the bucket found for it, if the slots there are suffice. -/
def insertInPlace (hash : HashFunction) (entry : Entry) (found : Located) (index : Index) :
    Except Fault (Logged Attempt) := do
  let newHash := hash entry.key
  let bucket := found.bucket
  match bucket.place hash newHash entry with
  | .present => return ⟨.finished ⟨.accepted, index⟩, []⟩
  | .appended bucket => return ⟨.finished ⟨.accepted, index.storeGrown ⟨found.id, bucket⟩⟩, []⟩
  | .inseparable =>
    return ⟨.finished ⟨.refused (.collision newHash bucket.localDepth), index⟩,
      [.collision (bucket.entries.length + 1) bucket.origin]⟩
  | .crowded depth =>
    if depth ≤ index.directory.depth then
      let (bucket, created) ← bucket.splitFor hash newHash entry
      let index ← index.storeSplit ⟨found.id, bucket⟩ created
      return ⟨.finished ⟨.accepted, index⟩, [splitEvent bucket created]⟩
    else
      return ⟨.escalated entry, [.escalation bucket.origin depth index.directory.depth]⟩

/-- Insert an entry with the directory to oneself. Nothing found out before counts: the key
may be stored by now, the bucket may have room, and the directory may have grown. -/
def insertGrowing (hash : HashFunction) (entry : Entry) (index : Index) :
    Except Fault (Logged Answered) := do
  let newHash := hash entry.key
  let ⟨id, bucket⟩ ← index.directory.lookUp newHash
  match bucket.place hash newHash entry with
  | .present => return ⟨⟨.accepted, index⟩, []⟩
  | .appended bucket => return ⟨⟨.accepted, index.storeGrown ⟨id, bucket⟩⟩, []⟩
  | .inseparable =>
    return ⟨⟨.refused (.collision newHash bucket.localDepth), index⟩,
      [.collision (bucket.entries.length + 1) bucket.origin]⟩
  | .crowded _ =>
    let (bucket, created) ← bucket.splitFor hash newHash entry
    let required := created.foldl (fun depth b => max depth b.localDepth) bucket.localDepth
    let before := index.directory.depth
    let directory := index.directory.deepen required
    let growth := if required ≤ before then []
      else [.growth before directory.depth directory.slots.size]
    let index ← storeSplit ⟨id, bucket⟩ created { index with directory }
    return ⟨⟨.accepted, index⟩, splitEvent bucket created :: growth⟩

end Index

end ExtendibleHashing
