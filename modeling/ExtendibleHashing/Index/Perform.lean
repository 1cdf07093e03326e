import ExtendibleHashing.Index.Insertion

/-!
# Carrying out point operations

A point operation hashes its key, reads the identity of a bucket from the slot of the hash,
and works on that bucket. It shares the directory, so between the two other operations may
come in; `attempt` therefore takes the identity that was read and finds its way if that is
out of date. `perform` is a point operation without interruption.
-/

namespace ExtendibleHashing.Index

/-- Carry out a point operation while sharing the directory, on the bucket responsible for
its key, which is looked for first under an identity read earlier. -/
def attempt (hash : HashFunction) (op : Operation) (id : Nat) (index : Index) :
    Except Fault (Logged Attempt) := do
  let ⟨found, events⟩ ← index.directory.locate (hash op.key) id
  match op with
  | .get key => return ⟨.finished ⟨.found (found.bucket.get? key), index⟩, events⟩
  | .insert entry =>
    let ⟨attempt, more⟩ ← index.insertInPlace hash entry found
    return ⟨attempt, events ++ more⟩
  | .update entry =>
    match found.bucket.update? entry with
    | some bucket =>
      let directory := index.directory.store ⟨found.id, bucket⟩
      return ⟨.finished ⟨.done, { index with directory }⟩, events⟩
    | none => return ⟨.finished ⟨.done, index⟩, events⟩
  | .remove key =>
    match found.bucket.remove? key with
    | some (_, bucket) =>
      let directory := index.directory.store ⟨found.id, bucket⟩
      return ⟨.finished ⟨.done, ⟨directory, index.size - 1⟩⟩, events⟩
    | none => return ⟨.finished ⟨.done, index⟩, events⟩

/-- Bring an attempt to its end on the index as it is now, exclusively if it was escalated. -/
def complete (hash : HashFunction) (attempt : Logged Attempt) (index : Index) :
    Except Fault (Logged Answered) :=
  match attempt.value with
  | .finished answer => .ok ⟨answer, attempt.events⟩
  | .escalated entry => do
    let ⟨answer, events⟩ ← index.insertGrowing hash entry
    return ⟨answer, attempt.events ++ events⟩

/-- A point operation from start to end. -/
def perform (hash : HashFunction) (op : Operation) (index : Index) :
    Except Fault (Logged Answered) := do
  let id ← index.directory.idOf (hash op.key)
  let attempt ← index.attempt hash op id
  index.complete hash attempt

end ExtendibleHashing.Index
