import ExtendibleHashing.Session.Request

/-!
# Interleavings

A session is a list of steps. Most steps are requests; a race is a point operation with
other steps run in the middle of it, as another client could run them there. There are two
places where that can happen: an operation has read the identity of its bucket and does not
have the bucket yet, or an insertion was escalated and does not have the directory yet. An
operation that does not come to the second place runs without interruption. At the first
place it keeps sharing the directory while the steps run, at the second it has let go.
-/

namespace ExtendibleHashing

/-- Where the steps of a race come in. -/
inductive RacePoint where
  /-- Between the reading of a slot and the use of the bucket it names. -/
  | bucket
  /-- Between the escalation of an insertion and its second try. -/
  | directory
deriving DecidableEq, Repr

/-- One step of a session. -/
inductive Step where
  /-- A request by itself. -/
  | request (request : Request)
  /-- A point operation with steps run in the middle of it. -/
  | race (point : RacePoint) (meanwhile : List Step) (op : Operation)

/-- What is known of the index after a step: its size and depth, and the events of the step
itself. -/
structure Status where
  size : Nat
  depth : Nat
  events : List Event

/-- The answer to a step. A race also answers the steps in the middle of it, if their place
was reached. -/
inductive Answer where
  | request (reply : Reply) (status : Status)
  | race (reply : Reply) (meanwhile : Option (List Answer)) (status : Status)

/-- The status of an index after a step with the given events. -/
def Index.status (events : List Event) (index : Index) : Status :=
  ⟨index.size.toNat, index.directory.depth, events⟩

mutual

/-- Run one step. -/
def Step.run (occupancy : Occupancy) (hash : Except HashError HashFunction) :
    Step → Index → Except Fault (Answer × Index)
  | .request r, index => do
    let ⟨reply, index, events⟩ ← r.run occupancy hash index
    return (.request reply (index.status events), index)
  | .race point meanwhile op, index =>
    match hash with
    | .error error => return (.race (.aborted (.undefined error)) none (index.status []), index)
    | .ok function => do
      let id ← index.directory.idOf (function op.key)
      match point with
      | .bucket =>
        let (answers, index) ← Step.runAll .shared hash meanwhile index
        let attempt ← index.attempt function op id
        let ⟨settled, events⟩ ← index.conclude occupancy function attempt
        return (.race (settled.reply .outcome) (some answers) (settled.index.status events),
          settled.index)
      | .directory =>
        let attempt ← index.attempt function op id
        match attempt.value with
        | .finished ⟨outcome, index⟩ =>
          return (.race (.outcome outcome) none (index.status attempt.events), index)
        | .escalated _ =>
          let (answers, index) ← Step.runAll occupancy hash meanwhile index
          let ⟨settled, events⟩ ← index.conclude occupancy function attempt
          return (.race (settled.reply .outcome) (some answers) (settled.index.status events),
            settled.index)

/-- Run steps one after the other. -/
def Step.runAll (occupancy : Occupancy) (hash : Except HashError HashFunction) :
    List Step → Index → Except Fault (List Answer × Index)
  | [], index => return ([], index)
  | step :: rest, index => do
    let (answer, index) ← Step.run occupancy hash step index
    let (answers, index) ← Step.runAll occupancy hash rest index
    return (answer :: answers, index)

end

end ExtendibleHashing
