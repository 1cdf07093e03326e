import ExtendibleHashing.Hash.Value

/-!
# Events

The changes of structure that operations report, each with the level and the text of its
record. `Logged` pairs a result with the events on the way to it, oldest first.
-/

namespace ExtendibleHashing

/-- How much attention a record asks for. -/
inductive Level where
  | warn
  | info
  | debug
  | trace
deriving DecidableEq, Repr

/-- The name of a level in a record. -/
def Level.name : Level → String
  | .warn => "WARN"
  | .info => "INFO"
  | .debug => "DEBUG"
  | .trace => "TRACE"

/-- Something an operation did to the structure of the index, or found in its way. -/
inductive Event where
  /-- The keys of a full bucket and a new key share every hash bit. -/
  | collision (keys origin : Nat)
  /-- The directory was doubled until `after` bits address it. -/
  | growth (before after slots : Nat)
  /-- An insertion needs more bits than the directory uses and starts over, holding it alone. -/
  | escalation (origin needed globalDepth : Nat)
  /-- A bucket was split until a new entry fit, creating new buckets. -/
  | split (origin localDepth : Nat) (created : List Nat)
  /-- A bucket was split between the reading of its slot and its use. -/
  | reread (id : Nat)
deriving DecidableEq, Repr

/-- The level an event is recorded at. -/
def Event.level : Event → Level
  | .collision .. => .warn
  | .growth .. => .info
  | .escalation .. => .debug
  | .split .. => .debug
  | .reread .. => .trace

/-- The text of the record of an event. -/
def Event.text : Event → String
  | .collision keys origin =>
      s!"{keys} keys in bucket {origin} collide on all {hashBits} hash bits"
  | .growth before after slots =>
      s!"directory grew from global depth {before} to {after} ({slots} slots)"
  | .escalation origin needed globalDepth =>
      s!"bucket {origin} needs local depth {needed} above global depth {globalDepth}, " ++
        "retrying exclusively"
  | .split origin localDepth created =>
      let created := ", ".intercalate (created.map Nat.repr)
      s!"split bucket {origin} to local depth {localDepth}, new buckets [{created}]"
  | .reread id => s!"bucket {id} was split under us, rereading slot"

/-- The record of an event: its level, then its text. -/
def Event.record (event : Event) : String := event.level.name ++ " " ++ event.text

/-- A result and the events on the way to it. -/
structure Logged (α : Type) where
  value : α
  events : List Event
deriving Repr

end ExtendibleHashing
