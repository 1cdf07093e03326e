/-!
# Faults

A fault is a breach of the structure an index relies on, never the consequence of a request.
Every partial step of the library ends in one of these instead of leaving its domain, so
that the absence of faults says that all look-ups, splits and publications succeed.
-/

namespace ExtendibleHashing

/-- A breach of the structure of an index. -/
inductive Fault where
  /-- A hash addresses a slot outside the directory. -/
  | slotMissing (slot : Nat)
  /-- A slot names a bucket that has not been published. -/
  | unpublished (id : Nat)
  /-- A slot, read afresh, names a bucket that does not take the hash that led to it. -/
  | misrouted (id : Nat)
  /-- A new bucket has an identity outside the directory. -/
  | cellMissing (id : Nat)
  /-- A new bucket has the identity of an existing one. -/
  | republished (id : Nat)
  /-- A bucket to be split holds more entries than a bucket has room for. -/
  | overfull (origin : Nat)
  /-- A bucket to be split already uses every bit of a hash value. -/
  | bitsExhausted (origin : Nat)
deriving DecidableEq, Repr

/-- The wording of a fault. -/
def Fault.message : Fault → String
  | .slotMissing slot => s!"the directory has no slot {slot}"
  | .unpublished id => s!"bucket {id} is referenced but not published"
  | .misrouted id => s!"bucket {id} does not take the hash that addresses it"
  | .cellMissing id => s!"the directory has no place for bucket {id}"
  | .republished id => s!"bucket {id} published twice"
  | .overfull origin => s!"bucket {origin} holds more entries than it has room for"
  | .bitsExhausted origin => s!"bucket {origin} has no hash bit left to split on"

end ExtendibleHashing
