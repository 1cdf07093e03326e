import ExtendibleHashing.Entry

/-!
# Sinks

A sink takes the entries of a scan one at a time, keeps a state of its own, and says after
each entry whether it wants another.
-/

namespace ExtendibleHashing

/-- A receiver of entries. A push answers the new state and whether the scan goes on. -/
structure Sink (σ : Type) where
  push : σ → Entry → σ × Bool

namespace Sink

/-- Joins the values into one byte string, each after a comma and a space. -/
def concat : Sink (Array UInt8) where
  push joined e := (joined ++ #[0x2c, 0x20] ++ e.value.toArray, true)

/-- Collects the values in the order of delivery. -/
def values : Sink (Array Bytes) where
  push collected e := (collected.push e.value, true)

/-- Forget the values collected so far. -/
def values.clear (_collected : Array Bytes) : Array Bytes := #[]

/-- Collects whole entries in the order of delivery. -/
def entries : Sink (Array Entry) where
  push collected e := (collected.push e, true)

/-- Collects whole entries and stops once it has the given number; the first is always
taken. -/
def take (count : Nat) : Sink (Array Entry) where
  push collected e :=
    let collected := collected.push e
    (collected, collected.size < count)

end Sink

/-- A bound on the number of entries a scan may deliver, and how many were offered so far. Both are natural
numbers; a 64-bit word in their place would overflow, but only after `2 ^ 64` entries. -/
structure Limit where
  limit : Nat := 0
  offered : Nat := 0
deriving DecidableEq, Repr

namespace Limit

/-- The number of entries that were accepted. -/
def accepted (l : Limit) : Nat := min l.offered l.limit

/-- Take note of one more entry, and accept it while the limit is not passed. -/
def offer (l : Limit) : Limit × Bool :=
  let offered := l.offered + 1
  ({ l with offered }, offered ≤ l.limit)

/-- Move the limit, keeping the count. -/
def setLimit (limit : Nat) (l : Limit) : Limit := { l with limit }

end Limit

/-- Counts entries up to a limit and stops the scan on the next one. -/
def Sink.limited : Sink Limit where
  push l _ := l.offer

/-- The sinks a scan can be asked to fill by name. -/
inductive Collector where
  /-- The joined values. -/
  | concat
  /-- The list of values. -/
  | values
  /-- The number of entries accepted under a limit. -/
  | limited (limit : Nat)
  /-- The list of entries. -/
  | entries
  /-- The list of entries, cut off at a count. -/
  | take (count : Nat)
deriving DecidableEq, Repr

/-- What a collector holds after a scan. -/
inductive Collected where
  | bytes (joined : Bytes)
  | values (values : List Bytes)
  | count (accepted : Nat)
  | entries (entries : List Entry)
deriving DecidableEq, Repr

/-- Let a scan fill the sink that a collector names, from its empty state. The scan answers
how many entries it delivered. -/
def Collector.gather (scan : {σ : Type} → Sink σ → σ → σ × Nat) : Collector → Collected × Nat
  | .concat => let (state, n) := scan .concat #[]; (.bytes state.toList, n)
  | .values => let (state, n) := scan .values #[]; (.values state.toList, n)
  | .limited limit => let (state, n) := scan .limited { limit }; (.count state.accepted, n)
  | .entries => let (state, n) := scan .entries #[]; (.entries state.toList, n)
  | .take count => let (state, n) := scan (.take count) #[]; (.entries state.toList, n)

end ExtendibleHashing
