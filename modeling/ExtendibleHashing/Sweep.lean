import ExtendibleHashing.Bucket.Basic
import ExtendibleHashing.Sink

/-!
# Sweeps

Buckets keep no order among keys, so a scan of a key range sweeps over all of them. A sweep
collects the entries in range from one bucket after another and then delivers them to a sink
in key order. An entry that was collected twice, from a bucket and from one it was moved to
meanwhile, is delivered once.
-/

namespace ExtendibleHashing

/-- The keys from `start` on, up to and including `stop?` if that is given. -/
structure KeyRange where
  start : Bytes
  stop? : Option Bytes
deriving DecidableEq, Repr

/-- A key lies in the range, bounds included. -/
def KeyRange.contains (key : Bytes) (range : KeyRange) : Bool :=
  range.start ≤ key && range.stop?.all fun stop => key ≤ stop

/-- A key lies in a range when it is neither before the start nor after the stop. -/
theorem KeyRange.contains_iff {key : Bytes} {range : KeyRange} :
    range.contains key ↔ range.start ≤ key ∧ ∀ stop ∈ range.stop?, key ≤ stop := by
  cases hstop : range.stop? <;> simp [KeyRange.contains, hstop]

/-- The direction in which a scan delivers. -/
inductive ScanOrder where
  | ascending
  | descending
deriving DecidableEq, Repr

/-- One entry may be delivered before another. -/
def ScanOrder.precedes : ScanOrder → Entry → Entry → Bool
  | .ascending, a, b => a ≤ b
  | .descending, a, b => b ≤ a

/-- Hand entries to a sink until it declines, leaving out any whose key is that of the entry
before it. Answers the state of the sink and how many entries it took and went on. -/
def Sink.feed {σ : Type} (sink : Sink σ) (state : σ) (last? : Option Bytes) :
    List Entry → σ × Nat
  | [] => (state, 0)
  | e :: rest =>
    if last? = some e.key then sink.feed state last? rest
    else match sink.push state e with
      | (state, false) => (state, 0)
      | (state, true) =>
        let (state, delivered) := sink.feed state (some e.key) rest
        (state, delivered + 1)

/-- The entries in range that were collected so far. -/
structure Sweep where
  range : KeyRange
  order : ScanOrder
  collected : List Entry
deriving DecidableEq, Repr

namespace Sweep

/-- A sweep before its first bucket. -/
def empty (range : KeyRange) (order : ScanOrder) : Sweep := ⟨range, order, []⟩

/-- Collect the entries of a bucket that lie in range. -/
def add (bucket : Bucket) (sweep : Sweep) : Sweep :=
  let inRange := bucket.entries.filter fun e => sweep.range.contains e.key
  { sweep with collected := inRange ++ sweep.collected }

/-- The number of entries collected, repetitions included. -/
def size (sweep : Sweep) : Nat := sweep.collected.length

/-- Deliver what was collected, in order and without repeated keys, until the sink declines. -/
def deliver {σ : Type} (sink : Sink σ) (state : σ) (sweep : Sweep) : σ × Nat :=
  sink.feed state none (sweep.collected.mergeSort sweep.order.precedes)

end Sweep

end ExtendibleHashing
