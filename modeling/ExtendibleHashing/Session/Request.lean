import ExtendibleHashing.Index.Perform
import ExtendibleHashing.Index.Scan
import ExtendibleHashing.Snapshot.Check
import ExtendibleHashing.Snapshot.Table
import ExtendibleHashing.Text.Numeral

/-!
# Requests

What a client asks of an index: point operations one by one or as a numbered series, scans
into a named sink, measurements, and views of the directory. `run` answers a request and
gives the index after it, along with the events on the way.

Two things break a request off. A hasher without a function has no hash for a key. And an
operation that was interrupted may still share the directory: then a request that needs all
of it, for a view or for an escalated insertion, would wait for ever.
-/

namespace ExtendibleHashing

/-- The keys that follow a stem with the numerals of an arithmetic progression. -/
structure Series where
  stem : Bytes
  start : Nat
  count : Nat
  stride : Nat
deriving DecidableEq, Repr

/-- The entries of a series: each key with its numeral as the value. -/
def Series.entries (series : Series) : List Entry :=
  (List.range series.count).map fun i =>
    let digits := numeral (series.start + i * series.stride)
    ⟨series.stem ++ digits, digits⟩

/-- What is done to each key of a series. -/
inductive SeriesTask where
  | insert
  | remove
  | get
deriving DecidableEq, Repr

/-- The operation of a task on one entry of a series. -/
def SeriesTask.operation (entry : Entry) : SeriesTask → Operation
  | .insert => .insert entry
  | .remove => .remove entry.key
  | .get => .get entry.key

/-- How many operations of a series went well, and the keys of those that did not. -/
structure SeriesCount where
  good : Nat
  bad : List Bytes
deriving DecidableEq, Repr

/-- Count the outcome of an operation on a key: an insertion is good if it is not refused, a
look-up if it finds a value. A removal has nothing to count. -/
def SeriesCount.add (key : Bytes) (outcome : Outcome) (count : SeriesCount) : SeriesCount :=
  match outcome with
  | .accepted | .found (some _) => { count with good := count.good + 1 }
  | .refused _ | .found none => { count with bad := key :: count.bad }
  | .done => count

/-- What operations that were interrupted have of the directory. -/
inductive Occupancy where
  /-- None of them uses it. -/
  | vacant
  /-- One of them shares it, so nobody else can have all of it. -/
  | shared
deriving DecidableEq, Repr

/-- Why a request is broken off. -/
inductive Abort where
  /-- A key has no hash. -/
  | undefined (error : HashError)
  /-- The request waits for the directory, which is shared by an operation that waits for the
  request. -/
  | deadlock
deriving DecidableEq, Repr

/-- The wording of a break-off. -/
def Abort.message : Abort → String
  | .undefined error => error.message
  | .deadlock => "deadlock"

/-- A request other than a race. -/
inductive Request where
  /-- One point operation. -/
  | operate (op : Operation)
  /-- One point operation for each key of a series. -/
  | series (task : SeriesTask) (series : Series)
  /-- A scan of a key range into a named sink. -/
  | scan (range : KeyRange) (order : ScanOrder) (collector : Collector)
  /-- The number of stored keys. -/
  | size
  /-- The number of entries a bucket has room for. -/
  | capacity
  /-- The number of slots of the directory. -/
  | slotCount
  /-- A row for every slot. -/
  | snapshot
  /-- Every bucket once. -/
  | buckets
  /-- The snapshot as a table. -/
  | table
  /-- Whether the directory is sound under the index's own hasher or another one. -/
  | check (hasher? : Option Hasher)
deriving DecidableEq, Repr

/-- A request takes hold of the whole directory to view it. -/
def Request.isView : Request → Bool
  | .snapshot | .buckets | .table | .check _ => true
  | _ => false

/-- The answer to a request. -/
inductive Reply where
  | outcome (outcome : Outcome)
  | series (count : SeriesCount)
  | collected (collected : Collected)
  | number (n : Nat)
  | snapshot (snapshot : Snapshot)
  | buckets (buckets : List Bucket)
  | table (text : String)
  | verdict (verdict : Except Violation Unit)
  | aborted (abort : Abort)

/-- A result that may have been broken off, and the index after it. -/
structure Settled (α : Type) where
  result : Except Abort α
  index : Index

/-- The reply for a result. -/
def Settled.reply {α : Type} (reply : α → Reply) (settled : Settled α) : Reply :=
  match settled.result with
  | .ok result => reply result
  | .error abort => .aborted abort

namespace Index

/-- Bring an attempt to its end where the directory may be shared. An escalated insertion
that cannot have all of it is broken off, and the index stays as it is. -/
def conclude (occupancy : Occupancy) (hash : HashFunction) (attempt : Logged Attempt)
    (index : Index) : Except Fault (Logged (Settled Outcome)) :=
  match occupancy, attempt.value with
  | .shared, .escalated _ => .ok ⟨⟨.error .deadlock, index⟩, attempt.events⟩
  | _, _ => do
    let ⟨answer, events⟩ ← index.complete hash attempt
    return ⟨⟨.ok answer.outcome, answer.index⟩, events⟩

/-- A point operation where the directory may be shared. -/
def respond (occupancy : Occupancy) (hash : Except HashError HashFunction) (op : Operation)
    (index : Index) : Except Fault (Logged (Settled Outcome)) :=
  match hash with
  | .error error => .ok ⟨⟨.error (.undefined error), index⟩, []⟩
  | .ok hash => do
    let id ← index.directory.idOf (hash op.key)
    let attempt ← index.attempt hash op id
    index.conclude occupancy hash attempt

/-- While nobody shares the directory, a point operation is carried out to its end. -/
theorem respond_vacant (hash : HashFunction) (op : Operation) (index : Index) :
    index.respond .vacant (.ok hash) op =
      (index.perform hash op).map fun ⟨answer, events⟩ =>
        ⟨⟨.ok answer.outcome, answer.index⟩, events⟩ := by
  simp only [respond, perform, conclude]
  cases index.directory.idOf (hash op.key) with
  | error fault => rfl
  | ok id =>
    simp only [bind, Except.bind]
    cases index.attempt hash op id with
    | error fault => rfl
    | ok attempt =>
      simp only
      cases index.complete hash attempt <;> rfl

/-- Carry out a task on the given entries in order, up to one that is broken off. -/
def respondAll (occupancy : Occupancy) (hash : Except HashError HashFunction)
    (task : SeriesTask) :
    List Entry → Index → Except Fault (Logged (Settled SeriesCount))
  | [], index => .ok ⟨⟨.ok ⟨0, []⟩, index⟩, []⟩
  | entry :: rest, index => do
    let ⟨⟨result, index⟩, events⟩ ← index.respond occupancy hash (task.operation entry)
    match result with
    | .error abort => return ⟨⟨.error abort, index⟩, events⟩
    | .ok outcome =>
      let ⟨⟨count, index⟩, more⟩ ← respondAll occupancy hash task rest index
      return ⟨⟨count.map (·.add entry.key outcome), index⟩, events ++ more⟩

end Index

/-- A reply, the index after it, and the events on the way. -/
structure Response where
  reply : Reply
  index : Index
  events : List Event

/-- Answer a request. -/
def Request.run (occupancy : Occupancy) (hash : Except HashError HashFunction) (index : Index)
    (request : Request) : Except Fault Response :=
  if request.isView ∧ occupancy = .shared then .ok ⟨.aborted .deadlock, index, []⟩
  else match request with
  | .operate op => do
    let ⟨settled, events⟩ ← index.respond occupancy hash op
    return ⟨settled.reply .outcome, settled.index, events⟩
  | .series task s => do
    let ⟨settled, events⟩ ← index.respondAll occupancy hash task s.entries
    return ⟨settled.reply .series, settled.index, events⟩
  | .scan range order collector =>
    let (collected, _) := collector.gather fun sink state => index.scan range order sink state
    return ⟨.collected collected, index, []⟩
  | .size => return ⟨.number index.size.toNat, index, []⟩
  | .capacity => return ⟨.number bucketCapacity, index, []⟩
  | .slotCount => return ⟨.number index.directory.slots.size, index, []⟩
  | .snapshot => do
    let view ← index.snapshot
    return ⟨.snapshot view, index, []⟩
  | .buckets => return ⟨.buckets index.directory.buckets, index, []⟩
  | .table => do
    let view ← index.snapshot
    return ⟨.table view.table, index, []⟩
  | .check hasher? => do
    let view ← index.snapshot
    return ⟨.verdict (view.check (hasher?.elim hash Hasher.function)), index, []⟩

end ExtendibleHashing
