import ExtendibleHashing.Index.Basic
import ExtendibleHashing.Sweep

/-!
# Scans of an index

A scan visits the cells of the directory by ascending identity, collects what lies in range
from the buckets it finds there, and delivers it in key order.
-/

namespace ExtendibleHashing

/-- Collect the bucket in a cell; an empty cell has nothing to collect. -/
def Directory.visit (sweep : Sweep) (cell : Nat) (dir : Directory) : Sweep :=
  match dir.cells[cell]? with
  | some (some bucket) => sweep.add bucket
  | _ => sweep

/-- Collect the buckets of all cells, one cell after the other. -/
def Directory.sweep (range : KeyRange) (order : ScanOrder) (dir : Directory) : Sweep :=
  (List.range dir.cells.size).foldl (fun sweep cell => dir.visit sweep cell) (.empty range order)

/-- Deliver the entries with keys in range to a sink, in key order, until it declines. -/
def Index.scan {σ : Type} (range : KeyRange) (order : ScanOrder) (sink : Sink σ) (state : σ)
    (index : Index) : σ × Nat :=
  (index.directory.sweep range order).deliver sink state

end ExtendibleHashing
