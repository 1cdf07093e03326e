import ExtendibleHashing.Snapshot.Basic
import ExtendibleHashing.Text.Column
import ExtendibleHashing.Text.Utf8

/-!
# Snapshots as tables

A snapshot is shown as a line with the depth of the directory, a heading, and a line per
slot.
-/

namespace ExtendibleHashing

/-- One line of the table: four columns aligned to the right, then the keys. -/
def tableLine (slot bucket depth entries keys : String) : String :=
  " ".intercalate [padStart 6 ' ' slot, padStart 8 ' ' bucket, padStart 6 ' ' depth,
    padStart 8 ' ' entries] ++ "  " ++ keys ++ "\n"

/-- The line of a row, with the keys as text. -/
def SlotRow.line (row : SlotRow) : String :=
  tableLine row.slot.repr row.origin.repr row.localDepth.repr row.entryCount.repr
    (" ".intercalate (row.keys.map Utf8.decode))

/-- The table of a snapshot. -/
def Snapshot.table (snapshot : Snapshot) : String :=
  "global depth " ++ snapshot.depth.repr ++ "\n" ++
    tableLine "slot" "bucket" "depth" "entries" "keys" ++
    String.join (snapshot.rows.map SlotRow.line)

end ExtendibleHashing
