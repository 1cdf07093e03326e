import ExtendibleHashing.Hash.Hasher
import ExtendibleHashing.Snapshot.Basic
import ExtendibleHashing.Text.Quoted
import ExtendibleHashing.Text.Utf8

/-!
# Checking snapshots

The structure that every directory keeps can be read off a snapshot: there are `2 ^ depth`
rows, no bucket is deeper than the directory, every slot and every key agrees with the
origin of its bucket on the low `localDepth` bits, and a bucket of local depth `d` shows in
`2 ^ (depth - d)` rows. `check` finds the first violation, row by row and with the number of
references last.
-/

namespace ExtendibleHashing

/-- How a snapshot violates the structure of a directory. -/
inductive Violation where
  /-- The number of rows is not the one the depth asks for. -/
  | slotCount (slots depth : Nat)
  /-- A bucket is deeper than the directory. -/
  | tooDeep (slot localDepth depth : Nat)
  /-- A slot refers to a bucket of another residue class. -/
  | misplaced (slot origin localDepth : Nat)
  /-- A key is stored in a bucket of another residue class. -/
  | strayKey (key : Bytes) (origin : Nat)
  /-- A bucket shows in too few or too many rows. -/
  | referenceCount (origin localDepth found expected : Nat)
  /-- A key has no hash. -/
  | unhashable (error : HashError)
deriving DecidableEq, Repr

/-- The wording of a violation. -/
def Violation.message : Violation → String
  | .slotCount slots depth =>
      let expected : Nat := 1 <<< depth
      s!"{slots} slots for global depth {depth}, expected {expected}"
  | .tooDeep slot localDepth depth =>
      s!"slot {slot}: local depth {localDepth} exceeds global depth {depth}"
  | .misplaced slot origin localDepth =>
      s!"slot {slot} references bucket {origin} of local depth {localDepth}"
  | .strayKey key origin =>
      let text := quoted (Utf8.decode key)
      s!"key {text} does not hash into bucket {origin}"
  | .referenceCount origin localDepth found expected =>
      s!"bucket {origin} of local depth {localDepth} is referenced by {found} slots, " ++
        s!"expected {expected}"
  | .unhashable error => error.message

/-- The first key of a row that does not belong in its bucket. -/
def SlotRow.keyViolation? (hash : Except HashError HashFunction) (row : SlotRow) :
    Option Violation :=
  match hashOn row.keys hash with
  | .ok hash =>
    (row.keys.find? fun key => (hash key).residue row.localDepth != row.origin).map
      fun key => .strayKey key row.origin
  | .error error => some (.unhashable error)

/-- The first violation that shows in a single row. Slots count as hash values here, by their
low 32 bits. -/
def SlotRow.violation? (hash : Except HashError HashFunction) (depth : Nat) (row : SlotRow) :
    Option Violation :=
  if depth < row.localDepth then some (.tooDeep row.slot row.localDepth depth)
  else if HashValue.residue row.localDepth (UInt32.ofNat row.slot) ≠ row.origin then
    some (.misplaced row.slot row.origin row.localDepth)
  else row.keyViolation? hash

namespace Snapshot

/-- Count one more reference to the bucket of each row. -/
def tally (counts : Array Nat) (rows : List SlotRow) : Array Nat :=
  rows.foldl (fun counts row => counts.modify row.origin (· + 1)) counts

/-- How many rows show each bucket with an origin below `2 ^ depth`. -/
def references (snapshot : Snapshot) : Array Nat :=
  tally (Array.replicate (1 <<< snapshot.depth) 0) snapshot.rows

/-- A tally adds to each count in range the number of rows with that origin. -/
theorem tally_getElem? (counts : Array Nat) (rows : List SlotRow) (origin : Nat) :
    (tally counts rows)[origin]? =
      counts[origin]?.map (· + rows.countP fun row => row.origin == origin) := by
  induction rows generalizing counts with
  | nil => simp [tally]
  | cons row rest ih =>
    rw [tally, List.foldl_cons, ← tally, ih, Array.getElem?_modify, List.countP_cons]
    by_cases horigin : row.origin = origin
    · simp [horigin, Option.map_map, Function.comp_def, Nat.add_assoc, Nat.add_comm]
    · simp [horigin]

/-- The bucket that a row owns does not show as often as its depth asks for. -/
def referenceViolation? (snapshot : Snapshot) (references : Array Nat) (row : SlotRow) :
    Option Violation :=
  let found := references.getD row.origin 0
  let expected := 1 <<< (snapshot.depth - row.localDepth)
  if found = expected then none
  else some (.referenceCount row.origin row.localDepth found expected)

/-- The first violation of the structure of a directory. -/
def violation? (hash : Except HashError HashFunction) (snapshot : Snapshot) : Option Violation :=
  if snapshot.rows.length ≠ 1 <<< snapshot.depth then
    some (.slotCount snapshot.rows.length snapshot.depth)
  else
    let references := snapshot.references
    (snapshot.rows.findSome? fun row => row.violation? hash snapshot.depth) <|>
      snapshot.owners.findSome? fun row => snapshot.referenceViolation? references row

/-- Whether a snapshot has the structure of a directory under a hash function. -/
def check (hash : Except HashError HashFunction) (snapshot : Snapshot) : Except Violation Unit :=
  match snapshot.violation? hash with
  | some violation => .error violation
  | none => .ok ()

end Snapshot

end ExtendibleHashing
