import ExtendibleHashing.Proofs.Directory.Sound
import ExtendibleHashing.Snapshot.Check
import Mathlib.Data.List.Nodup

/-!
# Snapshots of sound directories

Every slot of a sound directory refers to a bucket, so a snapshot succeeds and is a row for each
slot with the bucket there. Such a snapshot passes its check: rows and keys agree with the residue
classes of their buckets, and a class of depth `d` meets the slots of a directory of depth `g` in
`2 ^ (g - d)` places. The rows that own their buckets show each bucket once, so the snapshot counts
as many entries as the directory has.
-/

namespace ExtendibleHashing

variable {hash : HashFunction} {dir : Directory} {bucketAt : Nat → Bucket}

/-- The row in which a bucket shows at a slot. -/
def Bucket.row (slot : Nat) (b : Bucket) : SlotRow := ⟨slot, b.origin, b.localDepth, b.keys⟩

/-- A numbering of the buckets that the slots of a directory refer to. -/
def Directory.Assigns (bucketAt : Nat → Bucket) (dir : Directory) : Prop :=
  ∀ slot < 2 ^ dir.depth, ∃ id, dir.Holds id (bucketAt slot) ∧ (bucketAt slot).Covers slot

/-- The snapshot of a directory whose buckets are numbered by their slots. -/
def Directory.view (bucketAt : Nat → Bucket) (dir : Directory) : Snapshot where
  depth := dir.depth
  rows := (List.range (2 ^ dir.depth)).map fun slot => (bucketAt slot).row slot

/-- A loop that succeeds on every element collects the results. -/
theorem mapM_eq_ok_map {α β ε : Type} {f : α → Except ε β} {g : α → β} {l : List α}
    (h : ∀ x ∈ l, f x = .ok (g x)) : l.mapM f = .ok (l.map g) := by
  induction l with
  | nil => rfl
  | cons x rest ih =>
    obtain ⟨hx, hrest⟩ := List.forall_mem_cons.mp h
    rw [List.mapM_cons, hx, ih hrest]
    rfl

/-- Residue classes of depth `d` have `2 ^ (g - d)` members below `2 ^ g`. -/
theorem countP_range_mod_eq {origin d g : Nat} (horigin : origin < 2 ^ d) (hd : d ≤ g) :
    (List.range (2 ^ g)).countP (fun n => n % 2 ^ d == origin) = 2 ^ (g - d) := by
  obtain ⟨k, rfl⟩ := Nat.exists_eq_add_of_le hd
  rw [Nat.add_sub_cancel_left]
  induction k with
  | zero =>
    have hone : (List.range (2 ^ d)).countP (fun n => n % 2 ^ d == origin) =
        (List.range (2 ^ d)).count origin := by
      refine List.countP_congr fun n hn => ?_
      rw [Nat.mod_eq_of_lt (List.mem_range.mp hn)]
    rw [Nat.add_zero, hone, List.count_range, if_pos horigin, Nat.pow_zero]
  | succ k ih =>
    -- the upper half of the range repeats the residues of the lower half
    have hhalf (n : Nat) : (2 ^ (d + k) + n) % 2 ^ d = n % 2 ^ d := by
      rw [Nat.pow_add, Nat.mul_add_mod]
    rw [← Nat.add_assoc, Nat.pow_succ, Nat.mul_two, List.range_add, List.countP_append, List.countP_map]
    simp only [Function.comp_def, hhalf]
    rw [ih (Nat.le_add_right d k), Nat.pow_succ, Nat.mul_two]

namespace Directory.Sound

/-- The slots of a sound directory have buckets to refer to. -/
theorem exists_assigns (hsound : dir.Sound hash) : ∃ bucketAt, dir.Assigns bucketAt := by
  have hbucket (slot : Nat) : ∃ b, slot < 2 ^ dir.depth → ∃ id, dir.Holds id b ∧ b.Covers slot := by
    obtain ⟨id, b, -, hb, hcovers⟩ := hsound.exists_covering slot
    exact ⟨b, fun _ => ⟨id, hb, hcovers⟩⟩
  choose bucketAt hassigns using hbucket
  exact ⟨bucketAt, hassigns⟩

/-- A cell is filled exactly when the slot of the same number refers to it. -/
theorem holds_iff_slot_eq (hsound : dir.Sound hash) (id : Nat) :
    (∃ b, dir.Holds id b) ↔ dir.slots[id]? = some id := by
  constructor
  · rintro ⟨b, hb⟩
    have hself := (hsound.bucket_sound hb).rooted.covers_origin
    rw [hsound.origin_eq hb] at hself
    exact hsound.slot_of_covers hb (hsound.cells_size ▸ hb.lt) hself
  · intro hslot
    obtain ⟨b, hb, -⟩ := hsound.exists_of_slot hslot
    exact ⟨b, hb⟩

/-- The row of a slot shows its bucket. -/
theorem row_eq (hsound : dir.Sound hash) {slot id : Nat} {b : Bucket} (hslot : slot < 2 ^ dir.depth)
    (hb : dir.Holds id b) (hcovers : b.Covers slot) : dir.row slot = .ok (b.row slot) := by
  have hid : dir.idAt slot = .ok id := by
    rw [idAt, hsound.slot_of_covers hb hslot hcovers]
  rw [row, hid]
  simp only [bind, Except.bind, fetch_eq_ok_iff.mpr hb]
  rfl

/-- What a cell contains can be told from the bucket at its slot. -/
theorem cell_eq (hsound : dir.Sound hash) (hassigns : dir.Assigns bucketAt) {slot : Nat}
    (hslot : slot < 2 ^ dir.depth) :
    dir.cells[slot]? = some (if (bucketAt slot).origin = slot then some (bucketAt slot) else none) := by
  obtain ⟨id, hb, hcovers⟩ := hassigns slot hslot
  have horigin := hsound.origin_eq hb
  split
  next howner =>
    rw [howner] at horigin
    exact horigin ▸ hb
  next hother =>
    have hlt : slot < dir.cells.size := hsound.cells_size ▸ hslot
    rw [Array.getElem?_eq_getElem hlt]
    cases hcell : dir.cells[slot] with
    | none => rfl
    | some x =>
      have hx : dir.Holds slot x := (Array.getElem?_eq_getElem hlt).trans (congrArg some hcell)
      have hself := (hsound.bucket_sound hx).rooted.covers_origin
      rw [hsound.origin_eq hx] at hself
      exact absurd (horigin.trans (hsound.id_eq_of_covers hb hx hcovers hself)) hother

/-- The buckets of a directory are those at slots of their own. -/
theorem buckets_eq (hsound : dir.Sound hash) (hassigns : dir.Assigns bucketAt) :
    dir.buckets =
      ((List.range (2 ^ dir.depth)).filter fun slot => slot == (bucketAt slot).origin).map bucketAt := by
  have hcells : dir.cells.toList = (List.range (2 ^ dir.depth)).map fun slot =>
      if (bucketAt slot).origin = slot then some (bucketAt slot) else none := by
    apply List.ext_getElem?
    intro slot
    rw [Array.getElem?_toList, List.getElem?_map]
    by_cases hslot : slot < 2 ^ dir.depth
    · rw [hsound.cell_eq hassigns hslot, List.getElem?_range hslot, Option.map_some]
    · have hcells := hsound.cells_size
      rw [Array.getElem?_eq_none (by omega), List.getElem?_eq_none (by simpa using hslot), Option.map_none]
  rw [buckets, hcells, List.filterMap_map, ← List.filterMap_eq_map, List.filterMap_filter]
  apply List.filterMap_congr
  intro slot _
  by_cases howner : (bucketAt slot).origin = slot
  · simp [howner]
  · simp [howner, Ne.symm howner]

end Directory.Sound

namespace SlotRow

/-- The keys of a row show no violation when they are all in the class of its bucket. -/
theorem keyViolation?_eq_none_iff {row : SlotRow} :
    row.keyViolation? (.ok hash) = none ↔
      ∀ key ∈ row.keys, (hash key).toNat % 2 ^ row.localDepth = row.origin := by
  by_cases hempty : row.keys.isEmpty
  · have hnil := List.isEmpty_iff.mp hempty
    simp [keyViolation?, hashOn, hnil]
  · simp [keyViolation?, hashOn, hempty, HashValue.residue_eq]

/-- A row shows no violation when its bucket is not too deep, and its slot and its keys are in the class. -/
theorem violation?_eq_none_iff {row : SlotRow} {depth : Nat} (hslot : row.slot < 2 ^ hashBits) :
    row.violation? (.ok hash) depth = none ↔ row.localDepth ≤ depth ∧
      row.slot % 2 ^ row.localDepth = row.origin ∧
      ∀ key ∈ row.keys, (hash key).toNat % 2 ^ row.localDepth = row.origin := by
  have hword : (UInt32.ofNat row.slot).toNat = row.slot := UInt32.toNat_ofNat_of_lt' hslot
  rw [violation?, HashValue.residue_eq, hword, ← keyViolation?_eq_none_iff]
  split_ifs with hdeep hplace
  · simp [hdeep]
  · simp [hplace]
  · simp [Nat.le_of_not_lt hdeep, not_not.mp hplace]

/-- The row of a sound bucket at a slot of its class shows no violation. -/
theorem violation?_eq_none {b : Bucket} {slot depth : Nat} (hsound : b.Sound hash)
    (hdepth : b.localDepth ≤ depth) (hslot : slot < 2 ^ hashBits) (hcovers : b.Covers slot) :
    (b.row slot).violation? (.ok hash) depth = none := by
  refine (violation?_eq_none_iff hslot).mpr ⟨hdepth, hcovers, fun key hkey => ?_⟩
  obtain ⟨e, he, rfl⟩ := List.mem_map.mp hkey
  exact hsound.covers_hash e he

end SlotRow

namespace Snapshot

/-- The references to a bucket are the rows with its origin. -/
theorem references_getD (snapshot : Snapshot) {origin : Nat} (h : origin < 2 ^ snapshot.depth) :
    snapshot.references.getD origin 0 = snapshot.rows.countP fun row => row.origin == origin := by
  rw [Array.getD_eq_getD_getElem?, references, tally_getElem?, Array.getElem?_replicate,
    Nat.one_shiftLeft, if_pos h]
  simp

/-- A snapshot passes its check when its rows are as many as they should be and show no violation, and
the buckets that have a row of their own are referred to as often as they should be. -/
theorem check_eq_ok_iff {snapshot : Snapshot} :
    snapshot.check (.ok hash) = .ok () ↔ snapshot.rows.length = 2 ^ snapshot.depth ∧
      (∀ row ∈ snapshot.rows, row.violation? (.ok hash) snapshot.depth = none) ∧
      ∀ row ∈ snapshot.owners, snapshot.references.getD row.origin 0 = 2 ^ (snapshot.depth - row.localDepth) := by
  have hnone : snapshot.check (.ok hash) = .ok () ↔ snapshot.violation? (.ok hash) = none := by
    rw [check]
    cases snapshot.violation? (.ok hash) <;> simp
  have howner (row : SlotRow) : snapshot.referenceViolation? snapshot.references row = none ↔
      snapshot.references.getD row.origin 0 = 2 ^ (snapshot.depth - row.localDepth) := by
    rw [referenceViolation?, Nat.one_shiftLeft]
    simp
  rw [hnone, violation?, Nat.one_shiftLeft]
  split_ifs with hlength
  · simp [hlength]
  · simp [not_not.mp hlength, howner]

/-- The entry count adds up the keys of the owners. -/
theorem entryCount_eq (snapshot : Snapshot) :
    snapshot.entryCount = (snapshot.owners.map fun row => row.keys.length).sum := by
  rw [List.sum, List.foldr_map]
  rfl

variable (hsound : dir.Sound hash) (hassigns : dir.Assigns bucketAt)
include hsound hassigns

/-- A bucket shows in as many rows as its class has slots. -/
theorem references_view {slot : Nat} (hslot : slot < 2 ^ dir.depth) :
    (dir.view bucketAt).references.getD (bucketAt slot).origin 0 =
      2 ^ (dir.depth - (bucketAt slot).localDepth) := by
  obtain ⟨id, hb, hcovers⟩ := hassigns slot hslot
  have hroot := (hsound.bucket_sound hb).rooted
  have hfits := hsound.localDepth_le hb
  have horigin : (bucketAt slot).origin < 2 ^ dir.depth :=
    Nat.lt_of_lt_of_le hroot (Nat.pow_le_pow_right (by decide) hfits)
  rw [references_getD _ horigin, ← countP_range_mod_eq hroot hfits, Directory.view, List.countP_map]
  refine List.countP_congr fun n hn => ?_
  obtain ⟨id', hb', hcovers'⟩ := hassigns n (List.mem_range.mp hn)
  simp only [Function.comp_apply, Bucket.row, beq_iff_eq]
  constructor
  · intro heq
    rw [hsound.origin_eq hb', hsound.origin_eq hb] at heq
    subst heq
    exact hb.unique hb' ▸ hcovers'
  · intro hmod
    rw [hsound.origin_eq hb', hsound.origin_eq hb]
    exact hsound.id_eq_of_covers hb' hb hcovers' hmod

/-- The snapshot of a sound directory passes its check. -/
theorem check_view : (dir.view bucketAt).check (.ok hash) = .ok () := by
  refine check_eq_ok_iff.mpr ⟨?_, fun row hrow => ?_, fun row hrow => ?_⟩
  · simp [Directory.view]
  · obtain ⟨slot, hslot, rfl⟩ := List.mem_map.mp hrow
    rw [List.mem_range] at hslot
    obtain ⟨id, hb, hcovers⟩ := hassigns slot hslot
    have hwidth : slot < 2 ^ hashBits :=
      Nat.lt_of_lt_of_le hslot (Nat.pow_le_pow_right (by decide) hsound.depth_le)
    exact SlotRow.violation?_eq_none (hsound.bucket_sound hb) (hsound.localDepth_le hb) hwidth hcovers
  · obtain ⟨slot, hslot, rfl⟩ := List.mem_map.mp (List.mem_filter.mp hrow).1
    exact references_view hsound hassigns (List.mem_range.mp hslot)

/-- The snapshot of a sound directory counts its entries. -/
theorem entryCount_view : (dir.view bucketAt).entryCount = dir.entries.length := by
  rw [entryCount_eq, owners, Directory.entries, List.length_flatMap, hsound.buckets_eq hassigns, Directory.view,
    List.filter_map, List.map_map, List.map_map]
  congr 2
  funext slot
  exact List.length_map _

end Snapshot

namespace Index

/-- Taking a snapshot of a sound directory succeeds. -/
theorem snapshot_eq_ok {index : Index} (hsound : index.directory.Sound hash)
    (hassigns : index.directory.Assigns bucketAt) :
    index.snapshot = .ok (index.directory.view bucketAt) := by
  have hrows : ∀ slot ∈ List.range (2 ^ index.directory.depth),
      index.directory.row slot = .ok ((bucketAt slot).row slot) := by
    intro slot hslot
    rw [List.mem_range] at hslot
    obtain ⟨id, hb, hcovers⟩ := hassigns slot hslot
    exact hsound.row_eq hslot hb hcovers
  simp only [snapshot, hsound.slots_size, mapM_eq_ok_map hrows]
  rfl

end Index

end ExtendibleHashing
