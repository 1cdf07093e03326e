import ExtendibleHashing.Directory
import Mathlib.Data.List.Perm.Basic

/-!
# What a directory holds

The buckets of a directory are those in its cells, and its entries are theirs. Seen this way each
change of a directory is a change of one cell: `without` takes a cell out, and storing or
publishing a bucket adds its entries to what is left. Doubling adds no bucket. Orders are not kept
track of, so the statements on entries are permutations.
-/

namespace ExtendibleHashing.Directory

/-- A cell of the directory holds a bucket. -/
def Holds (id : Nat) (b : Bucket) (dir : Directory) : Prop := dir.cells[id]? = some (some b)

/-- The entries of all buckets. -/
def entries (dir : Directory) : List Entry := dir.buckets.flatMap (·.entries)

/-- The keys of all buckets. -/
def keys (dir : Directory) : List Bytes := dir.entries.map (·.key)

/-- The directory with one cell emptied. -/
def without (id : Nat) (dir : Directory) : Directory :=
  { dir with cells := dir.cells.setIfInBounds id none }

/-- A cell holds at most one bucket. -/
theorem Holds.unique {id : Nat} {b b' : Bucket} {dir : Directory} (h : dir.Holds id b)
    (h' : dir.Holds id b') : b = b' :=
  Option.some.inj (Option.some.inj (h.symm.trans h'))

/-- Only cells of the directory hold buckets. -/
theorem Holds.lt {id : Nat} {b : Bucket} {dir : Directory} (h : dir.Holds id b) : id < dir.cells.size :=
  (Array.getElem?_eq_some_iff.mp h).1

/-- The buckets of a directory are those that some cell holds. -/
theorem mem_buckets_iff {b : Bucket} {dir : Directory} : b ∈ dir.buckets ↔ ∃ id, dir.Holds id b := by
  rw [buckets, List.mem_filterMap]
  simp only [id_eq, exists_eq_right, Array.mem_toList_iff, Array.mem_iff_getElem?, Holds]

/-- An entry of a directory is an entry of a bucket in some cell. -/
theorem mem_entries_iff {e : Entry} {dir : Directory} :
    e ∈ dir.entries ↔ ∃ id b, dir.Holds id b ∧ e ∈ b.entries := by
  simp only [entries, List.mem_flatMap, mem_buckets_iff]
  exact ⟨fun ⟨b, ⟨id, hb⟩, he⟩ => ⟨id, b, hb, he⟩, fun ⟨id, b, hb, he⟩ => ⟨b, ⟨id, hb⟩, he⟩⟩

/-- Entries in another order have their keys in another order. -/
theorem keys_perm {dir : Directory} {entries : List Entry} (h : dir.entries.Perm entries) :
    dir.keys.Perm (entries.map (·.key)) :=
  h.map _

/-- The cell of an identity can be fetched when it holds a bucket. -/
theorem fetch_eq_ok_iff {id : Nat} {b : Bucket} {dir : Directory} :
    dir.fetch id = .ok b ↔ dir.Holds id b := by
  unfold fetch Holds
  split <;> simp_all

/-- Emptying a cell leaves the buckets of the others. -/
theorem holds_without_iff {id i : Nat} {b : Bucket} {dir : Directory} :
    (dir.without id).Holds i b ↔ i ≠ id ∧ dir.Holds i b := by
  unfold without Holds
  rw [Array.getElem?_setIfInBounds]
  split
  next h => split <;> simp [h]
  next h => simp [Ne.symm h]

/-- Storing a bucket changes its cell only. -/
theorem holds_store_iff {id i : Nat} {b c : Bucket} {dir : Directory} (h : id < dir.cells.size) :
    (dir.store ⟨id, b⟩).Holds i c ↔ (i = id ∧ c = b) ∨ (i ≠ id ∧ dir.Holds i c) := by
  unfold store Holds
  rw [Array.getElem?_setIfInBounds]
  split
  next hi =>
    subst hi
    simp [h, eq_comm]
  next hi => simp [Ne.symm hi]

/-- Filling a cell adds one element to what the other cells hold. -/
theorem filterMap_set_perm {α : Type} (cells : List (Option α)) (i : Nat) (x : α) (h : i < cells.length) :
    ((cells.set i (some x)).filterMap id).Perm (x :: (cells.set i none).filterMap id) := by
  induction cells generalizing i with
  | nil => simp at h
  | cons cell cells ih =>
    cases i with
    | zero => simp
    | succ i =>
      have hrest := ih i (by simpa using h)
      cases cell with
      | none => simpa using hrest
      | some y => simpa using (hrest.cons y).trans (.swap x y _)

/-- A stored bucket adds its entries to those of the other cells. -/
theorem entries_store_perm {id : Nat} {dir : Directory} (h : id < dir.cells.size) (b : Bucket) :
    (dir.store ⟨id, b⟩).entries.Perm (b.entries ++ (dir.without id).entries) := by
  have hbuckets := filterMap_set_perm dir.cells.toList id b (by simpa using h)
  rw [entries, buckets, store, entries, buckets, without, ← List.flatMap_cons]
  simpa using hbuckets.flatMap_right _

/-- Writing what a cell contains already changes nothing. -/
theorem setIfInBounds_eq_self {α : Type} {cells : Array α} {i : Nat} {x : α} (h : cells[i]? = some x) :
    cells.setIfInBounds i x = cells := by
  obtain ⟨hlt, rfl⟩ := Array.getElem?_eq_some_iff.mp h
  rw [Array.setIfInBounds, dif_pos hlt, Array.set_getElem_self]

/-- Storing the bucket that a cell holds already changes nothing. -/
theorem Holds.store_eq {id : Nat} {b : Bucket} {dir : Directory} (h : dir.Holds id b) :
    dir.store ⟨id, b⟩ = dir := by
  rw [store, setIfInBounds_eq_self h]

/-- The entries of one bucket can be told from those of the other cells. -/
theorem Holds.entries_perm {id : Nat} {b : Bucket} {dir : Directory} (h : dir.Holds id b) :
    dir.entries.Perm (b.entries ++ (dir.without id).entries) := by
  simpa only [h.store_eq] using entries_store_perm h.lt b

/-- Emptying a cell that is empty changes nothing. -/
theorem without_eq_self {id : Nat} {dir : Directory} (h : dir.cells[id]? = some none) :
    dir.without id = dir := by
  rw [without, setIfInBounds_eq_self h]

/-- Doubling leaves the buckets in their cells. -/
theorem holds_double_iff {id : Nat} {b : Bucket} {dir : Directory} :
    dir.double.Holds id b ↔ dir.Holds id b := by
  unfold double Holds
  rw [Array.getElem?_append]
  split
  next => rfl
  next h =>
    rw [Array.getElem?_replicate, Array.getElem?_eq_none (Nat.le_of_not_lt h)]
    split <;> simp

/-- Doubling adds no bucket. -/
theorem buckets_double (dir : Directory) : dir.double.buckets = dir.buckets := by
  have hnone : (List.replicate dir.slots.size (none : Option Bucket)).filterMap id = [] :=
    List.filterMap_eq_nil_iff.mpr fun _ h => List.eq_of_mem_replicate h
  rw [buckets, double, Array.toList_append, List.filterMap_append, Array.toList_replicate, hnone,
    List.append_nil, buckets]

end ExtendibleHashing.Directory
