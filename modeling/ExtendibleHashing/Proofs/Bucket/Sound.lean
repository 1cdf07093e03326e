import ExtendibleHashing.Proofs.Bucket.Entries
import ExtendibleHashing.Proofs.Bucket.ResidueClass

/-!
# Sound buckets

A sound bucket is rooted in its class, holds entries of this class only, and no more of them than it
has room for. Splitting it into sides keeps that, and so does every change of its entries.
-/

namespace ExtendibleHashing.Bucket

variable {hash : HashFunction} {entry : Entry}

/-- A bucket with entries of its own class only, and no more of them than it has room for. -/
structure Sound (hash : HashFunction) (b : Bucket) : Prop where
  rooted : b.Rooted
  length_le : b.entries.length ≤ bucketCapacity
  covers_hash : ∀ e ∈ b.entries, b.Covers (hash e.key).toNat

/-- A bucket with one more entry at the end. -/
def push (entry : Entry) (b : Bucket) : Bucket := { b with entries := b.entries ++ [entry] }

/-- Appending an entry leaves the class of a bucket alone. -/
@[simp] theorem covers_push (b : Bucket) (n : Nat) : (b.push entry).Covers n ↔ b.Covers n := Iff.rfl

/-- Sides of sound buckets are sound. -/
theorem Sound.side {b : Bucket} (hsound : b.Sound hash) (bit : Bool) : (b.side hash bit).Sound hash where
  rooted := hsound.rooted.side hash bit
  length_le := by
    rw [side_entries]
    exact (List.length_filter_le _ _).trans hsound.length_le
  covers_hash e he := by
    rw [side_entries] at he
    obtain ⟨hmem, hbit⟩ := List.mem_filter.mp he
    exact (covers_side_iff hsound.rooted hash bit _).mpr ⟨hsound.covers_hash e hmem, beq_iff_eq.mp hbit⟩

/-- A sound bucket with room stays sound when it takes in an entry of its class. -/
theorem Sound.push {b : Bucket} (hsound : b.Sound hash) (hroom : b.isFull = false)
    (hcovers : b.Covers (hash entry.key).toNat) : (b.push entry).Sound hash where
  rooted := hsound.rooted
  length_le := by
    have hle := hsound.length_le
    have hne : b.entries.length ≠ bucketCapacity := by simpa [isFull] using hroom
    simp only [Bucket.push, List.length_append, List.length_singleton]
    omega
  covers_hash e he := by
    rcases List.mem_append.mp he with hold | hnew
    · exact hsound.covers_hash e hold
    · rw [List.mem_singleton.mp hnew]
      exact hcovers

/-- A sound bucket stays sound when the value of a key is replaced. -/
theorem Sound.update {b c : Bucket} (hsound : b.Sound hash) (hcovers : b.Covers (hash entry.key).toNat)
    (h : b.update? entry = some c) : c.Sound hash := by
  obtain ⟨before, old, after, hentries, -, rfl⟩ := exists_split_of_update? h
  refine ⟨hsound.rooted, ?_, fun e he => ?_⟩
  · have hle := hsound.length_le
    rw [hentries] at hle
    simpa using hle
  · rcases List.mem_append.mp he with hbefore | hrest
    · exact hsound.covers_hash e (hentries ▸ List.mem_append_left _ hbefore)
    · rcases List.mem_cons.mp hrest with rfl | hafter
      · exact hcovers
      · exact hsound.covers_hash e (hentries ▸ List.mem_append_right _ (List.mem_cons_of_mem _ hafter))

/-- A sound bucket stays sound when an entry is taken out. -/
theorem Sound.remove {b c : Bucket} (hsound : b.Sound hash) {key : Bytes} {removed : Entry}
    (h : b.remove? key = some (removed, c)) : c.Sound hash := by
  obtain ⟨-, rest, hperm, rfl⟩ := exists_perm_of_remove? h
  refine ⟨hsound.rooted, ?_, fun e he => ?_⟩
  · have hle := hsound.length_le
    rw [hperm.length_eq] at hle
    exact (Nat.le_succ _).trans hle
  · exact hsound.covers_hash e (hperm.mem_iff.mpr (List.mem_cons_of_mem _ he))

/-- An update leaves the class of a bucket alone. -/
theorem class_eq_of_update? {b c : Bucket} (h : b.update? entry = some c) :
    c.origin = b.origin ∧ c.localDepth = b.localDepth := by
  obtain ⟨-, -, -, -, -, rfl⟩ := exists_split_of_update? h
  exact ⟨rfl, rfl⟩

/-- A removal leaves the class of a bucket alone. -/
theorem class_eq_of_remove? {b c : Bucket} {key : Bytes} {removed : Entry}
    (h : b.remove? key = some (removed, c)) : c.origin = b.origin ∧ c.localDepth = b.localDepth := by
  obtain ⟨-, -, -, rfl⟩ := exists_perm_of_remove? h
  exact ⟨rfl, rfl⟩

end ExtendibleHashing.Bucket
