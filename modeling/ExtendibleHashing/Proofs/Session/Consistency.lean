import ExtendibleHashing.Proofs.Session.Path

/-!
# The representation of reachable indexes

`Consistent` spells out the structure of an index cell by cell and slot by slot, in the terms of the
directory itself. It is what a sound index looks like from outside, so every index that sessions
arrive at has it, and the check of its snapshot finds no violation.
-/

namespace ExtendibleHashing

variable {hash : HashFunction} {index : Index}

/-- The representation of an index is as a directory of residue classes should be. -/
structure Index.Consistent (hash : HashFunction) (index : Index) : Prop where
  depth_le : index.directory.depth ≤ hashBits
  slots_size : index.directory.slots.size = 2 ^ index.directory.depth
  cells_size : index.directory.cells.size = 2 ^ index.directory.depth
  /-- The cell of a bucket is that of its origin. -/
  origin_eq : ∀ {id b}, index.directory.Holds id b → b.origin = id
  origin_lt : ∀ {id b}, index.directory.Holds id b → b.origin < 2 ^ b.localDepth
  localDepth_le : ∀ {id b}, index.directory.Holds id b →
    b.localDepth ≤ index.directory.depth
  /-- The slots of a bucket are those congruent to its origin. -/
  slot_iff : ∀ {id b}, index.directory.Holds id b → ∀ slot < 2 ^ index.directory.depth,
    index.directory.slots[slot]? = some id ↔ slot % 2 ^ b.localDepth = b.origin
  /-- The filled cells are those of slots that refer to a cell of their own. -/
  filled_iff : ∀ id, (∃ b, index.directory.Holds id b) ↔
    index.directory.slots[id]? = some id
  /-- Every slot refers to a filled cell. -/
  published : ∀ slot < 2 ^ index.directory.depth, ∃ id b,
    index.directory.slots[slot]? = some id ∧ index.directory.Holds id b
  length_le : ∀ {id b}, index.directory.Holds id b → b.entries.length ≤ bucketCapacity
  residue_eq : ∀ {id b}, index.directory.Holds id b →
    ∀ e ∈ b.entries, (hash e.key).toNat % 2 ^ b.localDepth = b.origin
  /-- No key occurs twice in the whole index. -/
  keys_nodup : (index.directory.buckets.flatMap Bucket.keys).Nodup
  /-- The directory is no deeper than its deepest bucket. -/
  deepest : ∃ id b, index.directory.Holds id b ∧ b.localDepth = index.directory.depth
  /-- The snapshot passes its check and counts the stored keys. -/
  snapshot_ok : ∃ snapshot, index.snapshot = .ok snapshot ∧ snapshot.check (.ok hash) = .ok () ∧
    snapshot.entryCount = index.size.toNat

/-- The keys of a directory are those of its buckets. -/
theorem Directory.keys_eq (dir : Directory) : dir.keys = dir.buckets.flatMap Bucket.keys := by
  rw [keys, entries, List.map_flatMap]
  rfl

/-- Every index that a session arrives at has a consistent representation. -/
theorem consistent_of_reachable (h : Reachable hash index) : index.Consistent hash := by
  have hsound := h.sound
  have hdirectory := hsound.directory
  obtain ⟨bucketAt, hassigns⟩ := hdirectory.exists_assigns
  refine
    { depth_le := hdirectory.depth_le
      slots_size := hdirectory.slots_size
      cells_size := hdirectory.cells_size
      origin_eq := hdirectory.origin_eq
      origin_lt := fun hb => (hdirectory.bucket_sound hb).rooted
      localDepth_le := hdirectory.localDepth_le
      slot_iff := fun hb slot hslot => (hdirectory.slot_eq_iff hb).trans (and_iff_right hslot)
      filled_iff := hdirectory.holds_iff_slot_eq
      published := fun slot hslot => ?_
      length_le := fun hb => (hdirectory.bucket_sound hb).length_le
      residue_eq := fun hb => (hdirectory.bucket_sound hb).covers_hash
      keys_nodup := index.directory.keys_eq ▸ hsound.keys_nodup
      deepest := hsound.tight
      snapshot_ok := ⟨_, Index.snapshot_eq_ok hdirectory hassigns, ?_, ?_⟩ }
  · obtain ⟨id, b, hid, hb, -⟩ := hdirectory.exists_covering slot
    rw [Nat.mod_eq_of_lt hslot] at hid
    exact ⟨id, b, hid, hb⟩
  · exact Snapshot.check_view hdirectory hassigns
  · exact (Snapshot.entryCount_view hdirectory hassigns).trans hsound.size_eq.symm

/-- The index after the first doubling of its directory, where keys are hashed to their first byte. -/
theorem consistent_after_doubling :
    ∃ index, Reachable (fun key => (key.headD 0).toUInt32) index ∧
      index = ⟨⟨1, #[0, 1], #[some ⟨[⟨[2], []⟩, ⟨[4], []⟩, ⟨[6], []⟩], 1, 0⟩,
        some ⟨[⟨[1], []⟩, ⟨[3], []⟩], 1, 1⟩]⟩, 5⟩ ∧
      index.Consistent fun key => (key.headD 0).toUInt32 := by
  have hfull : Reachable (fun key => (key.headD 0).toUInt32)
      (.single [⟨[1], []⟩, ⟨[2], []⟩, ⟨[3], []⟩, ⟨[4], []⟩]) :=
    reachable_single _ (by decide) (by decide)
  have hinsert : Index.perform (fun key => (key.headD 0).toUInt32) (.insert ⟨[6], []⟩)
      (.single [⟨[1], []⟩, ⟨[2], []⟩, ⟨[3], []⟩, ⟨[4], []⟩]) = .ok ⟨⟨.accepted, _⟩, _⟩ := rfl
  have hreachable := hfull.transition (Index.transition_of_perform hfull.sound.directory hinsert)
  exact ⟨_, hreachable, rfl, consistent_of_reachable hreachable⟩

end ExtendibleHashing
