import ExtendibleHashing.Proofs.Directory.Publication

/-!
# Changes confined to one bucket

The shape of a directory is what is left of it when entries do not count: its slots, and the class of
the bucket in each cell. Replacing a bucket by one with the same class keeps the shape. A split does
not, but it is confined to the bucket that is split: only slots of its class are redirected, and all new
buckets are in there, even when the directory had to be deepened first. In both cases the directory is
refined, so that no bucket is lost and none gets a larger class.
-/

namespace ExtendibleHashing.Directory

open Bucket (parts)

/-- The slots of a directory, and depth and origin of the bucket in each cell. -/
structure Shape where
  depth : Nat
  slots : Array Nat
  classes : Array (Option (Nat × Nat))
deriving DecidableEq, Repr

/-- The directory without regard to entries. -/
def shape (dir : Directory) : Shape :=
  ⟨dir.depth, dir.slots, dir.cells.map fun cell => cell.map fun b => (b.localDepth, b.origin)⟩

/-- A directory keeps its shape when a bucket is replaced by one with the same class. -/
theorem Holds.shape_store {dir : Directory} {id : Nat} {b c : Bucket} (hb : dir.Holds id b)
    (hclass : c.origin = b.origin ∧ c.localDepth = b.localDepth) : (dir.store ⟨id, c⟩).shape = dir.shape := by
  have hcell : (dir.cells.map fun cell => cell.map fun b => (b.localDepth, b.origin))[id]? =
      some (some (c.localDepth, c.origin)) := by
    rw [Array.getElem?_map, hb, hclass.1, hclass.2]
    rfl
  rw [shape, store, Array.map_setIfInBounds, Option.map_some, setIfInBounds_eq_self hcell, shape]

/-- A later directory that is no less deep and still has every bucket, perhaps with a smaller class. -/
structure Refines (dir later : Directory) : Prop where
  depth_le : dir.depth ≤ later.depth
  retained : ∀ {i c}, dir.Holds i c →
    ∃ c', later.Holds i c' ∧ c'.origin = c.origin ∧ c.localDepth ≤ c'.localDepth

/-- A directory refines itself. -/
theorem Refines.refl (dir : Directory) : dir.Refines dir :=
  ⟨Nat.le_refl _, fun hc => ⟨_, hc, rfl, Nat.le_refl _⟩⟩

/-- What is refined twice is refined. -/
theorem Refines.trans {dir₁ dir₂ dir₃ : Directory} (h : dir₁.Refines dir₂) (h' : dir₂.Refines dir₃) :
    dir₁.Refines dir₃ := by
  refine ⟨h.depth_le.trans h'.depth_le, fun hc => ?_⟩
  obtain ⟨c', hc', horigin, hdepth⟩ := h.retained hc
  obtain ⟨c'', hc'', horigin', hdepth'⟩ := h'.retained hc'
  exact ⟨c'', hc'', horigin'.trans horigin, hdepth.trans hdepth'⟩

/-- A later directory that differs only by what became of one bucket. -/
structure Confined (id : Nat) (b : Bucket) (dir later : Directory) : Prop extends Refines dir later where
  /-- The other buckets stay as they are. -/
  others_kept : ∀ {i c}, i ≠ id → dir.Holds i c → later.Holds i c
  /-- Slots outside the class of the bucket refer to what they did, and if they are new, to what the
  slots they repeat did. -/
  slots_kept : ∀ {slot}, slot < 2 ^ later.depth → ¬ b.Covers slot →
    later.slots[slot]? = dir.slots[slot % 2 ^ dir.depth]?
  /-- New buckets are deeper than the bucket was, and have their origins in its class. -/
  created_within : ∀ {i c}, later.Holds i c → (∀ c', ¬ dir.Holds i c') →
    c.origin = i ∧ b.Covers c.origin ∧ b.localDepth < c.localDepth

variable {hash : HashFunction} {entry : Entry} {dir later : Directory} {id : Nat} {b c : Bucket}

/-- Replacing a bucket by one with the same class is confined to it. -/
theorem Holds.confined_store (hb : dir.Holds id b)
    (hclass : c.origin = b.origin ∧ c.localDepth = b.localDepth) : dir.Confined id b (dir.store ⟨id, c⟩) := by
  have hothers {i : Nat} {x : Bucket} (hi : i ≠ id) (hx : dir.Holds i x) :
      (dir.store ⟨id, c⟩).Holds i x := (holds_store_iff hb.lt).mpr (.inr ⟨hi, hx⟩)
  refine ⟨⟨Nat.le_refl _, fun {i x} hx => ?_⟩, hothers, fun {slot} hslot _ => ?_, fun {i x} hx hnew => ?_⟩
  · by_cases hi : i = id
    · subst hi
      obtain rfl := hb.unique hx
      exact ⟨c, (holds_store_iff hb.lt).mpr (.inl ⟨rfl, rfl⟩), hclass.1, hclass.2.ge⟩
    · exact ⟨x, hothers hi hx, rfl, Nat.le_refl _⟩
  · change slot < 2 ^ dir.depth at hslot
    rw [Nat.mod_eq_of_lt hslot]
    rfl
  · rcases (holds_store_iff hb.lt).mp hx with ⟨rfl, -⟩ | ⟨-, hx⟩
    · exact absurd hb (hnew b)
    · exact absurd hx (hnew x)

/-- A split is confined to the bucket that comes apart, however far the directory is deepened for it. -/
theorem SplitWithin.confined {depth : Nat} {outcome : Bucket × List Bucket} (hsound : dir.Sound hash)
    (h : SplitWithin hash entry (dir.deepen depth) id b outcome)
    (hpub : Publication outcome.2 ((dir.deepen depth).store ⟨id, outcome.1⟩) later) :
    dir.Confined id b later := by
  have hb : dir.Holds id b := holds_deepen_iff.mp h.holds
  have hothers {i : Nat} {x : Bucket} (hi : i ≠ id) (hx : dir.Holds i x) : later.Holds i x :=
    (h.holds_iff hpub).mpr (.inr ⟨hi, holds_deepen_iff.mpr hx⟩)
  refine ⟨⟨?_, fun {i x} hx => ?_⟩, hothers, fun {slot} hslot hcovers => ?_, fun {i x} hx hnew => ?_⟩
  · rw [hpub.depth_eq, store, depth_deepen]
    exact Nat.le_max_left _ _
  · by_cases hi : i = id
    · subst hi
      obtain rfl := hb.unique hx
      have hkept : outcome.1 ∈ parts outcome := List.mem_cons_self
      exact ⟨outcome.1, (h.holds_iff hpub).mpr (.inl ⟨hkept, h.origin_eq⟩), h.splits.origin_eq,
        (h.splits.localDepth_bounds _ hkept).1.le⟩
    · exact ⟨x, hothers hi hx, rfl, Nat.le_refl _⟩
  · obtain ⟨i, x, hid, hx, hslotCovers⟩ := (h.sound_of_publication hpub).exists_covering slot
    rw [Nat.mod_eq_of_lt hslot] at hid
    rcases (h.holds_iff hpub).mp hx with ⟨hpart, -⟩ | ⟨-, hx⟩
    · exact absurd ((h.splits.covers_iff h.rooted slot).mpr ⟨x, hpart, hslotCovers⟩) hcovers
    · rw [hid, hsound.slot_mod_eq (holds_deepen_iff.mp hx) hslotCovers]
  · rcases (h.holds_iff hpub).mp hx with ⟨hpart, hi⟩ | ⟨-, hx⟩
    · exact ⟨hi, h.covers_origin hpart, (h.splits.localDepth_bounds x hpart).1⟩
    · exact absurd (holds_deepen_iff.mp hx) (hnew x)

end ExtendibleHashing.Directory
