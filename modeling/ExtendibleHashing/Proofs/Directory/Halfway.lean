import ExtendibleHashing.Proofs.Directory.Publication

/-!
# Directories halfway through a split

A split puts its bucket back first and publishes the new buckets one after the other. Others use the
directory all the while, so every state on the way matters. A new bucket may have been split again before
it is published, but it is published with the class it has in the end. So a slot refers to the bucket that
was split, whose holder does not let go of it yet, until it refers for good to the part whose class it is in.
-/

namespace ExtendibleHashing.Directory

open Bucket (parts)

/-- A bucket routes the hash values that address a slot of its class. -/
theorem routes_of_covers_slotOf {dir : Directory} {b : Bucket} (hdepth : b.localDepth ≤ dir.depth)
    {value : HashValue} (h : b.Covers (dir.slotOf value)) : b.routes value = true := by
  rw [slotOf, HashValue.residue_eq, Bucket.covers_mod hdepth] at h
  exact (Bucket.routes_iff_covers value b).mpr h

/-- In a sound directory a slot refers to a bucket that routes every hash value addressing it. -/
theorem Sound.routes_of_slot {hash : HashFunction} {dir : Directory} (hsound : dir.Sound hash) {slot id : Nat}
    (h : dir.slots[slot]? = some id) :
    ∃ b, dir.Holds id b ∧ ∀ value, dir.slotOf value = slot → b.routes value = true := by
  obtain ⟨b, hb, hcovers⟩ := hsound.exists_of_slot h
  refine ⟨b, hb, ?_⟩
  rintro value rfl
  exact routes_of_covers_slotOf (hsound.localDepth_le hb) hcovers

/-- Publishing buckets is publishing some of them and then the others. -/
theorem publishAll_append {dir final : Directory} {published pending : List Bucket} :
    dir.publishAll (published ++ pending) = .ok final ↔
      ∃ halfway, dir.publishAll published = .ok halfway ∧ halfway.publishAll pending = .ok final := by
  rw [publishAll, List.foldlM_append]
  change (publishAll published dir >>= publishAll pending) = _ ↔ _
  cases hfirst : publishAll published dir with
  | error fault => simp [bind, Except.bind]
  | ok halfway => simp [bind, Except.bind]

/-- The bucket `b` of a directory was put back as `kept`, and of the buckets that were split off it some are
published. All of them are in the `final` directory. -/
structure HalfPublished (dir : Directory) (id : Nat) (b kept : Bucket) (published : List Bucket)
    (halfway final : Directory) : Prop where
  depth_eq : halfway.depth = dir.depth
  slots_size : halfway.slots.size = 2 ^ halfway.depth
  /-- Every slot refers to a bucket. -/
  exists_of_slot : ∀ slot < 2 ^ halfway.depth, ∃ i c, halfway.slots[slot]? = some i ∧ halfway.Holds i c
  /-- Slots outside the class of the bucket refer to what they did. -/
  slots_kept : ∀ {slot}, ¬ b.Covers slot → halfway.slots[slot]? = dir.slots[slot]?
  /-- The other buckets are what they were. -/
  others_kept : ∀ {i c}, i ≠ id → dir.Holds i c → halfway.Holds i c
  /-- The bucket itself does not change any more. -/
  kept_settled : halfway.Holds id kept ∧ final.Holds id kept
  /-- Neither do those published. -/
  settled : ∀ c ∈ published, halfway.Holds c.origin c ∧ final.Holds c.origin c
  /-- A slot in the class of a published bucket refers to it. -/
  slots_of_published : ∀ c ∈ published, ∀ slot < 2 ^ halfway.depth, c.Covers slot →
    halfway.slots[slot]? = some c.origin
  /-- Other slots in the class of the bucket refer to it still, so nothing is misrouted by a new one. -/
  slots_within : ∀ slot < 2 ^ halfway.depth, b.Covers slot →
    halfway.slots[slot]? = some id ∨ ∃ c ∈ published, halfway.slots[slot]? = some c.origin ∧
      ∀ value, halfway.slotOf value = slot → c.routes value = true

variable {hash : HashFunction} {entry : Entry} {dir halfway final : Directory} {id : Nat} {b : Bucket}
  {outcome : Bucket × List Bucket} {published pending : List Bucket}

/-- Halfway the cells hold the parts that are published, what became of the bucket itself, and what they held
before elsewhere. -/
theorem SplitWithin.holds_halfway_iff (h : SplitWithin hash entry dir id b outcome)
    (hhalf : Publication published (dir.store ⟨id, outcome.1⟩) halfway) {i : Nat} {c : Bucket} :
    halfway.Holds i c ↔ (c ∈ published ∧ c.origin = i) ∨ (i = id ∧ c = outcome.1) ∨ (i ≠ id ∧ dir.Holds i c) := by
  rw [hhalf.holds_iff, holds_store_iff h.holds.lt]

/-- A slot in the class of the bucket is in the class of a published part and refers to it, or no publication
has reached it. -/
theorem SplitWithin.slots_within (h : SplitWithin hash entry dir id b outcome) (hsub : published ⊆ outcome.2)
    (hhalf : Publication published (dir.store ⟨id, outcome.1⟩) halfway) {slot : Nat} (hslot : slot < 2 ^ dir.depth)
    (hcovers : b.Covers slot) :
    halfway.slots[slot]? = some id ∨ ∃ c ∈ published, c.Covers slot ∧ halfway.slots[slot]? = some c.origin := by
  by_cases hreached : ∃ c ∈ published, c.Covers slot
  · obtain ⟨c, hc, hcslot⟩ := hreached
    exact .inr ⟨c, hc, hcslot, h.slots_of_published hsub hhalf hc hslot hcslot⟩
  · refine .inl ((h.slots_of_unpublished hsub hhalf fun c hc hcslot => hreached ⟨c, hc, hcslot⟩).trans ?_)
    exact h.sound.slot_of_covers h.holds hslot hcovers

/-- Halfway every slot refers to a bucket. -/
theorem SplitWithin.exists_of_slot_halfway (h : SplitWithin hash entry dir id b outcome) (hsub : published ⊆ outcome.2)
    (hhalf : Publication published (dir.store ⟨id, outcome.1⟩) halfway) {slot : Nat} (hslot : slot < 2 ^ dir.depth) :
    ∃ i c, halfway.slots[slot]? = some i ∧ halfway.Holds i c := by
  by_cases hcovers : b.Covers slot
  · rcases h.slots_within hsub hhalf hslot hcovers with hid | ⟨c, hc, -, hid⟩
    · exact ⟨id, outcome.1, hid, (h.holds_halfway_iff hhalf).mpr (.inr (.inl ⟨rfl, rfl⟩))⟩
    · exact ⟨c.origin, c, hid, (h.holds_halfway_iff hhalf).mpr (.inl ⟨hc, rfl⟩)⟩
  · obtain ⟨i, c, hid, hc, hcslot⟩ := h.sound.exists_covering slot
    rw [Nat.mod_eq_of_lt hslot] at hid
    have hi : i ≠ id := by
      rintro rfl
      exact hcovers (h.holds.unique hc ▸ hcslot)
    exact ⟨i, c, (h.slots_of_not_covers hsub hhalf hcovers).trans hid,
      (h.holds_halfway_iff hhalf).mpr (.inr (.inr ⟨hi, hc⟩))⟩

/-- However many of the parts of a split are published, no slot refers to a wrong one. -/
theorem SplitWithin.halfPublished (h : SplitWithin hash entry dir id b outcome) (hsub : published ⊆ outcome.2)
    (hhalf : Publication published (dir.store ⟨id, outcome.1⟩) halfway)
    (hall : Publication outcome.2 (dir.store ⟨id, outcome.1⟩) final) :
    HalfPublished dir id b outcome.1 published halfway final := by
  have hdepth : halfway.depth = dir.depth := hhalf.depth_eq
  have hsize : halfway.slots.size = 2 ^ halfway.depth := by
    rw [hhalf.slots_size, hdepth]
    exact h.sound.slots_size
  have hfinal {c : Bucket} (hc : c ∈ parts outcome) : final.Holds c.origin c :=
    (h.holds_iff hall).mpr (.inl ⟨hc, rfl⟩)
  have hholds {i : Nat} {c : Bucket} := h.holds_halfway_iff (i := i) (c := c) hhalf
  refine ⟨hdepth, hsize, fun slot hslot => h.exists_of_slot_halfway hsub hhalf (hdepth ▸ hslot),
    h.slots_of_not_covers hsub hhalf, fun hi hc => hholds.mpr (.inr (.inr ⟨hi, hc⟩)), ⟨?_, ?_⟩,
    fun c hc => ⟨?_, ?_⟩, fun c hc slot hslot => h.slots_of_published hsub hhalf hc (hdepth ▸ hslot),
    fun slot hslot hcovers => ?_⟩
  · exact hholds.mpr (.inr (.inl ⟨rfl, rfl⟩))
  · exact h.origin_eq ▸ hfinal List.mem_cons_self
  · exact hholds.mpr (.inl ⟨hc, rfl⟩)
  · exact hfinal (List.mem_cons_of_mem _ (hsub hc))
  · rcases h.slots_within hsub hhalf (hdepth ▸ hslot) hcovers with hid | ⟨c, hc, hcslot, hid⟩
    · exact .inl hid
    · refine .inr ⟨c, hc, hid, ?_⟩
      rintro value rfl
      have hfits : c.localDepth ≤ halfway.depth := hdepth ▸ h.fits c (List.mem_cons_of_mem _ (hsub hc))
      exact routes_of_covers_slotOf hfits hcslot

/-- Every way through the publication of the parts passes by a state that is half published. -/
theorem SplitWithin.exists_halfPublished (h : SplitWithin hash entry dir id b outcome)
    (hcreated : outcome.2 = published ++ pending)
    (hfinal : (dir.store ⟨id, outcome.1⟩).publishAll outcome.2 = .ok final) :
    ∃ halfway, (dir.store ⟨id, outcome.1⟩).publishAll published = .ok halfway ∧
      halfway.publishAll pending = .ok final ∧ HalfPublished dir id b outcome.1 published halfway final := by
  have hsub : published.Sublist outcome.2 := hcreated ▸ List.sublist_append_left published pending
  obtain ⟨halfway, hfirst, hhalf⟩ := Directory.exists_publishAll
    (fun _ hc => h.cell_empty (hsub.subset hc)) (h.origins_distinct.sublist hsub)
  obtain ⟨halfway', hfirst', hrest⟩ := publishAll_append.mp (hcreated ▸ hfinal)
  obtain rfl : halfway = halfway' := Except.ok.inj (hfirst.symm.trans hfirst')
  exact ⟨halfway, hfirst, hrest, h.halfPublished hsub.subset hhalf (h.publication_of_publishAll hfinal)⟩

end ExtendibleHashing.Directory
