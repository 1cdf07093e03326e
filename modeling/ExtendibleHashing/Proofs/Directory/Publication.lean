import ExtendibleHashing.Proofs.Directory.Growth
import Mathlib.Data.List.Pairwise

/-!
# Publishing the parts of a split bucket

Publishing a bucket fills its cell and redirects the slots of its class to it. A slot in the
classes of several published buckets ends up with the last, but the parts of a split do not overlap,
so the order of publication does not matter in the end: each slot of the old class refers to the one
part whose class it is in, all other slots stay, and the directory is sound again.
-/

namespace ExtendibleHashing.Directory

open Bucket (parts)
open scoped List

/-- The bucket a slot refers to after buckets were published, if it referred to `id` before. -/
def redirect (created : List Bucket) (slot id : Nat) : Nat :=
  created.foldl (fun id c => if inAliasRange c slot then c.origin else id) id

/-- A slot outside the classes of the published buckets keeps its bucket. -/
theorem redirect_of_not_covered {created : List Bucket} {slot id : Nat}
    (h : ∀ c ∈ created, inAliasRange c slot = false) : redirect created slot id = id := by
  induction created with
  | nil => rfl
  | cons c rest ih =>
    rw [List.forall_mem_cons] at h
    rw [redirect, List.foldl_cons, h.1]
    exact ih h.2

/-- A slot in the class of one published bucket refers to that bucket. -/
theorem redirect_of_covered {created : List Bucket} {slot id : Nat} {c : Bucket} (hc : c ∈ created)
    (hslot : inAliasRange c slot = true)
    (hunique : ∀ c' ∈ created, inAliasRange c' slot = true → c' = c) :
    redirect created slot id = c.origin := by
  induction created generalizing id with
  | nil => exact absurd hc List.not_mem_nil
  | cons x rest ih =>
    rw [List.forall_mem_cons] at hunique
    by_cases hrest : c ∈ rest
    · exact ih hrest hunique.2
    · obtain rfl : c = x := (List.mem_cons.mp hc).resolve_right hrest
      have hnone : ∀ c' ∈ rest, inAliasRange c' slot = false := fun c' hc' =>
        Bool.eq_false_iff.mpr fun h => hrest (hunique.2 c' hc' h ▸ hc')
      rw [redirect, List.foldl_cons, hslot]
      exact redirect_of_not_covered hnone

/-- What publishing buckets does to a directory. -/
structure Publication (created : List Bucket) (dir dir' : Directory) : Prop where
  depth_eq : dir'.depth = dir.depth
  slots_size : dir'.slots.size = dir.slots.size
  cells_size : dir'.cells.size = dir.cells.size
  holds_iff : ∀ {id c}, dir'.Holds id c ↔ (c ∈ created ∧ c.origin = id) ∨ dir.Holds id c
  slots_eq : ∀ slot, dir'.slots[slot]? = dir.slots[slot]?.map (redirect created slot)
  entries_perm : dir'.entries.Perm (created.flatMap (·.entries) ++ dir.entries)

/-- Publishing a bucket whose cell is empty succeeds and fills that cell. -/
theorem exists_publish {c : Bucket} {dir : Directory} (hempty : dir.cells[c.origin]? = some none) :
    ∃ dir', dir.publish c = .ok dir' ∧ Publication [c] dir dir' ∧
      ∀ {id}, id ≠ c.origin → dir'.cells[id]? = dir.cells[id]? := by
  have hlt : c.origin < dir.cells.size := (Array.getElem?_eq_some_iff.mp hempty).1
  have hentries := entries_store_perm hlt c
  rw [without_eq_self hempty] at hentries
  have hpublish : dir.publish c = .ok
      { dir.store ⟨c.origin, c⟩ with
        slots := dir.slots.mapIdx fun slot id => if inAliasRange c slot then c.origin else id } := by
    simp only [publish, hempty, store]
  refine ⟨_, hpublish, ⟨rfl, ?_, ?_, ?_, ?_, ?_⟩, ?_⟩
  · rw [Array.size_mapIdx]
  · rw [store, Array.size_setIfInBounds]
  · intro id x
    refine (holds_store_iff hlt).trans ?_
    rw [List.mem_singleton]
    constructor
    · rintro (⟨rfl, rfl⟩ | ⟨-, hx⟩)
      · exact .inl ⟨rfl, rfl⟩
      · exact .inr hx
    · rintro (⟨rfl, rfl⟩ | hx)
      · exact .inl ⟨rfl, rfl⟩
      · refine .inr ⟨fun hid => ?_, hx⟩
        subst hid
        simp [Holds, hempty] at hx
  · intro slot
    rw [Array.getElem?_mapIdx]
    rfl
  · rw [List.flatMap_singleton]
    exact hentries
  · intro id hid
    rw [store, Array.getElem?_setIfInBounds_ne hid.symm]

/-- Buckets of different origins with empty cells can be published one after the other. -/
theorem exists_publishAll {created : List Bucket} {dir : Directory}
    (hempty : ∀ c ∈ created, dir.cells[c.origin]? = some none)
    (hdistinct : created.Pairwise fun c c' => c.origin ≠ c'.origin) :
    ∃ dir', dir.publishAll created = .ok dir' ∧ Publication created dir dir' := by
  induction created generalizing dir with
  | nil =>
    refine ⟨dir, rfl, rfl, rfl, rfl, ?_, ?_, List.Perm.refl _⟩
    · simp
    · intro slot
      exact Option.map_id'.symm
  | cons c rest ih =>
    obtain ⟨hc, hrest⟩ := List.forall_mem_cons.mp hempty
    obtain ⟨hne, hdistinct⟩ := List.pairwise_cons.mp hdistinct
    obtain ⟨dir₁, hpublish, hfirst, hothers⟩ := exists_publish hc
    obtain ⟨dir₂, hall, hlater⟩ := ih
      (fun c' hc' => (hothers (hne c' hc').symm).trans (hrest c' hc')) hdistinct
    refine ⟨dir₂, ?_, ?_, ?_, ?_, ?_, ?_, ?_⟩
    · rw [publishAll, List.foldlM_cons, hpublish]
      exact hall
    · exact hlater.depth_eq.trans hfirst.depth_eq
    · exact hlater.slots_size.trans hfirst.slots_size
    · exact hlater.cells_size.trans hfirst.cells_size
    · intro id x
      rw [hlater.holds_iff, hfirst.holds_iff, List.mem_singleton, List.mem_cons]
      tauto
    · intro slot
      rw [hlater.slots_eq, hfirst.slots_eq, Option.map_map]
      rfl
    · refine hlater.entries_perm.trans ((hfirst.entries_perm.append_left _).trans ?_)
      simp only [List.flatMap_cons, List.flatMap_nil, List.append_nil, ← List.append_assoc]
      exact List.perm_append_comm.append_right _

/-- A bucket of a sound directory comes apart into parts that the directory is deep enough for. -/
structure SplitWithin (hash : HashFunction) (entry : Entry) (dir : Directory) (id : Nat) (b : Bucket)
    (outcome : Bucket × List Bucket) : Prop where
  sound : dir.Sound hash
  holds : dir.Holds id b
  splits : Bucket.SplitsInto hash (hash entry.key) entry b outcome
  covers : b.Covers (hash entry.key).toNat
  fits : ∀ c ∈ parts outcome, c.localDepth ≤ dir.depth

namespace SplitWithin

variable {hash : HashFunction} {entry : Entry} {dir dir' : Directory} {id : Nat} {b : Bucket}
  {outcome : Bucket × List Bucket}

/-- The bucket that was split is the root of its class. -/
theorem rooted (h : SplitWithin hash entry dir id b outcome) : b.Rooted :=
  (h.sound.bucket_sound h.holds).rooted

/-- The parts are sound. -/
theorem part_sound (h : SplitWithin hash entry dir id b outcome) : ∀ c ∈ parts outcome, c.Sound hash :=
  h.splits.sound (h.sound.bucket_sound h.holds) h.covers

/-- What became of the bucket itself keeps its identity. -/
theorem origin_eq (h : SplitWithin hash entry dir id b outcome) : outcome.1.origin = id :=
  h.splits.origin_eq.trans (h.sound.origin_eq h.holds)

/-- The origin of a part is a slot of the bucket that was split. -/
theorem covers_origin (h : SplitWithin hash entry dir id b outcome) {c : Bucket} (hc : c ∈ parts outcome) :
    b.Covers c.origin :=
  (h.splits.covers_iff h.rooted c.origin).mpr ⟨c, hc, (h.part_sound c hc).rooted.covers_origin⟩

/-- The origin of a part is a slot of the directory. -/
theorem origin_lt (h : SplitWithin hash entry dir id b outcome) {c : Bucket} (hc : c ∈ parts outcome) :
    c.origin < 2 ^ dir.depth :=
  Nat.lt_of_lt_of_le (h.part_sound c hc).rooted (Nat.pow_le_pow_right (by decide) (h.fits c hc))

/-- New buckets have other identities than the bucket itself. -/
theorem origin_ne (h : SplitWithin hash entry dir id b outcome) {c : Bucket} (hc : c ∈ outcome.2) :
    c.origin ≠ id := by
  intro heq
  have hself := (h.part_sound outcome.1 List.mem_cons_self).rooted.covers_origin
  rw [h.origin_eq, ← heq] at hself
  exact h.splits.not_covers_of_mem_created h.rooted hc hself
    (h.part_sound c (List.mem_cons_of_mem _ hc)).rooted.covers_origin

/-- No two new buckets have the same identity. -/
theorem origins_distinct (h : SplitWithin hash entry dir id b outcome) :
    outcome.2.Pairwise fun c c' => c.origin ≠ c'.origin := by
  obtain ⟨hascending, -⟩ := h.splits.origins_ascending h.rooted
  exact (List.pairwise_map.mp hascending).imp Nat.ne_of_lt

/-- The cell of a new bucket is empty: its slot still refers to the bucket that was split. -/
theorem cell_empty (h : SplitWithin hash entry dir id b outcome) {c : Bucket} (hc : c ∈ outcome.2) :
    (dir.store ⟨id, outcome.1⟩).cells[c.origin]? = some none := by
  have hparts : c ∈ parts outcome := List.mem_cons_of_mem _ hc
  have hlt : c.origin < dir.cells.size := h.sound.cells_size ▸ h.origin_lt hparts
  rw [store, Array.getElem?_setIfInBounds_ne (h.origin_ne hc).symm, Array.getElem?_eq_getElem hlt]
  cases hcell : dir.cells[c.origin] with
  | none => rfl
  | some x =>
    have hx : dir.Holds c.origin x := (Array.getElem?_eq_getElem hlt).trans (congrArg some hcell)
    have hself := (h.sound.bucket_sound hx).rooted.covers_origin
    rw [h.sound.origin_eq hx] at hself
    exact absurd (h.sound.id_eq_of_covers hx h.holds hself (h.covers_origin hparts)) (h.origin_ne hc)

/-- The parts can be published. -/
theorem exists_publishAll (h : SplitWithin hash entry dir id b outcome) :
    ∃ dir', (dir.store ⟨id, outcome.1⟩).publishAll outcome.2 = .ok dir' ∧
      Publication outcome.2 (dir.store ⟨id, outcome.1⟩) dir' :=
  Directory.exists_publishAll (fun _ hc => h.cell_empty hc) h.origins_distinct

/-- Whatever comes of publishing the parts is their publication. -/
theorem publication_of_publishAll (h : SplitWithin hash entry dir id b outcome)
    (hpublish : (dir.store ⟨id, outcome.1⟩).publishAll outcome.2 = .ok dir') :
    Publication outcome.2 (dir.store ⟨id, outcome.1⟩) dir' := by
  obtain ⟨dir'', hpublish', hpub⟩ := h.exists_publishAll
  obtain rfl : dir' = dir'' := Except.ok.inj (hpublish.symm.trans hpublish')
  exact hpub

/-- After the publication the cells hold the parts, and what they held before elsewhere. -/
theorem holds_iff (h : SplitWithin hash entry dir id b outcome)
    (hpub : Publication outcome.2 (dir.store ⟨id, outcome.1⟩) dir') {i : Nat} {c : Bucket} :
    dir'.Holds i c ↔ (c ∈ parts outcome ∧ c.origin = i) ∨ (i ≠ id ∧ dir.Holds i c) := by
  rw [hpub.holds_iff, holds_store_iff h.holds.lt, parts, List.mem_cons]
  constructor
  · rintro (⟨hc, hi⟩ | ⟨rfl, rfl⟩ | hother)
    · exact .inl ⟨.inr hc, hi⟩
    · exact .inl ⟨.inl rfl, h.origin_eq⟩
    · exact .inr hother
  · rintro (⟨rfl | hc, hi⟩ | hother)
    · exact .inr (.inl ⟨hi.symm.trans h.origin_eq, rfl⟩)
    · exact .inl ⟨hc, hi⟩
    · exact .inr (.inr hother)

/-- The alias range of a new bucket is its class. -/
theorem inAliasRange_iff (h : SplitWithin hash entry dir id b outcome) {c : Bucket} (hc : c ∈ outcome.2) (slot : Nat) :
    inAliasRange c slot = true ↔ c.Covers slot :=
  Bucket.inAliasRange_iff_covers (h.part_sound c (List.mem_cons_of_mem _ hc)).rooted slot

/-- A slot that is in the class of none of the parts published so far stays. -/
theorem slots_of_unpublished (h : SplitWithin hash entry dir id b outcome) {published : List Bucket}
    (hsub : published ⊆ outcome.2) (hpub : Publication published (dir.store ⟨id, outcome.1⟩) dir') {slot : Nat}
    (hslot : ∀ c ∈ published, ¬ c.Covers slot) : dir'.slots[slot]? = dir.slots[slot]? := by
  have hkeep : redirect published slot = fun i => i := by
    funext i
    refine redirect_of_not_covered fun c hc => ?_
    rw [← Bool.not_eq_true, h.inAliasRange_iff (hsub hc)]
    exact hslot c hc
  rw [hpub.slots_eq, hkeep]
  exact Option.map_id'

/-- A slot in the class of a part refers to it from the publication on, whatever is published later. -/
theorem slots_of_published (h : SplitWithin hash entry dir id b outcome) {published : List Bucket}
    (hsub : published ⊆ outcome.2) (hpub : Publication published (dir.store ⟨id, outcome.1⟩) dir') {c : Bucket}
    (hc : c ∈ published) {slot : Nat} (hslot : slot < 2 ^ dir.depth) (hcovers : c.Covers slot) :
    dir'.slots[slot]? = some c.origin := by
  have hparts {x : Bucket} (hx : x ∈ published) : x ∈ parts outcome := List.mem_cons_of_mem _ (hsub hx)
  have hold : dir.slots[slot]? = some id :=
    h.sound.slot_of_covers h.holds hslot ((h.splits.covers_iff h.rooted slot).mpr ⟨c, hparts hc, hcovers⟩)
  rw [hpub.slots_eq]
  change dir.slots[slot]?.map _ = _
  rw [hold, Option.map_some, redirect_of_covered hc ((h.inAliasRange_iff (hsub hc) slot).mpr hcovers)]
  intro x hx hxslot
  exact h.splits.eq_of_covers h.rooted (hparts hx) (hparts hc) ((h.inAliasRange_iff (hsub hx) slot).mp hxslot) hcovers

/-- A slot outside the class of the bucket that was split stays. -/
theorem slots_of_not_covers (h : SplitWithin hash entry dir id b outcome) {published : List Bucket}
    (hsub : published ⊆ outcome.2) (hpub : Publication published (dir.store ⟨id, outcome.1⟩) dir') {slot : Nat}
    (hslot : ¬ b.Covers slot) : dir'.slots[slot]? = dir.slots[slot]? := by
  refine h.slots_of_unpublished hsub hpub fun c hc hcovers => hslot ?_
  exact (h.splits.covers_iff h.rooted slot).mpr ⟨c, List.mem_cons_of_mem _ (hsub hc), hcovers⟩

/-- A slot in the class of a part refers to that part once all are published. -/
theorem slots_of_covers (h : SplitWithin hash entry dir id b outcome)
    (hpub : Publication outcome.2 (dir.store ⟨id, outcome.1⟩) dir') {c : Bucket} (hc : c ∈ parts outcome)
    {slot : Nat} (hslot : slot < 2 ^ dir.depth) (hcovers : c.Covers slot) :
    dir'.slots[slot]? = some c.origin := by
  rcases List.mem_cons.mp hc with rfl | hnew
  · rw [h.origin_eq, h.slots_of_unpublished (List.Subset.refl _) hpub]
    · exact h.sound.slot_of_covers h.holds hslot ((h.splits.covers_iff h.rooted slot).mpr ⟨_, hc, hcovers⟩)
    · exact fun x hx => h.splits.not_covers_of_mem_created h.rooted hx hcovers
  · exact h.slots_of_published (List.Subset.refl _) hpub hnew hslot hcovers

/-- The directory is sound again once all parts are published. -/
theorem sound_of_publication (h : SplitWithin hash entry dir id b outcome)
    (hpub : Publication outcome.2 (dir.store ⟨id, outcome.1⟩) dir') : dir'.Sound hash := by
  have hdepth : dir'.depth = dir.depth := hpub.depth_eq
  have hslots : dir'.slots.size = 2 ^ dir.depth := hpub.slots_size.trans h.sound.slots_size
  have hcells : dir'.cells.size = 2 ^ dir.depth := by
    rw [hpub.cells_size, store, Array.size_setIfInBounds, h.sound.cells_size]
  have hcovered {i slot : Nat} {c : Bucket} (hc : dir'.Holds i c) (hslot : slot < 2 ^ dir.depth)
      (hcovers : c.Covers slot) : dir'.slots[slot]? = some i := by
    rcases (h.holds_iff hpub).mp hc with ⟨hpart, rfl⟩ | ⟨hne, hc⟩
    · exact h.slots_of_covers hpub hpart hslot hcovers
    · rw [h.slots_of_not_covers (List.Subset.refl _) hpub fun hb =>
        hne (h.sound.id_eq_of_covers hc h.holds hcovers hb)]
      exact h.sound.slot_of_covers hc hslot hcovers
  have hexists {slot : Nat} (hslot : slot < 2 ^ dir.depth) : ∃ i c, dir'.Holds i c ∧ c.Covers slot := by
    obtain ⟨i, c, -, hc, hcovers⟩ := h.sound.exists_covering slot
    by_cases hi : i = id
    · subst hi
      obtain ⟨part, hpart, hcovers⟩ := (h.splits.covers_iff h.rooted slot).mp (hc.unique h.holds ▸ hcovers)
      exact ⟨part.origin, part, (h.holds_iff hpub).mpr (.inl ⟨hpart, rfl⟩), hcovers⟩
    · exact ⟨i, c, (h.holds_iff hpub).mpr (.inr ⟨hi, hc⟩), hcovers⟩
  refine ⟨hdepth ▸ h.sound.depth_le, hdepth ▸ hslots, hdepth ▸ hcells, ?_, ?_, ?_, ?_, ?_⟩
  · intro i c hc
    rcases (h.holds_iff hpub).mp hc with ⟨-, hi⟩ | ⟨-, hc⟩
    · exact hi
    · exact h.sound.origin_eq hc
  · intro i c hc
    rw [hdepth]
    rcases (h.holds_iff hpub).mp hc with ⟨hpart, -⟩ | ⟨-, hc⟩
    · exact h.fits c hpart
    · exact h.sound.localDepth_le hc
  · intro i c hc
    rcases (h.holds_iff hpub).mp hc with ⟨hpart, -⟩ | ⟨-, hc⟩
    · exact h.part_sound c hpart
    · exact h.sound.bucket_sound hc
  · intro i c slot hc hslot hcovers
    exact hcovered hc (hdepth ▸ hslot) hcovers
  · intro slot i hslot
    have hlt : slot < 2 ^ dir.depth := hslots ▸ (Array.getElem?_eq_some_iff.mp hslot).1
    obtain ⟨j, c, hc, hcovers⟩ := hexists hlt
    obtain rfl : j = i := Option.some.inj ((hcovered hc hlt hcovers).symm.trans hslot)
    exact ⟨c, hc, hcovers⟩

/-- Publishing the parts adds the new entry to those of the directory. -/
theorem entries_perm_of_publication (h : SplitWithin hash entry dir id b outcome)
    (hpub : Publication outcome.2 (dir.store ⟨id, outcome.1⟩) dir') :
    dir'.entries.Perm (entry :: dir.entries) := by
  have hparts := h.splits.entries_perm
  rw [parts, List.flatMap_cons] at hparts
  calc
    dir'.entries ~ outcome.2.flatMap (·.entries) ++ (dir.store ⟨id, outcome.1⟩).entries :=
      hpub.entries_perm
    _ ~ outcome.2.flatMap (·.entries) ++ (outcome.1.entries ++ (dir.without id).entries) :=
      (entries_store_perm h.holds.lt _).append_left _
    _ ~ (outcome.1.entries ++ outcome.2.flatMap (·.entries)) ++ (dir.without id).entries := by
      rw [← List.append_assoc]
      exact List.perm_append_comm.append_right _
    _ ~ entry :: (b.entries ++ (dir.without id).entries) := hparts.append_right _
    _ ~ entry :: dir.entries := h.holds.entries_perm.symm.cons entry

end SplitWithin

end ExtendibleHashing.Directory
