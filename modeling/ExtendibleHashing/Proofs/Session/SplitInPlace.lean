import ExtendibleHashing.Proofs.Directory.Halfway
import ExtendibleHashing.Proofs.Session.Course

/-!
# Splits in place

An insertion that finds its bucket full, and the directory deep enough for the split, publishes the new
buckets while others use the directory. Whoever comes in between finds a directory that is half published,
in which a slot may refer to too wide a bucket only if that is the bucket the insertion still holds on to.
When the insertion lets go of it, no slot does.
-/

namespace ExtendibleHashing

variable {hash : HashFunction} {index : Index} {entry : Entry} {found : Located}

/-- An insertion into a crowded bucket splits it in place if the directory is deep enough. -/
theorem Index.exists_splitInPlace (hsound : index.directory.Sound hash)
    (hfound : index.directory.lookUp (hash entry.key) = .ok found) {depth : Nat}
    (hplace : found.bucket.place hash (hash entry.key) entry = .crowded depth)
    (hfits : depth ≤ index.directory.depth) :
    ∃ outcome final, found.bucket.splitFor hash (hash entry.key) entry = .ok outcome ∧
      Directory.SplitWithin hash entry index.directory found.id found.bucket outcome ∧
      (index.directory.store ⟨found.id, outcome.1⟩).publishAll outcome.2 = .ok final ∧
      (index.perform hash (.insert entry)).map Logged.value = .ok ⟨.accepted, ⟨final, index.size + 1⟩⟩ := by
  obtain ⟨outcome, hsplit, hsplits, hrequired⟩ := Bucket.exists_splitFor_of_crowded hplace
  have hsame : index.directory.deepen (Bucket.requiredDepth outcome) = index.directory :=
    Directory.deepen_of_le (hrequired ▸ hfits)
  have hwithin := splitWithin_deepen hsound hfound hsplits
  rw [hsame] at hwithin
  obtain ⟨final, hpublish, -⟩ := hwithin.exists_publishAll
  obtain ⟨answer, next, events, hperform, htransition⟩ := exists_perform hsound (.insert entry)
  obtain ⟨rfl, rfl⟩ := htransition.unique (.split hfound hplace hsplit (hsame.symm ▸ hpublish))
  refine ⟨outcome, final, hsplit, hwithin, hpublish, ?_⟩
  rw [hperform]
  rfl

/-- While an insertion into a reachable index splits a bucket in place, no slot ever refers to a wrong one.
However many of the new buckets are published, slots outside the class of the bucket that is split are as
they were, and slots within refer to that bucket, or to a new one that routes all hash values which address
them and does not change any more. In the end all slots refer to buckets that route what addresses them. -/
theorem halfPublished_of_splitInPlace (h : Reachable hash index) (entry : Entry)
    (hfound : index.directory.lookUp (hash entry.key) = .ok found) {depth : Nat}
    (hplace : found.bucket.place hash (hash entry.key) entry = .crowded depth)
    (hfits : depth ≤ index.directory.depth) :
    ∃ kept created final, found.bucket.splitFor hash (hash entry.key) entry = .ok (kept, created) ∧
      (index.perform hash (.insert entry)).map Logged.value = .ok ⟨.accepted, ⟨final, index.size + 1⟩⟩ ∧
      (∀ published pending, created = published ++ pending →
        ∃ halfway, (index.directory.store ⟨found.id, kept⟩).publishAll published = .ok halfway ∧
          halfway.publishAll pending = .ok final ∧
          Directory.HalfPublished index.directory found.id found.bucket kept published halfway final) ∧
      ∀ slot id, final.slots[slot]? = some id →
        ∃ c, final.Holds id c ∧ ∀ value, final.slotOf value = slot → c.routes value = true := by
  obtain ⟨outcome, final, hsplit, hwithin, hpublish, hperform⟩ :=
    Index.exists_splitInPlace h.sound.directory hfound hplace hfits
  have hsound : final.Sound hash := hwithin.sound_of_publication (hwithin.publication_of_publishAll hpublish)
  refine ⟨outcome.1, outcome.2, final, hsplit, hperform, fun published pending hcreated => ?_,
    fun slot id hslot => hsound.routes_of_slot hslot⟩
  exact hwithin.exists_halfPublished hcreated hpublish

/-- A bucket of even keys is split twice in place. When the first of the new buckets is published, which has
been split again by then, the slot of the second one still refers to the bucket itself. Keys are hashed to
their first byte. -/
theorem halfPublished_of_splitInPlace_of_even_keys :
    ∃ halfway final, Directory.HalfPublished Index.lopsided.directory 0
        ⟨[⟨[2], []⟩, ⟨[6], []⟩, ⟨[10], []⟩, ⟨[14], []⟩], 1, 0⟩ ⟨[], 2, 0⟩
        [⟨[⟨[2], []⟩, ⟨[10], []⟩, ⟨[18], []⟩], 3, 2⟩] halfway final ∧
      halfway.slots = #[0, 1, 2, 3, 0, 5, 0, 3] ∧ final.slots = #[0, 1, 2, 3, 0, 5, 6, 3] := by
  have hfound : Index.lopsided.directory.lookUp 18 =
      .ok ⟨0, ⟨[⟨[2], []⟩, ⟨[6], []⟩, ⟨[10], []⟩, ⟨[14], []⟩], 1, 0⟩⟩ := by
    decide +kernel
  have hplace : Bucket.place (fun key => (key.headD 0).toUInt32) 18 ⟨[18], []⟩
      ⟨[⟨[2], []⟩, ⟨[6], []⟩, ⟨[10], []⟩, ⟨[14], []⟩], 1, 0⟩ = .crowded 3 := by
    decide +kernel
  have hparts : Bucket.splitFor (fun key => (key.headD 0).toUInt32) 18 ⟨[18], []⟩
      ⟨[⟨[2], []⟩, ⟨[6], []⟩, ⟨[10], []⟩, ⟨[14], []⟩], 1, 0⟩ =
      .ok (⟨[], 2, 0⟩, [⟨[⟨[2], []⟩, ⟨[10], []⟩, ⟨[18], []⟩], 3, 2⟩, ⟨[⟨[6], []⟩, ⟨[14], []⟩], 3, 6⟩]) := by
    decide +kernel
  obtain ⟨kept, created, final, hsplit, -, hhalf, -⟩ :=
    halfPublished_of_splitInPlace reachable_lopsided ⟨[18], []⟩ hfound hplace (by decide)
  obtain ⟨rfl, rfl⟩ := Prod.mk.inj (Except.ok.inj (hsplit.symm.trans hparts))
  obtain ⟨halfway, hfirst, hrest, hhalf⟩ := hhalf [_] [_] rfl
  have hslots : ((Index.lopsided.directory.store ⟨0, ⟨[], 2, 0⟩⟩).publishAll
      [⟨[⟨[2], []⟩, ⟨[10], []⟩, ⟨[18], []⟩], 3, 2⟩]).map (·.slots) = .ok #[0, 1, 2, 3, 0, 5, 0, 3] := by
    decide +kernel
  have hall : ((Index.lopsided.directory.store ⟨0, ⟨[], 2, 0⟩⟩).publishAll
      [⟨[⟨[2], []⟩, ⟨[10], []⟩, ⟨[18], []⟩], 3, 2⟩, ⟨[⟨[6], []⟩, ⟨[14], []⟩], 3, 6⟩]).map (·.slots) =
      .ok #[0, 1, 2, 3, 0, 5, 6, 3] := by
    decide +kernel
  rw [hfirst] at hslots
  have hlast := Directory.publishAll_append.mpr ⟨halfway, hfirst, hrest⟩
  rw [List.singleton_append] at hlast
  rw [hlast] at hall
  exact ⟨halfway, final, hhalf, Except.ok.inj hslots, Except.ok.inj hall⟩

end ExtendibleHashing
