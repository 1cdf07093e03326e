import ExtendibleHashing.Proofs.Session.Course

/-!
# Escalated insertions

An insertion that shares the directory asks the hashes how deep a split would go, and lets go when the
directory is too shallow for that. An insertion with the directory to itself splits first, looks how deep
the new buckets are, and deepens the directory if it has to. The two depths are the same, so nothing
depends on which way an insertion goes: the answers agree, and so do the indexes down to the order of
entries, whatever the bucket of the key makes of the entry.
-/

namespace ExtendibleHashing

open scoped List

variable {hash : HashFunction} {index next : Index} {entry : Entry}

namespace Index

/-- What inserting an entry answers and leaves, by what the bucket found for it makes of the entry. A
crowded bucket deepens the directory just as far as it asks for. -/
def Inserted (newHash : HashValue) (entry : Entry) (found : Located) (index : Index) :
    Bucket.Placement → Outcome → Index → Prop
  | .present, outcome, next => outcome = .accepted ∧ next = index
  | .appended bucket, outcome, next => outcome = .accepted ∧ next = index.storeGrown ⟨found.id, bucket⟩
  | .crowded depth, outcome, next =>
    outcome = .accepted ∧ next.directory.depth = max index.directory.depth depth ∧
      next.directory.entries ~ entry :: index.directory.entries ∧ next.size = index.size + 1
  | .inseparable, outcome, next =>
    outcome = .refused (.collision newHash found.bucket.localDepth) ∧ next = index

/-- The transition of an insertion does what the bucket found for its key asks for. -/
theorem Transition.inserted {outcome : Outcome} {found : Located}
    (h : Transition hash index (.insert entry) outcome next) (hsound : index.directory.Sound hash)
    (hfound : index.directory.lookUp (hash entry.key) = .ok found) :
    index.Inserted (hash entry.key) entry found (found.bucket.place hash (hash entry.key) entry) outcome next := by
  cases hplace : found.bucket.place hash (hash entry.key) entry with
  | present => exact h.unique (.present hfound hplace)
  | appended bucket => exact h.unique (.appended hfound hplace)
  | inseparable => exact h.unique (.inseparable hfound hplace)
  | crowded depth =>
    obtain ⟨parts, hsplit, hsplits, hrequired⟩ := Bucket.exists_splitFor_of_crowded hplace
    have hwithin := splitWithin_deepen hsound hfound hsplits
    obtain ⟨directory, hpublish, hpub⟩ := hwithin.exists_publishAll
    obtain ⟨rfl, rfl⟩ := h.unique (.split hfound hplace hsplit hpublish)
    have hentries := hwithin.entries_perm_of_publication hpub
    rw [Directory.entries_deepen] at hentries
    refine ⟨rfl, ?_, hentries, rfl⟩
    rw [hpub.depth_eq, Directory.store, Directory.depth_deepen, hrequired]

end Index

/-- On a reachable index an insertion with the directory to itself answers and leaves what an insertion
does that begins by sharing it: both do what the bucket of the key asks for, be the key stored, the bucket
not full, the split within the directory or too deep for it, or the hashes all the same. -/
theorem insertGrowing_agrees_perform (h : Reachable hash index) (entry : Entry) :
    ∃ found outcome next, index.directory.lookUp (hash entry.key) = .ok found ∧
      (index.perform hash (.insert entry)).map Logged.value = .ok ⟨outcome, next⟩ ∧
      (index.insertGrowing hash entry).map Logged.value = .ok ⟨outcome, next⟩ ∧
      index.Inserted (hash entry.key) entry found (found.bucket.place hash (hash entry.key) entry) outcome next := by
  have hsound := h.sound.directory
  obtain ⟨id, b, -, hfound, -⟩ := hsound.exists_lookUp (hash entry.key)
  obtain ⟨outcome, next, events, hperform, htransition⟩ := Index.exists_perform hsound (.insert entry)
  obtain ⟨outcome', next', more, hgrowing, htransition'⟩ := Index.exists_insertGrowing hsound entry
  obtain ⟨rfl, rfl⟩ := htransition.unique htransition'
  refine ⟨⟨id, b⟩, outcome, next, hfound, ?_, ?_, htransition.inserted hsound hfound⟩
  · rw [hperform]
    rfl
  · rw [hgrowing]
    rfl

/-- The even keys are split within the directory, whichever way the fifth of them is inserted. Keys are
hashed to their first byte. -/
theorem insertGrowing_agrees_perform_within_directory :
    ∃ answer, (Index.perform (fun key => (key.headD 0).toUInt32) (.insert ⟨[18], []⟩) .lopsided).map Logged.value =
        .ok answer ∧
      (Index.insertGrowing (fun key => (key.headD 0).toUInt32) ⟨[18], []⟩ .lopsided).map Logged.value = .ok answer ∧
      answer.outcome = .accepted ∧ answer.index.directory.slots = #[0, 1, 2, 3, 0, 5, 6, 3] := by
  obtain ⟨found, outcome, next, -, hperform, hgrowing, -⟩ :=
    insertGrowing_agrees_perform reachable_lopsided ⟨[18], []⟩
  have hanswer : ((Index.insertGrowing (fun key => (key.headD 0).toUInt32) ⟨[18], []⟩ .lopsided).map
      Logged.value).map (fun answer => (answer.outcome, answer.index.directory.slots)) =
      .ok (.accepted, #[0, 1, 2, 3, 0, 5, 6, 3]) := by
    decide +kernel
  rw [hgrowing] at hanswer
  obtain ⟨hoc, hslots⟩ := Prod.mk.inj (Except.ok.inj hanswer)
  exact ⟨_, hperform, hgrowing, hoc, hslots⟩

end ExtendibleHashing
