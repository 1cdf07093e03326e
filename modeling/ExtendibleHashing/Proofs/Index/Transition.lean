import ExtendibleHashing.Index.Perform
import ExtendibleHashing.Proofs.Bucket.Placement
import ExtendibleHashing.Proofs.Directory.Publication

/-!
# What a point operation does to an index

`Transition` lists everything a point operation can do, one constructor for each way it can go, with
the bucket found for the key and what that bucket made of the request. On a sound directory an
operation always ends in a transition, whether it goes the whole way sharing the directory, finds
its bucket under an outdated identity, or starts over with the directory to itself. Which of them it
is depends on nothing but the index, so all ways of carrying out an operation agree up to events.
-/

namespace ExtendibleHashing.Index

/-- Everything that a point operation can answer and leave, by what it found. -/
inductive Transition (hash : HashFunction) (index : Index) : Operation → Outcome → Index → Prop
  | read {key : Bytes} {found : Located} (hfound : index.directory.lookUp (hash key) = .ok found) :
      Transition hash index (.get key) (.found (found.bucket.get? key)) index
  | present {entry : Entry} {found : Located}
      (hfound : index.directory.lookUp (hash entry.key) = .ok found)
      (hplace : found.bucket.place hash (hash entry.key) entry = .present) :
      Transition hash index (.insert entry) .accepted index
  | appended {entry : Entry} {found : Located} {bucket : Bucket}
      (hfound : index.directory.lookUp (hash entry.key) = .ok found)
      (hplace : found.bucket.place hash (hash entry.key) entry = .appended bucket) :
      Transition hash index (.insert entry) .accepted (index.storeGrown ⟨found.id, bucket⟩)
  | inseparable {entry : Entry} {found : Located}
      (hfound : index.directory.lookUp (hash entry.key) = .ok found)
      (hplace : found.bucket.place hash (hash entry.key) entry = .inseparable) :
      Transition hash index (.insert entry)
        (.refused (.collision (hash entry.key) found.bucket.localDepth)) index
  | split {entry : Entry} {found : Located} {depth : Nat} {outcome : Bucket × List Bucket}
      {directory : Directory}
      (hfound : index.directory.lookUp (hash entry.key) = .ok found)
      (hplace : found.bucket.place hash (hash entry.key) entry = .crowded depth)
      (hsplit : found.bucket.splitFor hash (hash entry.key) entry = .ok outcome)
      (hpublish : ((index.directory.deepen (Bucket.requiredDepth outcome)).store
        ⟨found.id, outcome.1⟩).publishAll outcome.2 = .ok directory) :
      Transition hash index (.insert entry) .accepted ⟨directory, index.size + 1⟩
  | updated {entry : Entry} {found : Located} {bucket : Bucket}
      (hfound : index.directory.lookUp (hash entry.key) = .ok found)
      (hupdate : found.bucket.update? entry = some bucket) :
      Transition hash index (.update entry) .done
        { index with directory := index.directory.store ⟨found.id, bucket⟩ }
  | updateIdle {entry : Entry} {found : Located}
      (hfound : index.directory.lookUp (hash entry.key) = .ok found)
      (hupdate : found.bucket.update? entry = none) :
      Transition hash index (.update entry) .done index
  | removed {key : Bytes} {found : Located} {entry : Entry} {bucket : Bucket}
      (hfound : index.directory.lookUp (hash key) = .ok found)
      (hremove : found.bucket.remove? key = some (entry, bucket)) :
      Transition hash index (.remove key) .done
        ⟨index.directory.store ⟨found.id, bucket⟩, index.size - 1⟩
  | removeIdle {key : Bytes} {found : Located}
      (hfound : index.directory.lookUp (hash key) = .ok found)
      (hremove : found.bucket.remove? key = none) :
      Transition hash index (.remove key) .done index

/-- What an operation answers and leaves is determined by the index. -/
theorem Transition.unique {hash : HashFunction} {index next next' : Index} {op : Operation}
    {outcome outcome' : Outcome} (h : Transition hash index op outcome next)
    (h' : Transition hash index op outcome' next') : outcome = outcome' ∧ next = next' := by
  cases h <;> cases h' <;> simp_all

variable {hash : HashFunction} {index : Index}

/-- A crowded bucket comes apart within a directory that is as deep as the parts ask for. -/
theorem splitWithin_deepen {entry : Entry} {found : Located} {outcome : Bucket × List Bucket}
    (hsound : index.directory.Sound hash) (hfound : index.directory.lookUp (hash entry.key) = .ok found)
    (hsplits : Bucket.SplitsInto hash (hash entry.key) entry found.bucket outcome) :
    Directory.SplitWithin hash entry (index.directory.deepen (Bucket.requiredDepth outcome)) found.id
      found.bucket outcome := by
  obtain ⟨hholds, hcovers⟩ := hsound.of_lookUp hfound
  obtain ⟨hall, c, hc, hrequired⟩ := Bucket.requiredDepth_spec outcome
  have hwidth : Bucket.requiredDepth outcome ≤ hashBits := hrequired ▸ (hsplits.localDepth_bounds c hc).2
  refine ⟨hsound.deepen hwidth, Directory.holds_deepen_iff.mpr hholds, hsplits, hcovers, fun c hc => ?_⟩
  rw [Directory.depth_deepen]
  exact (hall c hc).trans (Nat.le_max_right _ _)

/-- An insertion with the directory to itself ends in a transition. -/
theorem exists_insertGrowing (hsound : index.directory.Sound hash) (entry : Entry) :
    ∃ outcome next events, index.insertGrowing hash entry = .ok ⟨⟨outcome, next⟩, events⟩ ∧
      Transition hash index (.insert entry) outcome next := by
  obtain ⟨id, b, -, hfound, -, -⟩ := hsound.exists_lookUp (hash entry.key)
  rw [insertGrowing, hfound]
  simp only [bind, Except.bind]
  cases hplace : b.place hash (hash entry.key) entry with
  | present => exact ⟨_, _, _, rfl, .present hfound hplace⟩
  | appended bucket => exact ⟨_, _, _, rfl, .appended hfound hplace⟩
  | inseparable => exact ⟨_, _, _, rfl, .inseparable hfound hplace⟩
  | crowded depth =>
    obtain ⟨outcome, hsplit, hsplits, -⟩ := Bucket.exists_splitFor_of_crowded hplace
    obtain ⟨directory, hpublish, -⟩ := (splitWithin_deepen hsound hfound hsplits).exists_publishAll
    have hstore : storeSplit ⟨id, outcome.1⟩ outcome.2
        { index with directory := index.directory.deepen (Bucket.requiredDepth outcome) } =
        .ok ⟨directory, index.size + 1⟩ := by
      simp only [storeSplit, hpublish, bind, Except.bind]
      rfl
    simp only [hsplit]
    rw [Bucket.requiredDepth] at hstore
    rw [hstore]
    exact ⟨_, _, _, rfl, .split hfound hplace hsplit hpublish⟩

/-- What an attempt comes to while it shares the directory: a transition, or an escalated insertion
that needs more depth than the directory has. -/
inductive Attempted (hash : HashFunction) (index : Index) : Operation → Attempt → Prop
  | finished {op : Operation} {outcome : Outcome} {next : Index}
      (htransition : Transition hash index op outcome next) :
      Attempted hash index op (.finished ⟨outcome, next⟩)
  | escalated {entry : Entry} {found : Located} {depth : Nat}
      (hfound : index.directory.lookUp (hash entry.key) = .ok found)
      (hplace : found.bucket.place hash (hash entry.key) entry = .crowded depth)
      (hdepth : index.directory.depth < depth) :
      Attempted hash index (.insert entry) (.escalated entry)

/-- What an insertion makes of the bucket found for it. -/
theorem exists_insertInPlace (hsound : index.directory.Sound hash) {entry : Entry} {found : Located}
    (hfound : index.directory.lookUp (hash entry.key) = .ok found) :
    ∃ result events, index.insertInPlace hash entry found = .ok ⟨result, events⟩ ∧
      Attempted hash index (.insert entry) result := by
  rw [insertInPlace]
  simp only
  cases hplace : found.bucket.place hash (hash entry.key) entry with
  | present => exact ⟨_, _, rfl, .finished (.present hfound hplace)⟩
  | appended bucket => exact ⟨_, _, rfl, .finished (.appended hfound hplace)⟩
  | inseparable => exact ⟨_, _, rfl, .finished (.inseparable hfound hplace)⟩
  | crowded depth =>
    simp only
    split
    next hfits =>
      obtain ⟨outcome, hsplit, hsplits, hrequired⟩ := Bucket.exists_splitFor_of_crowded hplace
      obtain ⟨directory, hpublish, -⟩ := (splitWithin_deepen hsound hfound hsplits).exists_publishAll
      have hsame : index.directory.deepen (Bucket.requiredDepth outcome) = index.directory :=
        Directory.deepen_of_le (hrequired ▸ hfits)
      have hstore : storeSplit ⟨found.id, outcome.1⟩ outcome.2 index =
          .ok ⟨directory, index.size + 1⟩ := by
        rw [hsame] at hpublish
        simp only [storeSplit, hpublish, bind, Except.bind]
        rfl
      simp only [hsplit, hstore, bind, Except.bind]
      exact ⟨_, _, rfl, .finished (.split hfound hplace hsplit hpublish)⟩
    next hdeep => exact ⟨_, _, rfl, .escalated hfound hplace (Nat.lt_of_not_le hdeep)⟩

/-- Whatever bucket an operation tries first, its attempt comes to the same. -/
theorem exists_attempt (hsound : index.directory.Sound hash) (op : Operation) :
    ∃ result, Attempted hash index op result ∧ ∀ {stale : Nat} {c : Bucket},
      index.directory.Holds stale c → ∃ events, index.attempt hash op stale = .ok ⟨result, events⟩ := by
  obtain ⟨id, b, -, hfound, -, -⟩ := hsound.exists_lookUp (hash op.key)
  have hlocate {stale : Nat} {c : Bucket} (hstale : index.directory.Holds stale c) :
      ∃ events, index.directory.locate (hash op.key) stale = .ok ⟨⟨id, b⟩, events⟩ :=
    hsound.exists_locate hstale hfound
  cases op with
  | get key =>
    refine ⟨_, .finished (.read hfound), fun hstale => ?_⟩
    obtain ⟨events, hlocate⟩ := hlocate hstale
    exact ⟨events, by simp only [attempt, hlocate, bind, Except.bind]; rfl⟩
  | insert entry =>
    obtain ⟨result, more, hinsert, hattempted⟩ := exists_insertInPlace hsound hfound
    refine ⟨result, hattempted, fun hstale => ?_⟩
    obtain ⟨events, hlocate⟩ := hlocate hstale
    exact ⟨events ++ more, by simp only [attempt, hlocate, hinsert, bind, Except.bind]; rfl⟩
  | update entry =>
    cases hupdate : b.update? entry with
    | none =>
      refine ⟨_, .finished (.updateIdle hfound hupdate), fun hstale => ?_⟩
      obtain ⟨events, hlocate⟩ := hlocate hstale
      exact ⟨events, by simp only [attempt, hlocate, hupdate, bind, Except.bind]; rfl⟩
    | some bucket =>
      refine ⟨_, .finished (.updated hfound hupdate), fun hstale => ?_⟩
      obtain ⟨events, hlocate⟩ := hlocate hstale
      exact ⟨events, by simp only [attempt, hlocate, hupdate, bind, Except.bind]; rfl⟩
  | remove key =>
    cases hremove : b.remove? key with
    | none =>
      refine ⟨_, .finished (.removeIdle hfound hremove), fun hstale => ?_⟩
      obtain ⟨events, hlocate⟩ := hlocate hstale
      exact ⟨events, by simp only [attempt, hlocate, hremove, bind, Except.bind]; rfl⟩
    | some removed =>
      refine ⟨_, .finished (.removed hfound hremove), fun hstale => ?_⟩
      obtain ⟨events, hlocate⟩ := hlocate hstale
      exact ⟨events, by simp only [attempt, hlocate, hremove, bind, Except.bind]; rfl⟩

/-- A point operation ends in a transition. -/
theorem exists_perform (hsound : index.directory.Sound hash) (op : Operation) :
    ∃ outcome next events, index.perform hash op = .ok ⟨⟨outcome, next⟩, events⟩ ∧
      Transition hash index op outcome next := by
  obtain ⟨id, b, hid, -, hb, -⟩ := hsound.exists_lookUp (hash op.key)
  obtain ⟨result, hattempted, hattempt⟩ := exists_attempt hsound op
  obtain ⟨events, hattempt⟩ := hattempt hb
  rw [perform, hid]
  simp only [bind, Except.bind, hattempt, complete]
  cases hattempted with
  | finished htransition => exact ⟨_, _, events, rfl, htransition⟩
  | @escalated entry =>
    obtain ⟨outcome, next, more, hinsert, htransition⟩ := exists_insertGrowing hsound entry
    simp only [hinsert]
    exact ⟨outcome, next, _, rfl, htransition⟩

/-- What a point operation answers and leaves is its transition. -/
theorem transition_of_perform (hsound : index.directory.Sound hash) {op : Operation} {outcome : Outcome}
    {next : Index} {events : List Event}
    (h : index.perform hash op = .ok ⟨⟨outcome, next⟩, events⟩) :
    Transition hash index op outcome next := by
  obtain ⟨outcome', next', events', hperform, htransition⟩ := exists_perform hsound op
  obtain ⟨⟨rfl, rfl⟩, -⟩ : (outcome' = outcome ∧ next' = next) ∧ events' = events := by
    simpa [hperform] using h
  exact htransition

end ExtendibleHashing.Index
