import ExtendibleHashing.Proofs.Bucket.Handover
import ExtendibleHashing.Proofs.Session.Path

/-!
# Freedom from faults

On a reachable index no step of a session ends in a fault, however its races are nested: slots and cells
are in range and filled, the bucket of a hash takes that hash, buckets are published once and within the
directory, none that is split is overfull or has used up the bits of a hash, and the position of the
bucket that is split next is one of those created. What is left for an insertion to answer is that the
key is stored now, or that a full bucket of keys and the new one have the same hash, which is found out
before anything is split.
-/

namespace ExtendibleHashing

variable {hash : HashFunction} {index : Index}

/-- A full bucket found for an entry comes apart when it is crowded: every round splits on a bit of the
hash, by position as well as on the bucket itself, the parts are no deeper than was asked for, and they
can be published in the directory once that is deep enough. -/
structure Index.ComesApart (hash : HashFunction) (entry : Entry) (id : Nat) (b : Bucket) (depth : Nat)
    (outcome : Bucket × List Bucket) (index : Index) : Prop where
  splitFor_eq : b.splitFor hash (hash entry.key) entry = .ok outcome
  splitByPosition_eq : b.splitByPosition hash (hash entry.key) entry = some outcome
  rounds : Bucket.SplitsInto hash (hash entry.key) entry b outcome
  depth_le : depth ≤ hashBits
  parts_fit : ∀ c ∈ Bucket.parts outcome, c.localDepth ≤ depth ∧ c.entries.length ≤ bucketCapacity
  publishes : ∃ directory,
    ((index.directory.deepen depth).store ⟨id, outcome.1⟩).publishAll outcome.2 = .ok directory

/-- Nothing that an index can be asked to do ends in a fault. -/
structure Index.FaultFree (hash : HashFunction) (index : Index) : Prop where
  /-- Every step gets an answer of its kind. -/
  answered : ∀ occupancy step, ∃ answer next,
    Step.run occupancy (.ok hash) step index = .ok (answer, next) ∧ Step.Answered hash occupancy step answer
  /-- An operation gets through from any bucket, so from an identity read at any earlier time. -/
  attempted : ∀ {stale b}, index.directory.Holds stale b → ∀ op, ∃ attempt,
    index.attempt hash op stale = .ok attempt
  /-- An insertion that starts over with the directory to itself gets through. -/
  retried : ∀ entry, ∃ answer, index.insertGrowing hash entry = .ok answer
  /-- An insertion is refused because the hashes of a full bucket do not separate from its own. -/
  refused : ∀ {entry error next events},
    index.perform hash (.insert entry) = .ok ⟨⟨.refused error, next⟩, events⟩ ∨
      index.insertGrowing hash entry = .ok ⟨⟨.refused error, next⟩, events⟩ →
    ∃ found, index.directory.lookUp (hash entry.key) = .ok found ∧ found.bucket.isFull = true ∧
      found.bucket.separatingDepth? hash (hash entry.key) = none ∧
      error = .collision (hash entry.key) found.bucket.localDepth ∧ next = index
  /-- A bucket that an entry of its class crowds comes apart. -/
  split : ∀ {id b entry depth}, index.directory.Holds id b → b.Covers (hash entry.key).toNat →
    b.place hash (hash entry.key) entry = .crowded depth →
    ∃ outcome, index.ComesApart hash entry id b depth outcome
  /-- Depths stay within the width of hashes. -/
  depth_le : index.directory.depth ≤ hashBits
  /-- So do those of buckets, which have identities that fit a hash and are never overfull. -/
  bucket_fits : ∀ {id b}, index.directory.Holds id b →
    b.localDepth ≤ hashBits ∧ id < 2 ^ hashBits ∧ b.entries.length ≤ bucketCapacity

namespace Index

/-- A refusal is decided by the hashes of a full bucket. -/
theorem Transition.exists_of_refused {entry : Entry} {error : IndexError} {next : Index}
    (h : Transition hash index (.insert entry) (.refused error) next) :
    ∃ found, index.directory.lookUp (hash entry.key) = .ok found ∧ found.bucket.isFull = true ∧
      found.bucket.separatingDepth? hash (hash entry.key) = none ∧
      error = .collision (hash entry.key) found.bucket.localDepth ∧ next = index := by
  cases h with
  | inseparable hfound hplace =>
    obtain ⟨-, hfull, hnone⟩ := Bucket.place_eq_inseparable_iff.mp hplace
    exact ⟨_, hfound, hfull, hnone, rfl, rfl⟩

/-- What an insertion with the directory to itself answers and leaves is its transition. -/
theorem transition_of_insertGrowing (hsound : index.directory.Sound hash) {entry : Entry} {outcome : Outcome}
    {next : Index} {events : List Event}
    (h : index.insertGrowing hash entry = .ok ⟨⟨outcome, next⟩, events⟩) :
    Transition hash index (.insert entry) outcome next := by
  obtain ⟨outcome', next', events', hinsert, htransition⟩ := exists_insertGrowing hsound entry
  obtain ⟨⟨rfl, rfl⟩, -⟩ : (outcome' = outcome ∧ next' = next) ∧ events' = events := by
    simpa [hinsert] using h
  exact htransition

/-- In a sound directory a crowded bucket comes apart. -/
theorem exists_comesApart (hsound : index.directory.Sound hash) {id : Nat} {b : Bucket} {entry : Entry}
    {depth : Nat} (hb : index.directory.Holds id b) (hcovers : b.Covers (hash entry.key).toNat)
    (hplace : b.place hash (hash entry.key) entry = .crowded depth) :
    ∃ outcome, index.ComesApart hash entry id b depth outcome := by
  obtain ⟨outcome, hsplit, hsplits, rfl⟩ := Bucket.exists_splitFor_of_crowded hplace
  have hwithin := splitWithin_deepen hsound (hsound.lookUp_eq hb hcovers) hsplits
  obtain ⟨hall, c, hc, hrequired⟩ := Bucket.requiredDepth_spec outcome
  obtain ⟨directory, hpublish, -⟩ := hwithin.exists_publishAll
  refine ⟨outcome, hsplit, ?_, hsplits, ?_, fun c hc => ⟨hall c hc, (hwithin.part_sound c hc).length_le⟩,
    directory, hpublish⟩
  · rw [Bucket.splitByPosition_eq, hsplit]
    rfl
  · exact hrequired ▸ (hsplits.localDepth_bounds c hc).2

end Index

/-- A reachable index is free from faults. -/
theorem faultFree_of_reachable (h : Reachable hash index) : index.FaultFree hash := by
  have hsound := h.sound
  have hdirectory := hsound.directory
  refine ⟨fun occupancy step => ?_, fun hstale op => ?_, fun entry => ?_, fun hrefused => ?_,
    Index.exists_comesApart hdirectory, hdirectory.depth_le, fun hb => ⟨?_, ?_, ?_⟩⟩
  · obtain ⟨answer, next, hrun, -, hanswered⟩ := Step.exists_answered occupancy step index hsound
    exact ⟨answer, next, hrun, hanswered⟩
  · obtain ⟨result, -, hattempt⟩ := Index.exists_attempt hdirectory op
    obtain ⟨events, hattempt⟩ := hattempt hstale
    exact ⟨_, hattempt⟩
  · obtain ⟨outcome, next, events, hinsert, -⟩ := Index.exists_insertGrowing hdirectory entry
    exact ⟨_, hinsert⟩
  · rcases hrefused with hperform | hgrowing
    · exact (Index.transition_of_perform hdirectory hperform).exists_of_refused
    · exact (Index.transition_of_insertGrowing hdirectory hgrowing).exists_of_refused
  · exact (hdirectory.localDepth_le hb).trans hdirectory.depth_le
  · have hcells := hdirectory.cells_size ▸ hb.lt
    exact Nat.lt_of_lt_of_le hcells (Nat.pow_le_pow_right (by decide) hdirectory.depth_le)
  · exact (hdirectory.bucket_sound hb).length_le

/-- An index where the next insertion takes four rounds, the third of which hands all entries over from
the only bucket to the newest one. Keys are hashed to their first byte. -/
theorem faultFree_before_handover :
    Reachable (fun key => (key.headD 0).toUInt32)
        (.single [⟨[4], []⟩, ⟨[12], []⟩, ⟨[20], []⟩, ⟨[28], []⟩]) ∧
      Index.FaultFree (fun key => (key.headD 0).toUInt32)
        (.single [⟨[4], []⟩, ⟨[12], []⟩, ⟨[20], []⟩, ⟨[28], []⟩]) ∧
      Bucket.splitByPosition (fun key => (key.headD 0).toUInt32) 36 ⟨[36], []⟩
          ⟨[⟨[4], []⟩, ⟨[12], []⟩, ⟨[20], []⟩, ⟨[28], []⟩], 0, 0⟩ =
        some (⟨[], 3, 0⟩, [⟨[], 1, 1⟩, ⟨[], 2, 2⟩, ⟨[⟨[4], []⟩, ⟨[20], []⟩, ⟨[36], []⟩], 4, 4⟩,
          ⟨[⟨[12], []⟩, ⟨[28], []⟩], 4, 12⟩]) := by
  have hfull : Reachable (fun key => (key.headD 0).toUInt32)
      (.single [⟨[4], []⟩, ⟨[12], []⟩, ⟨[20], []⟩, ⟨[28], []⟩]) :=
    reachable_single _ (by decide) (by decide)
  exact ⟨hfull, faultFree_of_reachable hfull, rfl⟩

end ExtendibleHashing
