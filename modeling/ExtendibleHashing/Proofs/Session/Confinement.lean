import ExtendibleHashing.Proofs.Directory.Confinement
import ExtendibleHashing.Proofs.Session.RangeScan
import ExtendibleHashing.Proofs.Session.Refusal

/-!
# What an operation leaves alone

An operation works on the bucket of its key. It puts that bucket back, perhaps with other entries, or
splits it for a new entry, and either is confined to the bucket. The shape of the directory changes only
when a new entry finds its bucket full and the hashes can be told apart. Since every step refines the
directory, whatever a session goes on with refines it too.
-/

namespace ExtendibleHashing

variable {hash : HashFunction} {index next : Index} {op : Operation} {outcome : Outcome} {found : Located}

namespace Index

/-- An operation puts its bucket back with the same class, or it inserts an entry for which the bucket
is split. -/
theorem Transition.stores_or_splits (h : Transition hash index op outcome next)
    (hsound : index.directory.Sound hash) (hfound : index.directory.lookUp (hash op.key) = .ok found) :
    (∃ c, (c.origin = found.bucket.origin ∧ c.localDepth = found.bucket.localDepth) ∧
      next.directory = index.directory.store ⟨found.id, c⟩) ∨
    ∃ entry depth parts, op = .insert entry ∧ outcome = .accepted ∧
      found.bucket.place hash (hash entry.key) entry = .crowded depth ∧
      Directory.SplitWithin hash entry (index.directory.deepen (Bucket.requiredDepth parts)) found.id
        found.bucket parts ∧
      Directory.Publication parts.2 ((index.directory.deepen (Bucket.requiredDepth parts)).store
        ⟨found.id, parts.1⟩) next.directory := by
  obtain ⟨hb, -⟩ := hsound.of_lookUp hfound
  have hsame : index.directory = index.directory.store ⟨found.id, found.bucket⟩ := hb.store_eq.symm
  cases h with
  | read => exact .inl ⟨found.bucket, ⟨rfl, rfl⟩, hsame⟩
  | present => exact .inl ⟨found.bucket, ⟨rfl, rfl⟩, hsame⟩
  | inseparable => exact .inl ⟨found.bucket, ⟨rfl, rfl⟩, hsame⟩
  | updateIdle => exact .inl ⟨found.bucket, ⟨rfl, rfl⟩, hsame⟩
  | removeIdle => exact .inl ⟨found.bucket, ⟨rfl, rfl⟩, hsame⟩
  | appended hfound' hplace =>
    obtain rfl := Except.ok.inj (hfound.symm.trans hfound')
    obtain ⟨-, -, rfl⟩ := Bucket.place_eq_appended_iff.mp hplace
    exact .inl ⟨found.bucket.push _, ⟨rfl, rfl⟩, rfl⟩
  | updated hfound' hupdate =>
    obtain rfl := Except.ok.inj (hfound.symm.trans hfound')
    exact .inl ⟨_, Bucket.class_eq_of_update? hupdate, rfl⟩
  | removed hfound' hremove =>
    obtain rfl := Except.ok.inj (hfound.symm.trans hfound')
    exact .inl ⟨_, Bucket.class_eq_of_remove? hremove, rfl⟩
  | split hfound' hplace hsplit hpublish =>
    obtain rfl := Except.ok.inj (hfound.symm.trans hfound')
    have hwithin := splitWithin_deepen hsound hfound (Bucket.splitsInto_of_splitRounds hsplit)
    exact .inr ⟨_, _, _, rfl, rfl, hplace, hwithin, hwithin.publication_of_publishAll hpublish⟩

/-- What an operation does to the directory is confined to the bucket of its key. -/
theorem Transition.confined (h : Transition hash index op outcome next)
    (hsound : index.directory.Sound hash) (hfound : index.directory.lookUp (hash op.key) = .ok found) :
    index.directory.Confined found.id found.bucket next.directory := by
  obtain ⟨hb, -⟩ := hsound.of_lookUp hfound
  rcases h.stores_or_splits hsound hfound with ⟨c, hclass, hstore⟩ | ⟨_, _, _, -, -, -, hwithin, hpub⟩
  · rw [hstore]
    exact hb.confined_store hclass
  · exact hwithin.confined hsound hpub

/-- An operation keeps the shape of the directory unless it inserts an entry that crowds its bucket. -/
theorem Transition.shape_eq (h : Transition hash index op outcome next)
    (hsound : index.directory.Sound hash) (hfound : index.directory.lookUp (hash op.key) = .ok found)
    (hplain : ∀ entry, op = .insert entry → entry.key ∈ found.bucket.keys ∨ found.bucket.isFull = false ∨
      ∃ error, outcome = .refused error) :
    next.directory.shape = index.directory.shape := by
  obtain ⟨hb, -⟩ := hsound.of_lookUp hfound
  rcases h.stores_or_splits hsound hfound with ⟨c, hclass, hstore⟩ | ⟨entry, _, _, hop, rfl, hplace, -, -⟩
  · rw [hstore]
    exact hb.shape_store hclass
  · obtain ⟨hkey, hfull, -⟩ := Bucket.place_eq_crowded_iff.mp hplace
    rcases hplain entry hop with hpresent | hroom | ⟨_, hrefused⟩
    · exact absurd hpresent hkey
    · rw [hfull] at hroom
      cases hroom
    · cases hrefused

/-- Paths refine the directory. -/
theorem Path.refines (h : index.Path hash next) (hsound : index.Sound hash) :
    index.directory.Refines next.directory := by
  induction h with
  | refl => exact .refl _
  | tail hfirst hlast ih =>
    obtain ⟨op, outcome, htransition⟩ := hlast
    have hlater := (Path.sound hfirst hsound).directory
    obtain ⟨id, b, -, hfound, -, -⟩ := hlater.exists_lookUp (hash op.key)
    exact ih.trans (htransition.confined hlater hfound).toRefines

end Index

/-- What an operation on a reachable index does is confined to the bucket of its key: the other buckets
keep entries, depths and identities, slots outside its class keep their buckets, and new buckets lie
within its class. The shape of the directory stays altogether, unless an entry with a new key that is
not refused finds the bucket full; a scan does not even touch entries. In the end, and however a session
goes on from there, no bucket is lost, and neither a bucket nor the directory gets less deep. -/
theorem operation_confined (h : Reachable hash index) (op : Operation) :
    ∃ found outcome next events, index.directory.lookUp (hash op.key) = .ok found ∧
      index.perform hash op = .ok ⟨⟨outcome, next⟩, events⟩ ∧
      index.directory.Confined found.id found.bucket next.directory ∧
      ((∀ entry, op = .insert entry → entry.key ∈ index.storedKeys ∨ found.bucket.isFull = false ∨
          ∃ error, outcome = .refused error) →
        next.directory.shape = index.directory.shape) ∧
      (∀ range order collector occupancy, ∃ reply,
        (Request.scan range order collector).run occupancy (.ok hash) index = .ok ⟨reply, index, []⟩) ∧
      ∀ later, next.Path hash later → index.directory.Refines later.directory := by
  have hsound := h.sound
  obtain ⟨id, b, -, hfound, hb, hcovers⟩ := hsound.directory.exists_lookUp (hash op.key)
  obtain ⟨outcome, next, events, hperform, htransition⟩ := Index.exists_perform hsound.directory op
  have hconfined := htransition.confined hsound.directory hfound
  refine ⟨⟨id, b⟩, outcome, next, events, hfound, hperform, hconfined, fun hplain => ?_,
    fun range order collector occupancy => ⟨_, Request.run_scan occupancy (.ok hash) index range order collector⟩,
    fun later hpath => ?_⟩
  · apply htransition.shape_eq hsound.directory hfound
    rintro entry rfl
    refine (hplain entry rfl).imp_left fun hkey => ?_
    rw [Index.storedKeys, List.mem_toFinset] at hkey
    exact (hsound.directory.mem_keys_iff_of_covers hb hcovers).mp hkey
  · exact hconfined.toRefines.trans (hpath.refines (htransition.sound hsound))

/-- A full bucket in a directory of one slot: for a fifth key the directory gets a slot for a new bucket,
while a removal changes no slot and no depth. Keys are hashed to their first byte. -/
theorem operation_confined_to_full_bucket :
    Reachable (fun key => (key.headD 0).toUInt32) (.single [⟨[1], []⟩, ⟨[2], []⟩, ⟨[3], []⟩, ⟨[4], []⟩]) ∧
      (∃ outcome next events, Index.perform (fun key => (key.headD 0).toUInt32) (.insert ⟨[6], []⟩)
          (.single [⟨[1], []⟩, ⟨[2], []⟩, ⟨[3], []⟩, ⟨[4], []⟩]) = .ok ⟨⟨outcome, next⟩, events⟩ ∧
        (Index.single [⟨[1], []⟩, ⟨[2], []⟩, ⟨[3], []⟩, ⟨[4], []⟩]).directory.Confined 0
          ⟨[⟨[1], []⟩, ⟨[2], []⟩, ⟨[3], []⟩, ⟨[4], []⟩], 0, 0⟩ next.directory ∧
        next.directory.shape = ⟨1, #[0, 1], #[some (1, 0), some (1, 1)]⟩) ∧
      ∃ outcome next events, Index.perform (fun key => (key.headD 0).toUInt32) (.remove [2])
          (.single [⟨[1], []⟩, ⟨[2], []⟩, ⟨[3], []⟩, ⟨[4], []⟩]) = .ok ⟨⟨outcome, next⟩, events⟩ ∧
        next.directory.shape = ⟨0, #[0], #[some (0, 0)]⟩ := by
  have hfull : Reachable (fun key => (key.headD 0).toUInt32)
      (.single [⟨[1], []⟩, ⟨[2], []⟩, ⟨[3], []⟩, ⟨[4], []⟩]) :=
    reachable_single _ (by decide) (by decide)
  have hgrown : (Index.perform (fun key => (key.headD 0).toUInt32) (.insert ⟨[6], []⟩)
      (.single [⟨[1], []⟩, ⟨[2], []⟩, ⟨[3], []⟩, ⟨[4], []⟩])).map (·.value.index.directory.shape) =
      .ok ⟨1, #[0, 1], #[some (1, 0), some (1, 1)]⟩ := by
    decide +kernel
  have hsame : (Index.single [⟨[1], []⟩, ⟨[2], []⟩, ⟨[3], []⟩, ⟨[4], []⟩]).directory.shape =
      ⟨0, #[0], #[some (0, 0)]⟩ := by
    decide +kernel
  obtain ⟨found, outcome, next, events, hfound, hinsert, hconfined, -⟩ :=
    operation_confined hfull (.insert ⟨[6], []⟩)
  obtain ⟨found', outcome', next', events', -, hremove, -, hshape, -⟩ :=
    operation_confined hfull (.remove [2])
  obtain rfl := Except.ok.inj hfound
  rw [hinsert] at hgrown
  refine ⟨hfull, ⟨outcome, next, events, hinsert, hconfined, Except.ok.inj hgrown⟩, outcome', next', events',
    hremove, (hshape fun entry hop => ?_).trans hsame⟩
  cases hop

end ExtendibleHashing
