import ExtendibleHashing.Proofs.Session.Path
import Mathlib.Data.Finset.Card

/-!
# When insertions are refused

An insertion compares hashes only above the local depth of one bucket and only with the keys in
there. Below the local depth all hashes of the bucket agree anyway, and no other bucket has keys of
the same hash, so an insertion is refused exactly when its key is new and as many stored keys as a
bucket has room for have its very hash. This is a property of the set of stored keys alone. It comes
out the same whether the insertion shares the directory or has it to itself, and a refused insertion
leaves the index as it was.
-/

namespace ExtendibleHashing

variable {hash : HashFunction} {index next : Index}

/-- Nothing separates a sound bucket from a hash of its class exactly when its keys have that hash. -/
theorem Bucket.Sound.separatingDepth?_eq_none_iff {b : Bucket} {value : HashValue} (hsound : b.Sound hash)
    (hcovers : b.Covers value.toNat) :
    b.separatingDepth? hash value = none ↔ ∀ e ∈ b.entries, hash e.key = value := by
  rw [Bucket.separatingDepth?_eq_none_iff]
  constructor
  · intro hagrees e he
    apply HashValue.eq_of_bit_eq
    intro i hi
    by_cases hdepth : b.localDepth ≤ i
    · exact hagrees i hdepth hi e he
    · exact (hsound.covers_hash e he).testBit_eq hcovers (Nat.lt_of_not_le hdepth)
  · intro hall i _ _ e he
    rw [hall e he]

namespace Index

/-- The set of stored keys. -/
def storedKeys (index : Index) : Finset Bytes := index.directory.keys.toFinset

/-- The stored keys of one hash. -/
def colliding (hash : HashFunction) (value : HashValue) (index : Index) : Finset Bytes :=
  index.storedKeys.filter fun key => hash key = value

namespace Sound

variable {id : Nat} {b : Bucket} {value : HashValue} {entry : Entry}

/-- All stored keys of one hash are in the bucket of that hash. -/
theorem card_colliding (hsound : index.Sound hash) (hb : index.directory.Holds id b)
    (hcovers : b.Covers value.toNat) :
    (index.colliding hash value).card = b.entries.countP fun e => hash e.key = value := by
  have hothers : (index.directory.without id).entries.countP (fun e => hash e.key = value) = 0 := by
    rw [List.countP_eq_zero]
    intro e he
    simpa using hsound.directory.hash_ne_of_mem_without hb hcovers he
  have hcount : index.directory.keys.countP (fun key => hash key = value) =
      index.directory.entries.countP fun e => hash e.key = value := List.countP_map ..
  have hset : index.colliding hash value =
      (index.directory.keys.filter fun key => hash key = value).toFinset := by
    ext key
    simp [colliding, storedKeys]
  rw [hset, List.toFinset_card_of_nodup (hsound.keys_nodup.filter _), ← List.countP_eq_length_filter, hcount,
    hb.entries_perm.countP_eq, List.countP_append, hothers, Nat.add_zero]

/-- No more keys of one hash are stored than a bucket has room for. -/
theorem card_colliding_le (hsound : index.Sound hash) (value : HashValue) :
    (index.colliding hash value).card ≤ bucketCapacity := by
  obtain ⟨id, b, -, -, hb, hcovers⟩ := hsound.directory.exists_lookUp value
  rw [hsound.card_colliding hb hcovers]
  exact List.countP_le_length.trans (hsound.directory.bucket_sound hb).length_le

/-- An entry is inseparable from its bucket exactly when its key is new and a full bucket of keys has
its hash. -/
theorem place_eq_inseparable_iff (hsound : index.Sound hash) (hb : index.directory.Holds id b)
    (hcovers : b.Covers (hash entry.key).toNat) :
    b.place hash (hash entry.key) entry = .inseparable ↔
      entry.key ∉ index.storedKeys ∧ (index.colliding hash (hash entry.key)).card = bucketCapacity := by
  have hbucket := hsound.directory.bucket_sound hb
  rw [Bucket.place_eq_inseparable_iff, hbucket.separatingDepth?_eq_none_iff hcovers,
    hsound.card_colliding hb hcovers, storedKeys, List.mem_toFinset,
    hsound.directory.mem_keys_iff_of_covers hb hcovers, Bucket.isFull_iff]
  refine and_congr_right fun _ => ?_
  constructor
  · rintro ⟨hfull, hall⟩
    rw [← hfull, List.countP_eq_length]
    simpa using hall
  · intro hcount
    have hfull : b.entries.length = bucketCapacity :=
      Nat.le_antisymm hbucket.length_le (hcount ▸ List.countP_le_length)
    rw [← hfull, List.countP_eq_length] at hcount
    exact ⟨hfull, by simpa using hcount⟩

end Sound

/-- An insertion is refused when its entry is inseparable from its bucket, and only then. -/
theorem Transition.refused_iff {entry : Entry} {outcome : Outcome} {found : Located}
    (h : Transition hash index (.insert entry) outcome next)
    (hfound : index.directory.lookUp (hash entry.key) = .ok found) :
    (∃ error, outcome = .refused error) ↔ found.bucket.place hash (hash entry.key) entry = .inseparable := by
  cases h with
  | present hfound' hplace =>
    obtain rfl := Except.ok.inj (hfound.symm.trans hfound')
    simp [hplace]
  | appended hfound' hplace =>
    obtain rfl := Except.ok.inj (hfound.symm.trans hfound')
    simp [hplace]
  | inseparable hfound' hplace =>
    obtain rfl := Except.ok.inj (hfound.symm.trans hfound')
    simp [hplace]
  | split hfound' hplace =>
    obtain rfl := Except.ok.inj (hfound.symm.trans hfound')
    simp [hplace]

/-- A refused insertion names its hash and the depth of its bucket, and leaves the index alone. -/
theorem Transition.of_refused {entry : Entry} {error : IndexError} {found : Located}
    (h : Transition hash index (.insert entry) (.refused error) next)
    (hfound : index.directory.lookUp (hash entry.key) = .ok found) :
    error = .collision (hash entry.key) found.bucket.localDepth ∧ next = index := by
  cases h with
  | inseparable hfound' =>
    obtain rfl := Except.ok.inj (hfound.symm.trans hfound')
    exact ⟨rfl, rfl⟩

end Index

/-- An insertion into a reachable index is refused exactly when its key is not stored and as many
stored keys as fit a bucket have its hash, and never have more of them the same hash. A refused
insertion names the hash and the local depth of the bucket responsible for it, and leaves the index as
it was. All of this holds just the same when the insertion has the directory to itself. -/
theorem insert_refused_iff (h : Reachable hash index) (entry : Entry) :
    (∀ value, (index.colliding hash value).card ≤ bucketCapacity) ∧
      ∃ found outcome next, index.directory.lookUp (hash entry.key) = .ok found ∧
        (∃ events, index.perform hash (.insert entry) = .ok ⟨⟨outcome, next⟩, events⟩) ∧
        (∃ events, index.insertGrowing hash entry = .ok ⟨⟨outcome, next⟩, events⟩) ∧
        ((∃ error, outcome = .refused error) ↔ entry.key ∉ index.storedKeys ∧
          (index.colliding hash (hash entry.key)).card = bucketCapacity) ∧
        ∀ error, outcome = .refused error →
          error = .collision (hash entry.key) found.bucket.localDepth ∧ next = index := by
  have hsound := h.sound
  obtain ⟨id, b, -, hfound, hb, hcovers⟩ := hsound.directory.exists_lookUp (hash entry.key)
  obtain ⟨outcome, next, events, hperform, htransition⟩ :=
    Index.exists_perform hsound.directory (.insert entry)
  obtain ⟨outcome', next', more, hgrowing, htransition'⟩ :=
    Index.exists_insertGrowing hsound.directory entry
  obtain ⟨rfl, rfl⟩ := htransition.unique htransition'
  refine ⟨hsound.card_colliding_le, ⟨id, b⟩, outcome, next, hfound, ⟨events, hperform⟩, ⟨more, hgrowing⟩, ?_, ?_⟩
  · exact (htransition.refused_iff hfound).trans (hsound.place_eq_inseparable_iff hb hcovers)
  · rintro error rfl
    exact htransition.of_refused hfound

/-- The fifth key of one hash is refused, and its error names hash and depth. -/
theorem insert_refused_of_fifth_collision :
    ∃ events, Index.perform (fun _ => 7) (.insert ⟨[5], []⟩)
      (.single [⟨[1], []⟩, ⟨[2], []⟩, ⟨[3], []⟩, ⟨[4], []⟩]) =
      .ok ⟨⟨.refused (.collision 7 0), .single [⟨[1], []⟩, ⟨[2], []⟩, ⟨[3], []⟩, ⟨[4], []⟩]⟩, events⟩ := by
  have hfull : Reachable (fun _ => 7) (.single [⟨[1], []⟩, ⟨[2], []⟩, ⟨[3], []⟩, ⟨[4], []⟩]) :=
    reachable_single _ (by decide) (by decide)
  obtain ⟨-, found, outcome, next, hfound, ⟨events, hperform⟩, -, hrefused, herror⟩ :=
    insert_refused_iff hfull ⟨[5], []⟩
  obtain ⟨error, rfl⟩ := hrefused.mpr (by decide)
  obtain ⟨rfl, rfl⟩ := herror error rfl
  obtain rfl := Except.ok.inj hfound
  exact ⟨events, hperform⟩

end ExtendibleHashing
