import ExtendibleHashing.Proofs.Session.Course
import Mathlib.Data.Finset.Lattice.Fold
import Mathlib.Order.Bounds.Basic
import Mathlib.Order.Lattice.Nat

/-!
# High-water marks

How many keys of a residue class were ever stored at a time is the high-water mark of the class. The
marks alone determine the directory. A bucket is split when its class has outgrown it, so there is a
bucket for just those classes that always fitted one, while the class above did not, unless the
directory began at this depth. Each bucket after an operation has the class of one before or is a part
of one that came apart, and then all keys that crowded it belong to the class above the part. Since a
class is contained in those above it, the marks settle which of them has a bucket.
-/

namespace ExtendibleHashing

namespace Index

/-- The stored keys whose hashes are congruent to an origin modulo a power of two. -/
def keysOf (hash : HashFunction) (origin depth : Nat) (index : Index) : Finset Bytes :=
  index.storedKeys.filter fun key => (hash key).toNat % 2 ^ depth = origin

/-- The largest number of keys of a residue class that were stored at one moment. -/
def highWater (hash : HashFunction) (moments : List Index) (origin depth : Nat) : Nat :=
  moments.toFinset.sup fun index => (index.keysOf hash origin depth).card

end Index

/-- Marks that call for a bucket: its class always fitted one, but the class above did not, unless the
directory began at this depth. -/
def Warrants (mark : Nat → Nat → Nat) (initial origin depth : Nat) : Prop :=
  mark origin depth ≤ bucketCapacity ∧
    (depth = initial ∨ bucketCapacity < mark (origin % 2 ^ (depth - 1)) (depth - 1))

/-- All buckets of a directory are called for by the marks. -/
structure Directory.ShapedBy (mark : Nat → Nat → Nat) (initial : Nat) (dir : Directory) : Prop where
  initial_le : ∀ {id b}, dir.Holds id b → initial ≤ b.localDepth
  warrants : ∀ {id b}, dir.Holds id b → Warrants mark initial b.origin b.localDepth

section Nested

variable {mark : Nat → Nat → Nat} {initial origin depth : Nat}

/-- Where the marks of a class are at most those of the classes above it, none is called for together
with one above it. -/
theorem Warrants.not_above
    (hnested : ∀ origin {depth above}, above ≤ depth → mark origin depth ≤ mark (origin % 2 ^ above) above)
    (h : Warrants mark initial origin depth) {above : Nat} (hinitial : initial ≤ above) (hlt : above < depth) :
    ¬ Warrants mark initial (origin % 2 ^ above) above := by
  rintro ⟨hfits, -⟩
  -- the class right above outgrew a bucket, and is contained in the one further above
  have houtgrown := h.2.resolve_left (by omega)
  have hle := hnested (origin % 2 ^ (depth - 1)) (Nat.le_sub_one_of_lt hlt)
  rw [Nat.mod_mod_of_dvd _ (Nat.pow_dvd_pow 2 (Nat.le_sub_one_of_lt hlt))] at hle
  omega

/-- With such marks a class is called for exactly when there is a bucket for it. -/
theorem Directory.ShapedBy.exists_bucket_iff {dir : Directory} {hash : HashFunction}
    (h : dir.ShapedBy mark initial) (hsound : dir.Sound hash)
    (hnested : ∀ origin {depth above}, above ≤ depth → mark origin depth ≤ mark (origin % 2 ^ above) above)
    (hdepth : initial ≤ depth) (horigin : origin < 2 ^ depth) :
    (∃ b ∈ dir.buckets, b.origin = origin ∧ b.localDepth = depth) ↔ Warrants mark initial origin depth := by
  constructor
  · rintro ⟨b, hb, rfl, rfl⟩
    obtain ⟨id, hb⟩ := mem_buckets_iff.mp hb
    exact h.warrants hb
  · intro hwarrants
    -- the bucket that the origin belongs to can be neither above nor below the class
    obtain ⟨id, b, -, hb, hcovers⟩ := hsound.exists_covering origin
    have hbucket := h.warrants hb
    rcases Nat.lt_trichotomy b.localDepth depth with hlt | heq | hlt
    · rw [← hcovers] at hbucket
      exact absurd hbucket (hwarrants.not_above hnested (h.initial_le hb) hlt)
    · refine ⟨b, mem_buckets_iff.mpr ⟨id, hb⟩, ?_, heq⟩
      rw [← hcovers, heq, Nat.mod_eq_of_lt horigin]
    · have hclass : b.origin % 2 ^ depth = origin := by
        rw [← hcovers, Nat.mod_mod_of_dvd _ (Nat.pow_dvd_pow 2 hlt.le), Nat.mod_eq_of_lt horigin]
      rw [← hclass] at hwarrants
      exact absurd hwarrants (hbucket.not_above hnested hdepth hlt)

end Nested

namespace Index

variable {hash : HashFunction} {index next : Index} {op : Operation} {outcome : Outcome} {moments : List Index}

section Marks

variable {origin depth : Nat}

/-- One more moment may raise a mark. -/
theorem highWater_concat : highWater hash (moments ++ [next]) origin depth =
    max (highWater hash moments origin depth) (next.keysOf hash origin depth).card := by
  simp [highWater, List.toFinset_append, max_comm]

/-- A class is contained in those above it. -/
theorem keysOf_subset {above : Nat} (h : above ≤ depth) (index : Index) :
    index.keysOf hash origin depth ⊆ index.keysOf hash (origin % 2 ^ above) above := by
  intro key hkey
  obtain ⟨hstored, hclass⟩ := Finset.mem_filter.mp hkey
  refine Finset.mem_filter.mpr ⟨hstored, ?_⟩
  rw [← hclass, Nat.mod_mod_of_dvd _ (Nat.pow_dvd_pow 2 h)]

/-- The mark of a class is at most that of a class above it. -/
theorem highWater_le_above (hash : HashFunction) (moments : List Index) (origin : Nat) {depth above : Nat}
    (h : above ≤ depth) :
    highWater hash moments origin depth ≤ highWater hash moments (origin % 2 ^ above) above :=
  Finset.sup_mono_fun fun moment _ => Finset.card_le_card (moment.keysOf_subset h)

end Marks

namespace Sound

variable {id : Nat} {b : Bucket}

/-- The entries of a bucket are the stored ones of its class. -/
theorem mem_entries_iff (hsound : index.Sound hash) (hb : index.directory.Holds id b) (e : Entry) :
    e ∈ b.entries ↔ e ∈ index.directory.entries ∧ (hash e.key).toNat % 2 ^ b.localDepth = b.origin := by
  constructor
  · intro he
    have hcovers := (hsound.directory.bucket_sound hb).covers_hash e he
    exact ⟨(hsound.directory.mem_entries_iff_of_covers hb hcovers).mpr he, hcovers⟩
  · rintro ⟨he, hcovers⟩
    exact (hsound.directory.mem_entries_iff_of_covers hb hcovers).mp he

/-- The keys of a bucket are the stored ones of its class. -/
theorem keys_toFinset (hsound : index.Sound hash) (hb : index.directory.Holds id b) :
    b.keys.toFinset = index.keysOf hash b.origin b.localDepth := by
  ext key
  simp only [keysOf, storedKeys, Directory.keys, Bucket.keys, Finset.mem_filter, List.mem_toFinset,
    List.mem_map, hsound.mem_entries_iff hb]
  constructor
  · rintro ⟨e, ⟨he, hclass⟩, rfl⟩
    exact ⟨⟨e, he, rfl⟩, hclass⟩
  · rintro ⟨⟨e, he, rfl⟩, hclass⟩
    exact ⟨e, ⟨he, hclass⟩, rfl⟩

/-- The class of a bucket has no more stored keys than a bucket has room for. -/
theorem card_keysOf_le (hsound : index.Sound hash) (hb : index.directory.Holds id b) :
    (index.keysOf hash b.origin b.localDepth).card ≤ bucketCapacity := by
  rw [← hsound.keys_toFinset hb]
  have hlength := (hsound.directory.bucket_sound hb).length_le
  rw [← List.length_map (·.key)] at hlength
  exact (List.toFinset_card_le _).trans hlength

end Sound

/-- Different stored keys of a class are counted by it. -/
theorem length_le_card_keysOf {entries : List Entry} {origin depth : Nat}
    (hnodup : (entries.map (·.key)).Nodup) (hstored : ∀ e ∈ entries, e ∈ index.directory.entries)
    (hclass : ∀ e ∈ entries, (hash e.key).toNat % 2 ^ depth = origin) :
    entries.length ≤ (index.keysOf hash origin depth).card := by
  rw [← List.length_map (·.key), ← List.toFinset_card_of_nodup hnodup]
  refine Finset.card_le_card fun key hkey => ?_
  obtain ⟨e, he, rfl⟩ := List.mem_map.mp (List.mem_toFinset.mp hkey)
  refine Finset.mem_filter.mpr ⟨?_, hclass e he⟩
  exact List.mem_toFinset.mpr (List.mem_map_of_mem (hstored e he))

/-- Where the class of a bucket comes from: a bucket before the operation had it, or it is part of the
class of one that came apart, and the class above it has become too large for a bucket. -/
inductive Inherits (hash : HashFunction) (index next : Index) (c : Bucket) : Prop
  | same {id : Nat} {b : Bucket} (hb : index.directory.Holds id b)
      (hclass : c.origin = b.origin ∧ c.localDepth = b.localDepth)
  | part {id : Nat} {b : Bucket} (hb : index.directory.Holds id b) (hdeeper : b.localDepth < c.localDepth)
      (hcovers : b.Covers c.origin)
      (houtgrown : bucketCapacity <
        (next.keysOf hash (c.origin % 2 ^ (c.localDepth - 1)) (c.localDepth - 1)).card)

/-- A bucket that was stored in place of one of its class passes the class on. -/
theorem inherits_of_store {id i : Nat} {b c x : Bucket} (hb : index.directory.Holds id b)
    (hclass : c.origin = b.origin ∧ c.localDepth = b.localDepth)
    (hx : (index.directory.store ⟨id, c⟩).Holds i x) : Inherits hash index next x := by
  rcases (Directory.holds_store_iff hb.lt).mp hx with ⟨-, rfl⟩ | ⟨-, hx⟩
  · exact .same hb hclass
  · exact .same hx ⟨rfl, rfl⟩

/-- Every bucket after an operation has its class from one before. -/
theorem Transition.inherits (h : Transition hash index op outcome next) (hsound : index.Sound hash)
    {id : Nat} {c : Bucket} (hc : next.directory.Holds id c) : Inherits hash index next c := by
  have hdirectory := hsound.directory
  cases h with
  | read => exact .same hc ⟨rfl, rfl⟩
  | present => exact .same hc ⟨rfl, rfl⟩
  | inseparable => exact .same hc ⟨rfl, rfl⟩
  | updateIdle => exact .same hc ⟨rfl, rfl⟩
  | removeIdle => exact .same hc ⟨rfl, rfl⟩
  | @appended entry found bucket hfound hplace =>
    obtain ⟨-, -, rfl⟩ := Bucket.place_eq_appended_iff.mp hplace
    exact inherits_of_store (c := found.bucket.push entry) (hdirectory.of_lookUp hfound).1 ⟨rfl, rfl⟩ hc
  | updated hfound hupdate =>
    exact inherits_of_store (hdirectory.of_lookUp hfound).1 (Bucket.class_eq_of_update? hupdate) hc
  | removed hfound hremove =>
    exact inherits_of_store (hdirectory.of_lookUp hfound).1 (Bucket.class_eq_of_remove? hremove) hc
  | @split entry found depth outcome directory hfound hplace hsplit hpublish =>
    obtain ⟨hb, hcovers⟩ := hdirectory.of_lookUp hfound
    obtain ⟨hkey, hfull, -⟩ := Bucket.place_eq_crowded_iff.mp hplace
    have hsplits := Bucket.splitsInto_of_splitRounds hsplit
    have hwithin := splitWithin_deepen hdirectory hfound hsplits
    have hpub := hwithin.publication_of_publishAll hpublish
    rcases (hwithin.holds_iff hpub).mp hc with ⟨hpart, -⟩ | ⟨-, hother⟩
    · refine .part hb (hsplits.localDepth_bounds c hpart).1 (hwithin.covers_origin hpart) ?_
      have hadded := hwithin.entries_perm_of_publication hpub
      rw [Directory.entries_deepen] at hadded
      have hlength : (entry :: found.bucket.entries).length = bucketCapacity + 1 :=
        congrArg (· + 1) ((Bucket.isFull_iff _).mp hfull)
      rw [Nat.lt_iff_add_one_le, ← hlength]
      refine length_le_card_keysOf ?_ ?_ ?_
      · exact List.nodup_cons.mpr ⟨hkey, hb.keys_nodup hsound.keys_nodup⟩
      · intro e he
        refine hadded.mem_iff.mpr ?_
        rcases List.mem_cons.mp he with rfl | he
        · exact List.mem_cons_self
        · exact List.mem_cons_of_mem _ (Directory.mem_entries_iff.mpr ⟨_, _, hb, he⟩)
      · exact hsplits.residue_above_eq (hdirectory.bucket_sound hb) hfull hcovers c hpart
    · exact .same (Directory.holds_deepen_iff.mp hother) ⟨rfl, rfl⟩

/-- An operation leaves buckets that the marks call for, once the index after it counts. -/
theorem Transition.shapedBy (h : Transition hash index op outcome next) (hsound : index.Sound hash)
    {initial : Nat} (hshaped : index.directory.ShapedBy (highWater hash moments) initial) :
    next.directory.ShapedBy (highWater hash (moments ++ [next])) initial where
  initial_le {id c} hc := by
    cases h.inherits hsound hc with
    | same hb hclass => exact hclass.2 ▸ hshaped.initial_le hb
    | part hb hdeeper => exact (hshaped.initial_le hb).trans hdeeper.le
  warrants {id c} hc := by
    have hfits := (h.sound hsound).card_keysOf_le hc
    rw [Warrants, highWater_concat, highWater_concat]
    cases h.inherits hsound hc with
    | same hb hclass =>
      rw [hclass.1, hclass.2] at hfits ⊢
      obtain ⟨hbfits, hbabove⟩ := hshaped.warrants hb
      exact ⟨max_le hbfits hfits, hbabove.imp_right lt_max_of_lt_left⟩
    | part hb hdeeper hcovers houtgrown =>
      have hbelow := highWater_le_above hash moments c.origin hdeeper.le
      rw [hcovers] at hbelow
      exact ⟨max_le (hbelow.trans (hshaped.warrants hb).1) hfits, .inr (lt_max_of_lt_right houtgrown)⟩

/-- The marks call for the buckets of a new index. -/
theorem shapedBy_of_ofConfig (hash : HashFunction) {config : Config} (h : ofConfig config = .ok index) :
    index.directory.ShapedBy (highWater hash [index]) config.initialDepth := by
  have hsound : index.Sound hash := sound_of_ofConfig h
  obtain ⟨-, rfl⟩ := eq_of_ofConfig h
  refine { initial_le := fun hb => ?_, warrants := fun hb => ?_ }
  · obtain ⟨-, rfl⟩ := Directory.holds_ofDepth_iff.mp hb
    exact Nat.le_refl _
  · have hfits := hsound.card_keysOf_le hb
    obtain ⟨-, rfl⟩ := Directory.holds_ofDepth_iff.mp hb
    refine ⟨?_, .inl rfl⟩
    simpa [highWater] using hfits

namespace Course

variable {final : Index} {ops : List Operation}

/-- A course that began with buckets that the marks call for ends with such. -/
theorem shapedBy (h : Course hash index ops moments final) (hsound : index.Sound hash) {initial : Nat}
    (past : List Index) (hshaped : index.directory.ShapedBy (highWater hash (past ++ [index])) initial) :
    final.directory.ShapedBy (highWater hash (past ++ moments)) initial := by
  induction h generalizing past with
  | nil => exact hshaped
  | cons hfirst _ ih =>
    rw [List.append_cons]
    exact ih (hfirst.sound hsound) _ (hfirst.shapedBy hsound hshaped)

/-- Without removals the marks are what is stored in the end. -/
theorem highWater_eq (h : Course hash index ops moments final) (hsound : index.Sound hash)
    (hkeeps : ∀ key, .remove key ∉ ops) (origin depth : Nat) :
    highWater hash moments origin depth = (final.keysOf hash origin depth).card := by
  refine le_antisymm (Finset.sup_le fun moment hmoment => ?_) ?_
  · have hsubset := h.storedKeys_subset hsound hkeeps moment (List.mem_toFinset.mp hmoment)
    exact Finset.card_le_card (Finset.filter_subset_filter _ hsubset)
  · exact Finset.le_sup (f := fun moment => (moment.keysOf hash origin depth).card)
      (List.mem_toFinset.mpr h.final_mem)

end Course

/-- An index has a bucket of the given class and with the given keys. -/
def HasBucket (origin depth : Nat) (keys : Finset Bytes) (index : Index) : Prop :=
  ∃ b ∈ index.directory.buckets, b.origin = origin ∧ b.localDepth = depth ∧ b.keys.toFinset = keys

/-- Only classes within the directory have buckets. -/
theorem HasBucket.bounds {mark : Nat → Nat → Nat} {initial origin depth : Nat} {keys : Finset Bytes}
    (h : index.HasBucket origin depth keys) (hsound : index.Sound hash)
    (hshaped : index.directory.ShapedBy mark initial) : initial ≤ depth ∧ origin < 2 ^ depth := by
  obtain ⟨b, hb, rfl, rfl, -⟩ := h
  obtain ⟨id, hb⟩ := Directory.mem_buckets_iff.mp hb
  exact ⟨hshaped.initial_le hb, (hsound.directory.bucket_sound hb).rooted⟩

/-- Just the classes that the marks call for have buckets, and these have the stored keys of the class. -/
theorem Sound.hasBucket_iff (hsound : index.Sound hash) {initial : Nat}
    (hshaped : index.directory.ShapedBy (highWater hash moments) initial) {origin depth : Nat}
    (hdepth : initial ≤ depth) (horigin : origin < 2 ^ depth) (keys : Finset Bytes) :
    index.HasBucket origin depth keys ↔
      Warrants (highWater hash moments) initial origin depth ∧ keys = index.keysOf hash origin depth := by
  rw [← hshaped.exists_bucket_iff hsound.directory (highWater_le_above hash moments) hdepth horigin]
  constructor
  · rintro ⟨b, hb, rfl, rfl, rfl⟩
    obtain ⟨id, hheld⟩ := Directory.mem_buckets_iff.mp hb
    exact ⟨⟨b, hb, rfl, rfl⟩, hsound.keys_toFinset hheld⟩
  · rintro ⟨⟨b, hb, rfl, rfl⟩, rfl⟩
    obtain ⟨id, hheld⟩ := Directory.mem_buckets_iff.mp hb
    exact ⟨b, hb, rfl, rfl, hsound.keys_toFinset hheld⟩

/-- Indexes with the same keys and buckets that the same marks call for have the same buckets. -/
theorem HasBucket.of_marks {initial origin depth : Nat} {keys : Finset Bytes}
    (h : index.HasBucket origin depth keys) (hsound : index.Sound hash)
    (hshaped : index.directory.ShapedBy (highWater hash moments) initial) (hsound' : next.Sound hash)
    (hshaped' : next.directory.ShapedBy (highWater hash moments) initial)
    (hkeys : index.keysOf hash origin depth = next.keysOf hash origin depth) :
    next.HasBucket origin depth keys := by
  obtain ⟨hdepth, horigin⟩ := h.bounds hsound hshaped
  rw [hsound.hasBucket_iff hshaped hdepth horigin, hkeys] at h
  exact (hsound'.hasBucket_iff hshaped' hdepth horigin keys).mpr h

/-- The directory is as deep as the deepest class that the marks call for. -/
theorem Sound.isGreatest_depth (hsound : index.Sound hash) {initial : Nat}
    (hshaped : index.directory.ShapedBy (highWater hash moments) initial) :
    IsGreatest {depth | initial ≤ depth ∧ ∃ origin < 2 ^ depth,
      Warrants (highWater hash moments) initial origin depth} index.directory.depth := by
  constructor
  · obtain ⟨id, b, hb, hdepth⟩ := hsound.tight
    have hrooted := (hsound.directory.bucket_sound hb).rooted
    exact hdepth ▸ ⟨hshaped.initial_le hb, b.origin, hrooted, hshaped.warrants hb⟩
  · rintro depth ⟨hinitial, origin, horigin, hwarrants⟩
    obtain ⟨b, hb, -, rfl⟩ := (hshaped.exists_bucket_iff hsound.directory (highWater_le_above hash moments)
      hinitial horigin).mpr hwarrants
    obtain ⟨id, hb⟩ := Directory.mem_buckets_iff.mp hb
    exact hsound.directory.localDepth_le hb

end Index

/-- Whatever operations a new index goes through, its high-water marks tell its buckets: a class has one
if it always fitted a bucket while the class above did not, and the bucket holds the stored entries of
the class. The deepest such class gives the depth of the directory. Where nothing is ever removed, the
keys stored in the end already determine the buckets and the depth, in whatever order they came. -/
theorem buckets_of_highWater (hash : HashFunction) {config : Config} {start : Index}
    (hstart : Index.ofConfig config = .ok start) (ops : List Operation) :
    ∃ moments final, start.performAll hash ops = .ok (moments, final) ∧
      (∀ origin depth, config.initialDepth ≤ depth → origin < 2 ^ depth → ∀ keys,
        final.HasBucket origin depth keys ↔
          Warrants (Index.highWater hash moments) config.initialDepth origin depth ∧
            keys = final.keysOf hash origin depth) ∧
      (∀ b ∈ final.directory.buckets, config.initialDepth ≤ b.localDepth ∧ b.localDepth ≤ hashBits ∧
        b.origin < 2 ^ b.localDepth ∧
        ∀ e, e ∈ b.entries ↔ e ∈ final.directory.entries ∧ (hash e.key).toNat % 2 ^ b.localDepth = b.origin) ∧
      IsGreatest {depth | config.initialDepth ≤ depth ∧ ∃ origin < 2 ^ depth,
        Warrants (Index.highWater hash moments) config.initialDepth origin depth} final.directory.depth ∧
      ∀ ops' moments' final', start.performAll hash ops' = .ok (moments', final') →
        (∀ key, .remove key ∉ ops) → (∀ key, .remove key ∉ ops') → final'.storedKeys = final.storedKeys →
        final'.directory.depth = final.directory.depth ∧
          ∀ origin depth keys, final'.HasBucket origin depth keys ↔ final.HasBucket origin depth keys := by
  have hsound : start.Sound hash := Index.sound_of_ofConfig hstart
  have hnew := Index.shapedBy_of_ofConfig hash hstart
  obtain ⟨moments, final, hrun, hcourse⟩ := Index.exists_performAll hsound ops
  have hfinal := hcourse.sound hsound
  have hshaped := hcourse.shapedBy hsound [] hnew
  refine ⟨moments, final, hrun, ?_, ?_, hfinal.isGreatest_depth hshaped, ?_⟩
  · intro origin depth hdepth horigin keys
    exact hfinal.hasBucket_iff hshaped hdepth horigin keys
  · intro b hb
    obtain ⟨id, hb⟩ := Directory.mem_buckets_iff.mp hb
    exact ⟨hshaped.initial_le hb, (hfinal.directory.localDepth_le hb).trans hfinal.directory.depth_le,
      (hfinal.directory.bucket_sound hb).rooted, hfinal.mem_entries_iff hb⟩
  · intro ops' moments' final' hrun' hkeeps hkeeps' hstored
    obtain ⟨_, _, hagain, hcourse'⟩ := Index.exists_performAll hsound ops'
    obtain ⟨rfl, rfl⟩ := Prod.mk.inj (Except.ok.inj (hrun'.symm.trans hagain))
    have hfinal' := hcourse'.sound hsound
    have hkeys (origin depth : Nat) : final'.keysOf hash origin depth = final.keysOf hash origin depth := by
      rw [Index.keysOf, hstored, Index.keysOf]
    have hmarks : Index.highWater hash moments' = Index.highWater hash moments := by
      funext origin depth
      rw [hcourse'.highWater_eq hsound hkeeps', hcourse.highWater_eq hsound hkeeps, hkeys]
    have hshaped' := hcourse'.shapedBy hsound [] hnew
    rw [List.nil_append, hmarks] at hshaped'
    refine ⟨(hfinal'.isGreatest_depth hshaped').unique (hfinal.isGreatest_depth hshaped), ?_⟩
    intro origin depth keys
    exact ⟨fun h => h.of_marks hfinal' hshaped' hfinal hshaped (hkeys origin depth),
      fun h => h.of_marks hfinal hshaped hfinal' hshaped' (hkeys origin depth).symm⟩

/-- Five keys outgrow the only bucket, so the odd ones among them have a bucket of their own, whichever
order they came in. Keys are hashed to their first byte. -/
theorem buckets_of_highWater_of_odd_keys :
    ∃ moments final moments' final',
      Index.performAll (fun key => (key.headD 0).toUInt32)
        ([[1], [2], [3], [4], [6]].map fun key => .insert ⟨key, []⟩) (.single []) = .ok (moments, final) ∧
      Index.performAll (fun key => (key.headD 0).toUInt32)
        ([[6], [4], [3], [2], [1]].map fun key => .insert ⟨key, []⟩) (.single []) = .ok (moments', final') ∧
      bucketCapacity < Index.highWater (fun key => (key.headD 0).toUInt32) moments 0 0 ∧
      final.HasBucket 1 1 {[1], [3]} ∧ final'.HasBucket 1 1 {[1], [3]} := by
  obtain ⟨moments, final, hrun, hbuckets, -, -, hagain⟩ :=
    buckets_of_highWater (fun key => (key.headD 0).toUInt32) Index.ofConfig_zero
      ([[1], [2], [3], [4], [6]].map fun key => .insert ⟨key, []⟩)
  obtain ⟨moments', final', hrun', -⟩ :=
    buckets_of_highWater (fun key => (key.headD 0).toUInt32) Index.ofConfig_zero
      ([[6], [4], [3], [2], [1]].map fun key => .insert ⟨key, []⟩)
  have hfinal : (Index.performAll (fun key => (key.headD 0).toUInt32)
      ([[1], [2], [3], [4], [6]].map fun key => .insert ⟨key, []⟩) (.single [])).map (·.2.directory.keys) =
      .ok [[2], [4], [6], [1], [3]] := by
    decide +kernel
  have hfinal' : (Index.performAll (fun key => (key.headD 0).toUInt32)
      ([[6], [4], [3], [2], [1]].map fun key => .insert ⟨key, []⟩) (.single [])).map (·.2.directory.buckets) =
      .ok [⟨[⟨[6], []⟩, ⟨[4], []⟩, ⟨[2], []⟩], 1, 0⟩, ⟨[⟨[3], []⟩, ⟨[1], []⟩], 1, 1⟩] := by
    decide +kernel
  rw [hrun] at hfinal
  rw [hrun'] at hfinal'
  replace hfinal : final.directory.keys = _ := Except.ok.inj hfinal
  replace hfinal' : final'.directory.buckets = _ := Except.ok.inj hfinal'
  have hstored : final'.storedKeys = final.storedKeys := by
    rw [Index.storedKeys, Index.storedKeys, hfinal, Directory.keys, Directory.entries, hfinal']
    decide
  have hodd : final'.HasBucket 1 1 {[1], [3]} :=
    ⟨⟨[⟨[3], []⟩, ⟨[1], []⟩], 1, 1⟩, by rw [hfinal']; simp, rfl, rfl, by decide⟩
  obtain ⟨-, hsame⟩ := hagain _ _ _ hrun' (by simp) (by simp) hstored
  have hoddToo := (hsame 1 1 _).mp hodd
  have hwarrants := ((hbuckets 1 1 (Nat.zero_le _) (by decide) _).mp hoddToo).1
  have houtgrown := hwarrants.2.resolve_left (by decide)
  rw [Nat.sub_self, Nat.pow_zero, Nat.mod_one] at houtgrown
  exact ⟨moments, final, moments', final', hrun, hrun', houtgrown, hoddToo, hodd⟩

end ExtendibleHashing
