import ExtendibleHashing.Proofs.Index.Effect
import Mathlib.Algebra.Group.Action.Defs
import Mathlib.Algebra.Order.BigOperators.Group.List
import Mathlib.Algebra.Order.Ring.Nat

/-!
# Sound indexes

An index is sound when its directory is, some bucket is as deep as the directory, no key is stored
twice, and the count is the number of entries. The changes an operation makes are stated by the
entries before and after, up to order: one more, one less, or one replaced. Every transition keeps
an index sound, and no cell that holds a bucket is ever emptied. The count is a machine word, which
is wide enough because a directory has at most `2 ^ 32` cells.
-/

namespace ExtendibleHashing

open scoped List

namespace Directory

variable {hash : HashFunction} {dir : Directory}

/-- Some bucket is as deep as the directory. -/
def Tight (dir : Directory) : Prop := ∃ id b, dir.Holds id b ∧ b.localDepth = dir.depth

/-- Every cell that holds a bucket still holds one in a later directory. -/
def Retains (dir later : Directory) : Prop := ∀ {id b}, dir.Holds id b → ∃ b', later.Holds id b'

/-- A directory retains its own buckets. -/
theorem Retains.refl (dir : Directory) : dir.Retains dir := fun h => ⟨_, h⟩

/-- What is retained twice is retained. -/
theorem Retains.trans {dir₁ dir₂ dir₃ : Directory} (h : dir₁.Retains dir₂) (h' : dir₂.Retains dir₃) :
    dir₁.Retains dir₃ := by
  intro id b hb
  obtain ⟨b', hb'⟩ := h hb
  exact h' hb'

/-- What a point operation does to a directory: nothing, replace a bucket by one with the same class,
or deepen it as far as the parts of a split ask for and publish these. -/
inductive Change (hash : HashFunction) (dir : Directory) : Directory → Prop
  | nothing : Change hash dir dir
  | store {id : Nat} {b c : Bucket} (hb : dir.Holds id b) (hc : c.Sound hash)
      (hclass : c.origin = b.origin ∧ c.localDepth = b.localDepth) :
      Change hash dir (dir.store ⟨id, c⟩)
  | split {entry : Entry} {id : Nat} {b : Bucket} {outcome : Bucket × List Bucket} {dir' : Directory}
      (hsplit : SplitWithin hash entry (dir.deepen (Bucket.requiredDepth outcome)) id b outcome)
      (hpub : Publication outcome.2
        ((dir.deepen (Bucket.requiredDepth outcome)).store ⟨id, outcome.1⟩) dir') :
      Change hash dir dir'

namespace Change

variable {later : Directory}

/-- Changes keep a directory sound. -/
theorem sound (h : Change hash dir later) (hsound : dir.Sound hash) : later.Sound hash := by
  cases h with
  | nothing => exact hsound
  | store hb hc hclass => exact hsound.store hb hc hclass.1 hclass.2
  | split hsplit hpub => exact hsplit.sound_of_publication hpub

/-- Changes keep some bucket as deep as the directory. -/
theorem tight (h : Change hash dir later) (htight : dir.Tight) : later.Tight := by
  cases h with
  | nothing => exact htight
  | @store id b c hb hc hclass =>
    obtain ⟨i, x, hx, hdepth⟩ := htight
    by_cases hi : i = id
    · subst hi
      obtain rfl := hb.unique hx
      exact ⟨i, c, (holds_store_iff hb.lt).mpr (.inl ⟨rfl, rfl⟩), hclass.2.trans hdepth⟩
    · exact ⟨i, x, (holds_store_iff hb.lt).mpr (.inr ⟨hi, hx⟩), hdepth⟩
  | @split entry id b outcome _ hsplit hpub =>
    have hlater : later.depth = max dir.depth (Bucket.requiredDepth outcome) :=
      hpub.depth_eq.trans (depth_deepen _ _)
    obtain ⟨-, c, hc, hrequired⟩ := Bucket.requiredDepth_spec outcome
    rcases Nat.le_total dir.depth (Bucket.requiredDepth outcome) with hle | hle
    · refine ⟨c.origin, c, (hsplit.holds_iff hpub).mpr (.inl ⟨hc, rfl⟩), ?_⟩
      rw [hlater, Nat.max_eq_right hle, hrequired]
    · -- the deepest bucket is deeper than the one that was split, so it is another one
      obtain ⟨i, x, hx, hdepth⟩ := htight
      have hx' : (dir.deepen (Bucket.requiredDepth outcome)).Holds i x := holds_deepen_iff.mpr hx
      have hi : i ≠ id := by
        rintro rfl
        obtain rfl := hsplit.holds.unique hx'
        have hdeeper := (hsplit.splits.localDepth_bounds c hc).1
        omega
      refine ⟨i, x, (hsplit.holds_iff hpub).mpr (.inr ⟨hi, hx'⟩), ?_⟩
      rw [hlater, Nat.max_eq_left hle, hdepth]

/-- Changes never make a directory less deep. -/
theorem depth_le (h : Change hash dir later) : dir.depth ≤ later.depth := by
  cases h with
  | nothing => exact Nat.le_refl _
  | store => exact Nat.le_refl _
  | split hsplit hpub =>
    rw [hpub.depth_eq, Directory.store, depth_deepen]
    exact Nat.le_max_left _ _

/-- Changes empty no cell. -/
theorem retains (h : Change hash dir later) : dir.Retains later := by
  intro i x hx
  cases h with
  | nothing => exact ⟨x, hx⟩
  | @store id b c hb hc hclass =>
    by_cases hi : i = id
    · exact ⟨c, (holds_store_iff hb.lt).mpr (.inl ⟨hi, rfl⟩)⟩
    · exact ⟨x, (holds_store_iff hb.lt).mpr (.inr ⟨hi, hx⟩)⟩
  | @split entry id b outcome _ hsplit hpub =>
    by_cases hi : i = id
    · exact ⟨outcome.1, (hsplit.holds_iff hpub).mpr
        (.inl ⟨List.mem_cons_self, hsplit.origin_eq.trans hi.symm⟩)⟩
    · exact ⟨x, (hsplit.holds_iff hpub).mpr (.inr ⟨hi, holds_deepen_iff.mpr hx⟩)⟩

end Change

/-- A sound directory has no more entries than its cells have room for. -/
theorem Sound.length_entries_le (hsound : dir.Sound hash) :
    dir.entries.length ≤ bucketCapacity * 2 ^ hashBits := by
  have hlengths : ∀ n ∈ dir.buckets.map (·.entries.length), n ≤ bucketCapacity := by
    intro n hn
    obtain ⟨b, hb, rfl⟩ := List.mem_map.mp hn
    obtain ⟨id, hb⟩ := mem_buckets_iff.mp hb
    exact (hsound.bucket_sound hb).length_le
  have hbuckets : dir.buckets.length ≤ 2 ^ hashBits := by
    refine (List.length_filterMap_le _ _).trans ?_
    rw [Array.length_toList, hsound.cells_size]
    exact Nat.pow_le_pow_right (by decide) hsound.depth_le
  have hsum := List.sum_le_card_nsmul _ _ hlengths
  rw [List.length_map, smul_eq_mul] at hsum
  rw [entries, List.length_flatMap, Nat.mul_comm]
  exact hsum.trans (Nat.mul_le_mul_right _ hbuckets)

end Directory

namespace Index

/-- The structure of an index under a hash function. -/
structure Sound (hash : HashFunction) (index : Index) : Prop where
  directory : index.directory.Sound hash
  tight : index.directory.Tight
  keys_nodup : index.directory.keys.Nodup
  size_eq : index.size.toNat = index.directory.entries.length

variable {hash : HashFunction} {index next : Index} {op : Operation} {outcome : Outcome}

/-- A new index has as much depth as its configuration asks for, which hashes are wide enough for. -/
theorem eq_of_ofConfig {config : Config} (h : ofConfig config = .ok index) :
    config.initialDepth ≤ hashBits ∧ index = ⟨.ofDepth config.initialDepth, 0⟩ := by
  have hdepth : config.initialDepth ≤ hashBits := by
    by_contra hlt
    simp [ofConfig, Config.validate, Nat.lt_of_not_le hlt, bind, Except.bind] at h
  refine ⟨hdepth, ?_⟩
  simpa [ofConfig, Config.validate, Nat.not_lt.mpr hdepth, bind, Except.bind, pure, Except.pure] using h.symm

/-- A new index is sound. -/
theorem sound_of_ofConfig {config : Config} (h : ofConfig config = .ok index) : index.Sound hash := by
  obtain ⟨hdepth, rfl⟩ := eq_of_ofConfig h
  refine ⟨Directory.sound_ofDepth hdepth, ?_, ?_, ?_⟩
  · exact ⟨0, _, Directory.holds_ofDepth_iff.mpr ⟨Nat.two_pow_pos _, rfl⟩, rfl⟩
  · simp [Directory.keys]
  · simp

/-- Counting one more entry does not overflow. -/
theorem Sound.size_add_one {directory : Directory} {entry : Entry} (hsound : index.Sound hash)
    (hdirectory : directory.Sound hash) (hadded : directory.entries ~ entry :: index.directory.entries) :
    (index.size + 1).toNat = directory.entries.length := by
  have hle := hdirectory.length_entries_le
  rw [hadded.length_eq, List.length_cons] at hle ⊢
  have hroom : bucketCapacity * 2 ^ hashBits = 2 ^ 34 := by decide
  have hone : (1 : UInt64).toNat = 1 := rfl
  rw [UInt64.toNat_add, hsound.size_eq, hone, Nat.mod_eq_of_lt (by omega)]

/-- Counting one entry less does not underflow. -/
theorem Sound.size_sub_one {directory : Directory} {entry : Entry} (hsound : index.Sound hash)
    (hbefore : index.directory.entries ~ entry :: directory.entries) :
    (index.size - 1).toNat = directory.entries.length := by
  have hsize := hsound.size_eq
  rw [hbefore.length_eq, List.length_cons] at hsize
  have hone : (1 : UInt64).toNat = 1 := rfl
  have hle : (1 : UInt64) ≤ index.size := by
    rw [UInt64.le_iff_toNat_le, hone]
    omega
  rw [UInt64.toNat_sub_of_le _ _ hle, hone]
  omega

/-- An effect keeps the count equal to the number of entries. -/
theorem Effect.size_eq (h : Effect index op outcome next) (hsound : index.Sound hash)
    (hdirectory : next.directory.Sound hash) : next.size.toNat = next.directory.entries.length := by
  cases h with
  | added hkey hadded => exact hsound.size_add_one hdirectory hadded
  | removed hbefore => exact hsound.size_sub_one hbefore
  | replaced hkey hbefore hafter =>
    have hsize := hsound.size_eq
    rwa [hbefore.length_eq, List.length_cons, ← List.length_cons, ← hafter.length_eq] at hsize
  | read => exact hsound.size_eq
  | present => exact hsound.size_eq
  | refused => exact hsound.size_eq
  | updateIdle => exact hsound.size_eq
  | removeIdle => exact hsound.size_eq

namespace Transition

/-- A transition of a sound index is a change of its directory. -/
theorem change (h : Transition hash index op outcome next) (hsound : index.directory.Sound hash) :
    index.directory.Change hash next.directory := by
  cases h with
  | appended hfound hplace =>
    obtain ⟨hb, hcovers⟩ := hsound.of_lookUp hfound
    obtain ⟨-, hroom, rfl⟩ := Bucket.place_eq_appended_iff.mp hplace
    exact .store hb ((hsound.bucket_sound hb).push hroom hcovers) ⟨rfl, rfl⟩
  | split hfound hplace hsplit hpublish =>
    have hwithin := splitWithin_deepen hsound hfound (Bucket.splitsInto_of_splitRounds hsplit)
    exact .split hwithin (hwithin.publication_of_publishAll hpublish)
  | updated hfound hupdate =>
    obtain ⟨hb, hcovers⟩ := hsound.of_lookUp hfound
    exact .store hb ((hsound.bucket_sound hb).update hcovers hupdate) (Bucket.class_eq_of_update? hupdate)
  | removed hfound hremove =>
    obtain ⟨hb, -⟩ := hsound.of_lookUp hfound
    exact .store hb ((hsound.bucket_sound hb).remove hremove) (Bucket.class_eq_of_remove? hremove)
  | read => exact .nothing
  | present => exact .nothing
  | inseparable => exact .nothing
  | updateIdle => exact .nothing
  | removeIdle => exact .nothing

/-- An insertion into a bucket that asks for more depth makes the directory deeper. -/
theorem depth_lt {entry : Entry} {found : Located} {depth : Nat}
    (h : Transition hash index (.insert entry) outcome next) (hsound : index.directory.Sound hash)
    (hfound : index.directory.lookUp (hash entry.key) = .ok found)
    (hplace : found.bucket.place hash (hash entry.key) entry = .crowded depth)
    (hdepth : index.directory.depth < depth) : index.directory.depth < next.directory.depth := by
  cases h with
  | split hfound' _ hsplit hpublish =>
    obtain rfl := Except.ok.inj (hfound.symm.trans hfound')
    obtain ⟨_, hsplit', hsplits, hrequired⟩ := Bucket.exists_splitFor_of_crowded hplace
    obtain rfl := Except.ok.inj (hsplit.symm.trans hsplit')
    have hpub := (splitWithin_deepen hsound hfound hsplits).publication_of_publishAll hpublish
    rw [hpub.depth_eq, Directory.store, Directory.depth_deepen, hrequired]
    exact Nat.lt_of_lt_of_le hdepth (Nat.le_max_right _ _)
  | present hfound' hplace' =>
    obtain rfl := Except.ok.inj (hfound.symm.trans hfound')
    cases hplace.symm.trans hplace'
  | appended hfound' hplace' =>
    obtain rfl := Except.ok.inj (hfound.symm.trans hfound')
    cases hplace.symm.trans hplace'
  | inseparable hfound' hplace' =>
    obtain rfl := Except.ok.inj (hfound.symm.trans hfound')
    cases hplace.symm.trans hplace'

/-- Transitions keep an index sound. -/
theorem sound (h : Transition hash index op outcome next) (hsound : index.Sound hash) :
    next.Sound hash := by
  have hchange := h.change hsound.directory
  have heffect := h.effect hsound.directory hsound.keys_nodup
  have hdirectory := hchange.sound hsound.directory
  exact ⟨hdirectory, hchange.tight hsound.tight, heffect.keys_nodup hsound.keys_nodup,
    heffect.size_eq hsound hdirectory⟩

end Transition

end Index

end ExtendibleHashing
