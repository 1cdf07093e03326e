import ExtendibleHashing.Proofs.Bucket.Handover
import ExtendibleHashing.Proofs.Bucket.Placement

/-!
# Where the entries of a split bucket end up

A full bucket is split until the hashes of its entries and of the new one disagree on a bit. Up to that
bit all of them are on one side, so every round before the last leaves an empty bucket behind. The last
round alone shares out entries, between two buckets whose origins differ in that very bit. With what is
known of the parts of any split, this describes the outcome completely.
-/

namespace ExtendibleHashing.Bucket

open scoped List

variable {hash : HashFunction} {newHash : HashValue} {entry : Entry} {b : Bucket}

/-- Two buckets of one depth whose origins differ in the last bit they use and in no other. -/
structure Siblings (depth : Nat) (b c : Bucket) : Prop where
  localDepth_eq : b.localDepth = depth ∧ c.localDepth = depth
  testBit_ne_iff : ∀ i, b.origin.testBit i ≠ c.origin.testBit i ↔ i + 1 = depth

/-- The origin of a side has the bits of the bucket and after them its own. -/
theorem testBit_side_origin (hroot : b.Rooted) (hash : HashFunction) (bit : Bool) (i : Nat) :
    (b.side hash bit).origin.testBit i = if i = b.localDepth then bit else b.origin.testBit i := by
  have hclear : b.origin.testBit b.localDepth = false := Nat.testBit_lt_two_pow hroot
  cases bit with
  | false =>
    change b.origin.testBit i = _
    split
    next hi => rw [hi, hclear]
    next hi => rfl
  | true =>
    change (b.origin ||| 1 <<< b.localDepth).testBit i = _
    rw [Nat.testBit_or, Nat.one_shiftLeft, Nat.testBit_two_pow]
    split
    next hi => simp [hi]
    next hi => simp [Ne.symm hi]

/-- The two sides of a split are siblings. -/
theorem siblings_side (hroot : b.Rooted) (hash : HashFunction) (bit : Bool) :
    Siblings (b.localDepth + 1) (b.side hash bit) (b.side hash !bit) := by
  refine ⟨⟨side_localDepth .., side_localDepth ..⟩, fun i => ?_⟩
  rw [testBit_side_origin hroot, testBit_side_origin hroot]
  split
  next hi => simp [hi]
  next hi => simp [hi]

/-- While the near side of a full bucket is full, the far side is empty. -/
theorem far_entries_of_isFull (hfull : b.isFull = true) (hnear : (b.near hash newHash).isFull = true) :
    (b.far hash newHash).entries = [] := by
  have hperm : (b.far hash newHash).entries ++ (b.near hash newHash).entries ~ b.entries :=
    far_append_near_perm b
  have hlengths := hperm.length_eq
  rw [List.length_append, near_entries_of_isFull hfull hnear] at hlengths
  apply List.eq_nil_of_length_eq_zero
  omega

/-- When the near side of a full bucket has room, the far side is not empty. -/
theorem far_entries_ne_nil (hfull : b.isFull = true) (hroom : (b.near hash newHash).isFull = false) :
    (b.far hash newHash).entries ≠ [] := by
  intro hempty
  have hperm : (b.far hash newHash).entries ++ (b.near hash newHash).entries ~ b.entries :=
    far_append_near_perm b
  have hlengths := hperm.length_eq
  rw [hempty, List.nil_append, (isFull_iff b).mp hfull, ← isFull_iff, hroom] at hlengths
  exact Bool.false_ne_true hlengths

/-- The parts of a full bucket are two siblings that have entries, the one of them the new entry, and
shallower buckets that have none. -/
theorem SplitsInto.exists_siblings {outcome : Bucket × List Bucket}
    (h : SplitsInto hash newHash entry b outcome) (hroot : b.Rooted) (hfull : b.isFull = true) :
    ∃ near far others, parts outcome ~ near :: far :: others ∧ Siblings near.localDepth near far ∧
      entry ∈ near.entries ∧ far.entries ≠ [] ∧
      ∀ c ∈ others, c.entries = [] ∧ c.localDepth < near.localDepth := by
  induction h with
  | @room b hdepth hroom =>
    -- the last round: both sides are parts, and the near one has taken in the new entry
    refine ⟨(b.near hash newHash).push entry, b.far hash newHash, [], ?_, ?_, ?_,
      far_entries_ne_nil hfull hroom, by simp⟩
    · exact (parts_arrange_perm ..).trans (List.Perm.swap ..)
    · have hsides := siblings_side hroot hash (newHash.bit b.localDepth)
      rw [← side_localDepth hash (newHash.bit b.localDepth)] at hsides
      exact ⟨hsides.localDepth_eq, hsides.testBit_ne_iff⟩
    · exact List.mem_append_right _ (List.mem_singleton_self entry)
  | @full b outcome hdepth hnear hrest ih =>
    -- an earlier round: the far side is one more part without entries
    obtain ⟨near, far, others, hparts, hsiblings, hentry, hfar, hothers⟩ := ih (hroot.side hash _) hnear
    refine ⟨near, far, b.far hash newHash :: others, ?_, hsiblings, hentry, hfar, ?_⟩
    · calc
        parts (arrange _ (b.far hash newHash) outcome) ~ b.far hash newHash :: parts outcome :=
          parts_arrange_perm ..
        _ ~ b.far hash newHash :: near :: far :: others := hparts.cons _
        _ ~ near :: b.far hash newHash :: far :: others := List.Perm.swap ..
        _ ~ near :: far :: b.far hash newHash :: others := (List.Perm.swap ..).cons near
    · have hdeeper := (hrest.localDepth_bounds near (hparts.mem_iff.mpr List.mem_cons_self)).1
      rw [near_localDepth] at hdeeper
      refine List.forall_mem_cons.mpr ⟨⟨far_entries_of_isFull hfull hnear, ?_⟩, hothers⟩
      rw [far_localDepth]
      omega

/-- How a full bucket and a new entry are shared out over the bucket itself and new ones, where the
hashes take `depth` bits to tell apart. -/
structure SharedOut (hash : HashFunction) (entry : Entry) (b : Bucket) (depth : Nat) (kept : Bucket)
    (created : List Bucket) : Prop where
  /-- No entry is lost, repeated or altered. -/
  entries_perm : (kept :: created).flatMap (·.entries) ~ entry :: b.entries
  /-- Every entry is in a bucket that takes its hash. -/
  routes : ∀ c ∈ kept :: created, ∀ e ∈ c.entries, c.routes (hash e.key) = true
  length_le : ∀ c ∈ kept :: created, c.entries.length ≤ bucketCapacity
  /-- The bucket itself keeps its identity. -/
  origin_eq : kept.origin = b.origin
  origin_lt : ∀ c ∈ kept :: created, c.origin < 2 ^ c.localDepth
  /-- No number is in the classes of two buckets. -/
  disjoint : (kept :: created).Pairwise fun c c' => ∀ n, ¬ (c.Covers n ∧ c'.Covers n)
  /-- Together the classes are the one there was. -/
  covers_iff : ∀ n, b.Covers n ↔ ∃ c ∈ kept :: created, c.Covers n
  /-- Two siblings have all the entries, one of them the new one, and no other bucket has any. -/
  siblings : ∃ near ∈ kept :: created, ∃ far ∈ kept :: created, Siblings depth near far ∧
    entry ∈ near.entries ∧ far.entries ≠ [] ∧ near.entries ++ far.entries ~ entry :: b.entries ∧
    ∀ c ∈ kept :: created, c.entries ≠ [] → c = near ∨ c = far

/-- The siblings are the deepest parts, so their depth is the one that the parts ask for. -/
theorem SplitsInto.sharedOut {outcome : Bucket × List Bucket}
    (h : SplitsInto hash (hash entry.key) entry b outcome) (hsound : b.Sound hash) (hfull : b.isFull = true)
    (hcovers : b.Covers (hash entry.key).toNat) :
    SharedOut hash entry b (requiredDepth outcome) outcome.1 outcome.2 := by
  have hparts := h.sound hsound hcovers
  obtain ⟨near, far, others, hperm, hsiblings, hentry, hfar, hothers⟩ :=
    h.exists_siblings hsound.rooted hfull
  have hnear : near ∈ parts outcome := hperm.mem_iff.mpr List.mem_cons_self
  have hfarMem : far ∈ parts outcome := hperm.mem_iff.mpr (List.mem_cons_of_mem _ List.mem_cons_self)
  have hcases : ∀ c ∈ parts outcome, c = near ∨ c = far ∨ c ∈ others := fun c hc => by
    simpa only [List.mem_cons] using hperm.mem_iff.mp hc
  have hdepth : near.localDepth = requiredDepth outcome := by
    obtain ⟨hall, c, hc, hrequired⟩ := requiredDepth_spec outcome
    apply Nat.le_antisymm (hall near hnear)
    rw [← hrequired]
    rcases hcases c hc with rfl | rfl | hother
    · exact Nat.le_refl _
    · exact hsiblings.localDepth_eq.2.le
    · exact (hothers c hother).2.le
  have hempty : others.flatMap (·.entries) = [] :=
    List.flatMap_eq_nil_iff.mpr fun c hc => (hothers c hc).1
  refine ⟨h.entries_perm, fun c hc e he => ?_, fun c hc => (hparts c hc).length_le, h.origin_eq,
    fun c hc => (hparts c hc).rooted, h.pairwise_apart hsound.rooted, h.covers_iff hsound.rooted,
    near, hnear, far, hfarMem, hdepth ▸ hsiblings, hentry, hfar, ?_, fun c hc hne => ?_⟩
  · exact (routes_iff_covers (hash e.key) c).mpr ((hparts c hc).covers_hash e he)
  · have hall := (hperm.flatMap_right (·.entries)).symm.trans h.entries_perm
    rwa [List.flatMap_cons, List.flatMap_cons, hempty, List.append_nil] at hall
  · rcases hcases c hc with hc | hc | hother
    · exact .inl hc
    · exact .inr hc
    · exact absurd (hothers c hother).1 hne

/-- A full bucket with entries of its own class and a new one of the same class comes apart once their
hashes can be told apart, whether the bucket to be split next is kept track of by itself or by position.
All parts have been accounted for then: the entries and the new one are shared out between two siblings
of just the depth that was predicted, and the class of the bucket over all parts. -/
theorem splitFor_sharedOut (hash : HashFunction) (entry : Entry) (b : Bucket) {depth : Nat}
    (hroot : b.origin < 2 ^ b.localDepth) (hfull : b.isFull = true)
    (hroutes : ∀ e ∈ b.entries, b.routes (hash e.key) = true) (hnew : b.routes (hash entry.key) = true)
    (hdepth : b.separatingDepth? hash (hash entry.key) = some depth) :
    ∃ kept created, b.splitFor hash (hash entry.key) entry = .ok (kept, created) ∧
      b.splitByPosition hash (hash entry.key) entry = some (kept, created) ∧
      SharedOut hash entry b depth kept created := by
  have hsound : b.Sound hash :=
    ⟨hroot, ((isFull_iff b).mp hfull).le, fun e he => (routes_iff_covers _ b).mp (hroutes e he)⟩
  obtain ⟨⟨kept, created⟩, hsplit, hsplits, rfl⟩ := exists_splitFor_of_separatingDepth? hfull hdepth
  refine ⟨kept, created, hsplit, ?_, hsplits.sharedOut hsound hfull ((routes_iff_covers _ b).mp hnew)⟩
  rw [splitByPosition_eq, hsplit]
  rfl

/-- Three rounds on a bucket of odd hashes, where keys are hashed to their first byte: the first and the
third create the siblings, and the second leaves an empty bucket between them. -/
theorem splitFor_sharedOut_of_third_bit :
    splitFor (fun key => (key.headD 0).toUInt32) 69 ⟨[69], []⟩
        ⟨[⟨[5], [1]⟩, ⟨[21], [2]⟩, ⟨[37], [3]⟩, ⟨[53], [4]⟩], 2, 1⟩ =
        .ok (⟨[], 3, 1⟩, [⟨[⟨[5], [1]⟩, ⟨[37], [3]⟩, ⟨[69], []⟩], 5, 5⟩, ⟨[], 4, 13⟩,
          ⟨[⟨[21], [2]⟩, ⟨[53], [4]⟩], 5, 21⟩]) ∧
      SharedOut (fun key => (key.headD 0).toUInt32) ⟨[69], []⟩
        ⟨[⟨[5], [1]⟩, ⟨[21], [2]⟩, ⟨[37], [3]⟩, ⟨[53], [4]⟩], 2, 1⟩ 5 ⟨[], 3, 1⟩
        [⟨[⟨[5], [1]⟩, ⟨[37], [3]⟩, ⟨[69], []⟩], 5, 5⟩, ⟨[], 4, 13⟩, ⟨[⟨[21], [2]⟩, ⟨[53], [4]⟩], 5, 21⟩] := by
  have hdepth : separatingDepth? (fun key => (key.headD 0).toUInt32) 69
      ⟨[⟨[5], [1]⟩, ⟨[21], [2]⟩, ⟨[37], [3]⟩, ⟨[53], [4]⟩], 2, 1⟩ = some 5 := by decide
  obtain ⟨kept, created, hsplit, -, hshared⟩ := splitFor_sharedOut (fun key => (key.headD 0).toUInt32)
    ⟨[69], []⟩ ⟨[⟨[5], [1]⟩, ⟨[21], [2]⟩, ⟨[37], [3]⟩, ⟨[53], [4]⟩], 2, 1⟩ (by decide) rfl (by decide) rfl hdepth
  obtain ⟨rfl, rfl⟩ := Prod.mk.inj (Except.ok.inj hsplit)
  exact ⟨rfl, hshared⟩

end ExtendibleHashing.Bucket
