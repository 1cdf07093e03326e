import ExtendibleHashing.Proofs.Bucket.Separation
import ExtendibleHashing.Proofs.Bucket.Sound
import Mathlib.Data.List.Pairwise

/-!
# What a split bucket comes apart into

Each round of a split leaves one side behind and goes on with the side of the new hash while that
is full. `SplitsInto` follows the rounds one by one, and every fact about the outcome is an
induction along it. The parts share out the residue class of the bucket without overlap, they share
out its entries and the new one, and they are sound when the bucket was. A full bucket whose hashes
separate at some position does come apart, into parts just as deep as that position asks for.
-/

namespace ExtendibleHashing.Bucket

variable {hash : HashFunction} {newHash : HashValue} {entry : Entry}

/-- No number is in the classes of both buckets. -/
def Apart (b c : Bucket) : Prop := ∀ n, ¬ (b.Covers n ∧ c.Covers n)

instance : Std.Symm Apart := ⟨fun _ _ h n hn => h n hn.symm⟩

/-- The side of a split that a new hash belongs to. -/
def near (hash : HashFunction) (newHash : HashValue) (b : Bucket) : Bucket :=
  b.side hash (newHash.bit b.localDepth)

/-- The side of a split that a new hash does not belong to. -/
def far (hash : HashFunction) (newHash : HashValue) (b : Bucket) : Bucket :=
  b.side hash (!newHash.bit b.localDepth)

/-- The bucket itself and the new buckets after a split, in one list. -/
def parts (outcome : Bucket × List Bucket) : List Bucket := outcome.1 :: outcome.2

/-- Put the far side next to what became of the near one. The lower side keeps the place of the
bucket, so the bit of the new hash decides which of them that is. -/
def arrange (bit : Bool) (far : Bucket) (near : Bucket × List Bucket) : Bucket × List Bucket :=
  if bit then (far, near.1 :: near.2) else (near.1, far :: near.2)

/-- The rounds of a split, from a bucket to its outcome. -/
inductive SplitsInto (hash : HashFunction) (newHash : HashValue) (entry : Entry) :
    Bucket → Bucket × List Bucket → Prop
  /-- The near side has room for the new entry. -/
  | room {b : Bucket} (hdepth : b.localDepth < hashBits)
      (hroom : (b.near hash newHash).isFull = false) :
      SplitsInto hash newHash entry b
        (arrange (newHash.bit b.localDepth) (b.far hash newHash)
          ((b.near hash newHash).push entry, []))
  /-- The near side is full and is split in turn. -/
  | full {b : Bucket} {outcome : Bucket × List Bucket} (hdepth : b.localDepth < hashBits)
      (hfull : (b.near hash newHash).isFull = true)
      (hrest : SplitsInto hash newHash entry (b.near hash newHash) outcome) :
      SplitsInto hash newHash entry b
        (arrange (newHash.bit b.localDepth) (b.far hash newHash) outcome)

@[simp] theorem near_localDepth (b : Bucket) : (b.near hash newHash).localDepth = b.localDepth + 1 :=
  side_localDepth ..

@[simp] theorem far_localDepth (b : Bucket) : (b.far hash newHash).localDepth = b.localDepth + 1 :=
  side_localDepth ..

/-- Arranging only reorders the parts. -/
theorem parts_arrange_perm (bit : Bool) (far : Bucket) (near : Bucket × List Bucket) :
    (parts (arrange bit far near)).Perm (far :: parts near) := by
  cases bit with
  | false => exact List.Perm.swap ..
  | true => exact List.Perm.refl _

/-- What holds of every part holds of the far side and of the parts of the near one. -/
theorem forall_mem_parts_arrange {p : Bucket → Prop} {bit : Bool} {far : Bucket}
    {near : Bucket × List Bucket} :
    (∀ c ∈ parts (arrange bit far near), p c) ↔ p far ∧ ∀ c ∈ parts near, p c := by
  simp only [(parts_arrange_perm bit far near).mem_iff, List.forall_mem_cons]

/-- What holds of some part holds of the far side or of a part of the near one. -/
theorem exists_mem_parts_arrange {p : Bucket → Prop} {bit : Bool} {far : Bucket}
    {near : Bucket × List Bucket} :
    (∃ c ∈ parts (arrange bit far near), p c) ↔ p far ∨ ∃ c ∈ parts near, p c := by
  simp only [(parts_arrange_perm bit far near).mem_iff, List.exists_mem_cons_iff]

/-- A bucket that was not split further is its only part. -/
@[simp] theorem parts_nil (b : Bucket) : parts (b, []) = [b] := rfl

/-- One round, in terms of the near and the far side. -/
theorem splitRounds_succ (rounds : Nat) {b : Bucket} (hdepth : b.localDepth < hashBits)
    (hlength : b.entries.length ≤ bucketCapacity) :
    splitRounds hash newHash entry (rounds + 1) b =
      if (b.near hash newHash).isFull then
        (splitRounds hash newHash entry rounds (b.near hash newHash)).map
          (arrange (newHash.bit b.localDepth) (b.far hash newHash))
      else
        .ok (arrange (newHash.bit b.localDepth) (b.far hash newHash)
          ((b.near hash newHash).push entry, [])) := by
  have hsplit : b.split hash = .ok (b.lower hash, b.upper hash) := by
    rw [split, if_neg (Nat.not_le.mpr hdepth), if_neg (Nat.not_lt.mpr hlength)]
  rw [splitRounds, hsplit]
  cases hbit : newHash.bit b.localDepth with
  | false =>
    cases hfull : (b.lower hash).isFull with
    | false => simp [bind, Except.bind, pure, Except.pure, near, far, side, hbit, append, hfull, arrange, push]
    | true =>
      cases hrest : splitRounds hash newHash entry rounds (b.lower hash) <;>
        simp [bind, Except.bind, pure, Except.pure, near, far, side, hbit, append, hfull, arrange, hrest, Except.map]
  | true =>
    cases hfull : (b.upper hash).isFull with
    | false => simp [bind, Except.bind, pure, Except.pure, near, far, side, hbit, append, hfull, arrange, push]
    | true =>
      cases hrest : splitRounds hash newHash entry rounds (b.upper hash) <;>
        simp [bind, Except.bind, pure, Except.pure, near, far, side, hbit, append, hfull, arrange, hrest, Except.map]

/-- A split that succeeds goes through the rounds of `SplitsInto`. -/
theorem splitsInto_of_splitRounds {rounds : Nat} {b : Bucket} {outcome : Bucket × List Bucket}
    (h : splitRounds hash newHash entry rounds b = .ok outcome) :
    SplitsInto hash newHash entry b outcome := by
  induction rounds generalizing b outcome with
  | zero => simp [splitRounds] at h
  | succ rounds ih =>
    by_cases hdepth : b.localDepth < hashBits
    · by_cases hlength : b.entries.length ≤ bucketCapacity
      · rw [splitRounds_succ rounds hdepth hlength] at h
        split at h
        next hfull =>
          cases hrest : splitRounds hash newHash entry rounds (b.near hash newHash) with
          | error fault => simp [hrest, Except.map] at h
          | ok rest =>
            obtain rfl : arrange _ _ rest = outcome := by simpa [hrest, Except.map] using h
            exact .full hdepth hfull (ih hrest)
        next hroom =>
          obtain rfl := Except.ok.inj h
          exact .room hdepth (by simpa using hroom)
      · have hsplit : b.split hash = .error (.overfull b.origin) := by
          rw [split, if_neg (Nat.not_le.mpr hdepth), if_pos (Nat.lt_of_not_le hlength)]
        simp [splitRounds, hsplit, bind, Except.bind] at h
    · have hsplit : b.split hash = .error (.bitsExhausted b.origin) := by
        rw [split, if_pos (Nat.le_of_not_lt hdepth)]
      simp [splitRounds, hsplit, bind, Except.bind] at h

/-- The class of the near side holds the members with the bit of the new hash. -/
theorem covers_near_iff {b : Bucket} (hroot : b.Rooted) (n : Nat) :
    (b.near hash newHash).Covers n ↔
      b.Covers n ∧ n.testBit b.localDepth = newHash.bit b.localDepth :=
  covers_side_iff hroot ..

/-- The class of the far side holds the members with the other bit. -/
theorem covers_far_iff {b : Bucket} (hroot : b.Rooted) (n : Nat) :
    (b.far hash newHash).Covers n ↔
      b.Covers n ∧ n.testBit b.localDepth ≠ newHash.bit b.localDepth := by
  rw [far, covers_side_iff hroot, Bool.eq_not]

/-- The two sides share out the class of a bucket. -/
theorem covers_iff_far_or_near (hash : HashFunction) (newHash : HashValue) {b : Bucket}
    (hroot : b.Rooted) (n : Nat) :
    b.Covers n ↔ (b.far hash newHash).Covers n ∨ (b.near hash newHash).Covers n := by
  rw [covers_far_iff hroot, covers_near_iff hroot, ← and_or_left]
  simp [ne_or_eq]

/-- The classes of the two sides do not meet. -/
theorem not_covers_near_of_covers_far {b : Bucket} (hroot : b.Rooted) {n : Nat}
    (hfar : (b.far hash newHash).Covers n) : ¬ (b.near hash newHash).Covers n := by
  intro hnear
  exact ((covers_far_iff hroot n).mp hfar).2 ((covers_near_iff hroot n).mp hnear).2

/-- The two sides share out the entries of a bucket. -/
theorem far_append_near_perm (b : Bucket) :
    ((b.far hash newHash).entries ++ (b.near hash newHash).entries).Perm b.entries := by
  rw [far, near]
  cases newHash.bit b.localDepth with
  | false => exact List.perm_append_comm.trans (b.lower_append_upper_perm hash)
  | true => exact b.lower_append_upper_perm hash

/-- The near side of a full bucket is full only if it has all the entries. -/
theorem near_entries_of_isFull {b : Bucket} (hfull : b.isFull = true)
    (hnear : (b.near hash newHash).isFull = true) : (b.near hash newHash).entries = b.entries := by
  rw [isFull_iff] at hfull hnear
  rw [near, side_entries] at hnear ⊢
  exact List.filter_eq_self.mpr (List.length_filter_eq_length_iff.mp (hnear.trans hfull.symm))

/-- A round creates a bucket at the origin of the upper side, before the rounds that split the near side. -/
theorem map_origin_arrange {b : Bucket} (hroot : b.Rooted) {near : Bucket × List Bucket}
    (hnear : near.1.origin = (b.near hash newHash).origin) :
    (arrange (newHash.bit b.localDepth) (b.far hash newHash) near).2.map (·.origin) =
      (b.origin + 2 ^ b.localDepth) :: near.2.map (·.origin) := by
  have hupper : (b.side hash true).origin = b.origin + 2 ^ b.localDepth := by
    simpa using side_origin hroot hash true
  cases hbit : newHash.bit b.localDepth with
  | false => simp [arrange, far, hbit, hupper]
  | true => simp [arrange, hnear, Bucket.near, hbit, hupper]

namespace SplitsInto

variable {b : Bucket} {outcome : Bucket × List Bucket}

/-- The bucket keeps its origin through a split. -/
theorem origin_eq (h : SplitsInto hash newHash entry b outcome) : outcome.1.origin = b.origin := by
  induction h with
  | @room b hdepth hroom =>
    cases hbit : newHash.bit b.localDepth <;> simp [arrange, near, far, side, push, lower, hbit]
  | @full b outcome hdepth hfull hrest ih =>
    cases hbit : newHash.bit b.localDepth with
    | false => simpa [arrange, near, side, lower, hbit] using ih
    | true => simp [arrange, far, side, lower, hbit]

/-- The new buckets are created in ascending order of their origins, since every round uses a higher bit
than those before it. -/
theorem origins_ascending (h : SplitsInto hash newHash entry b outcome) (hroot : b.Rooted) :
    (outcome.2.map (·.origin)).Pairwise (· < ·) ∧
      ∀ id ∈ outcome.2.map (·.origin), 2 ^ b.localDepth ≤ id := by
  induction h with
  | @room b hdepth hroom =>
    rw [map_origin_arrange hroot rfl]
    simp
  | @full b outcome hdepth hfull hrest ih =>
    obtain ⟨hascending, hlow⟩ := ih (hroot.side hash _)
    rw [near_localDepth] at hlow
    have hlt : b.origin < 2 ^ b.localDepth := hroot
    rw [map_origin_arrange hroot hrest.origin_eq]
    refine ⟨List.pairwise_cons.mpr ⟨fun id hid => ?_, hascending⟩, List.forall_mem_cons.mpr ⟨?_, fun id hid => ?_⟩⟩
    · have hle := hlow id hid
      rw [Nat.pow_succ] at hle
      omega
    · exact Nat.le_add_left _ _
    · exact (Nat.pow_le_pow_right (by decide) (Nat.le_succ _)).trans (hlow id hid)

/-- Every part is deeper than the bucket was, and no deeper than hashes are wide. -/
theorem localDepth_bounds (h : SplitsInto hash newHash entry b outcome) :
    ∀ c ∈ parts outcome, b.localDepth < c.localDepth ∧ c.localDepth ≤ hashBits := by
  induction h with
  | room hdepth hroom =>
    refine forall_mem_parts_arrange.mpr ⟨?_, ?_⟩
    · rw [far_localDepth]
      omega
    · simp only [parts_nil, List.mem_singleton, forall_eq, push, near_localDepth]
      omega
  | full hdepth hfull hrest ih =>
    refine forall_mem_parts_arrange.mpr ⟨?_, fun c hc => ?_⟩
    · rw [far_localDepth]
      omega
    · have hbounds := ih c hc
      rw [near_localDepth] at hbounds
      omega

/-- The parts share out the entries of the bucket and the new one. -/
theorem entries_perm (h : SplitsInto hash newHash entry b outcome) :
    ((parts outcome).flatMap (·.entries)).Perm (entry :: b.entries) := by
  induction h with
  | @room b hdepth hroom =>
    refine ((parts_arrange_perm ..).flatMap_right _).trans ?_
    simp only [parts_nil, List.flatMap_cons, List.flatMap_nil, List.append_nil, push]
    rw [← List.append_assoc]
    exact (List.perm_append_singleton entry _).trans ((far_append_near_perm b).cons entry)
  | @full b outcome hdepth hfull hrest ih =>
    refine ((parts_arrange_perm ..).flatMap_right _).trans ?_
    rw [List.flatMap_cons]
    exact (ih.append_left _).trans (List.perm_middle.trans ((far_append_near_perm b).cons entry))

/-- A number is in the class of the bucket exactly when it is in the class of some part. -/
theorem covers_iff (h : SplitsInto hash newHash entry b outcome) (hroot : b.Rooted) (n : Nat) :
    b.Covers n ↔ ∃ c ∈ parts outcome, c.Covers n := by
  induction h with
  | room hdepth hroom =>
    rw [covers_iff_far_or_near hash newHash hroot, exists_mem_parts_arrange]
    simp
  | full hdepth hfull hrest ih =>
    rw [covers_iff_far_or_near hash newHash hroot, exists_mem_parts_arrange, ← ih (hroot.side hash _)]

/-- No number is in the classes of two parts. -/
theorem pairwise_apart (h : SplitsInto hash newHash entry b outcome) (hroot : b.Rooted) :
    (parts outcome).Pairwise Apart := by
  induction h with
  | room hdepth hroom =>
    refine ((parts_arrange_perm ..).pairwise_iff (Std.Symm.symm _ _)).mpr ?_
    rw [parts_nil, List.pairwise_pair]
    intro n hn
    exact not_covers_near_of_covers_far hroot hn.1 hn.2
  | full hdepth hfull hrest ih =>
    refine ((parts_arrange_perm ..).pairwise_iff (Std.Symm.symm _ _)).mpr ?_
    refine List.pairwise_cons.mpr ⟨fun c hc n hn => ?_, ih (hroot.side hash _)⟩
    exact not_covers_near_of_covers_far hroot hn.1
      ((hrest.covers_iff (hroot.side hash _) n).mpr ⟨c, hc, hn.2⟩)

/-- A number is in the class of one part only. -/
theorem eq_of_covers (h : SplitsInto hash newHash entry b outcome) (hroot : b.Rooted) {c c' : Bucket}
    {n : Nat} (hc : c ∈ parts outcome) (hc' : c' ∈ parts outcome) (hcovers : c.Covers n)
    (hcovers' : c'.Covers n) : c = c' := by
  by_contra hne
  exact (h.pairwise_apart hroot).forall hc hc' hne n ⟨hcovers, hcovers'⟩

/-- The class of a new bucket lies outside that of the bucket itself. -/
theorem not_covers_of_mem_created (h : SplitsInto hash newHash entry b outcome) (hroot : b.Rooted)
    {c : Bucket} (hc : c ∈ outcome.2) {n : Nat} (hcovers : outcome.1.Covers n) : ¬ c.Covers n :=
  fun hcovers' => (List.pairwise_cons.mp (h.pairwise_apart hroot)).1 c hc n ⟨hcovers, hcovers'⟩

/-- The parts of a sound bucket that took in an entry of its class are sound. -/
theorem sound (h : SplitsInto hash (hash entry.key) entry b outcome) (hsound : b.Sound hash)
    (hcovers : b.Covers (hash entry.key).toNat) : ∀ c ∈ parts outcome, c.Sound hash := by
  have hnear {b : Bucket} (hroot : b.Rooted) (hcovers : b.Covers (hash entry.key).toNat) :
      (b.near hash (hash entry.key)).Covers (hash entry.key).toNat :=
    (covers_near_iff hroot _).mpr ⟨hcovers, rfl⟩
  induction h with
  | room hdepth hroom =>
    refine forall_mem_parts_arrange.mpr ⟨hsound.side _, ?_⟩
    rw [parts_nil, List.forall_mem_singleton]
    exact (hsound.side _).push hroom (hnear hsound.rooted hcovers)
  | full hdepth hfull hrest ih =>
    exact forall_mem_parts_arrange.mpr
      ⟨hsound.side _, ih (hsound.side _) (hnear hsound.rooted hcovers)⟩

/-- No part is deeper than need be: the entries of a full bucket and the new one agree with each part on
all its bits but the last. -/
theorem residue_above_eq (h : SplitsInto hash (hash entry.key) entry b outcome) (hsound : b.Sound hash)
    (hfull : b.isFull = true) (hcovers : b.Covers (hash entry.key).toNat) :
    ∀ c ∈ parts outcome, ∀ e ∈ entry :: b.entries,
      (hash e.key).toNat % 2 ^ (c.localDepth - 1) = c.origin % 2 ^ (c.localDepth - 1) := by
  induction h with
  | @room b hdepth hroom =>
    have hall : ∀ e ∈ entry :: b.entries, (hash e.key).toNat % 2 ^ b.localDepth = b.origin :=
      List.forall_mem_cons.mpr ⟨hcovers, hsound.covers_hash⟩
    have hside (bit : Bool) : ∀ e ∈ entry :: b.entries,
        (hash e.key).toNat % 2 ^ ((b.side hash bit).localDepth - 1) =
          (b.side hash bit).origin % 2 ^ ((b.side hash bit).localDepth - 1) := by
      rw [side_origin_above hsound.rooted hash bit, side_localDepth, Nat.add_sub_cancel]
      exact hall
    refine forall_mem_parts_arrange.mpr ⟨hside _, ?_⟩
    rw [parts_nil, List.forall_mem_singleton]
    exact hside _
  | @full b outcome hdepth hnear hrest ih =>
    have hcoversNear : (b.near hash (hash entry.key)).Covers (hash entry.key).toNat :=
      (covers_near_iff hsound.rooted _).mpr ⟨hcovers, rfl⟩
    have hbelow := ih (hsound.side _) hnear hcoversNear
    rw [near_entries_of_isFull hfull hnear] at hbelow
    refine forall_mem_parts_arrange.mpr ⟨?_, hbelow⟩
    rw [far, side_origin_above hsound.rooted, side_localDepth, Nat.add_sub_cancel]
    exact List.forall_mem_cons.mpr ⟨hcovers, hsound.covers_hash⟩

end SplitsInto

/-- Where all entries agree with the new hash on the next bit, they all are on the near side. -/
theorem near_entries_of_agreesAt {b : Bucket} (h : b.AgreesAt hash newHash b.localDepth) :
    (b.near hash newHash).entries = b.entries := by
  rw [near, side_entries, List.filter_eq_self]
  intro e he
  simpa using h e he

/-- Where some entry disagrees with the new hash on the next bit, the near side has fewer entries. -/
theorem near_length_lt_of_not_agreesAt {b : Bucket} (h : ¬ b.AgreesAt hash newHash b.localDepth) :
    (b.near hash newHash).entries.length < b.entries.length := by
  simp only [AgreesAt, not_forall] at h
  obtain ⟨e, he, hbit⟩ := h
  rw [near, side_entries, List.length_filter_lt_length_iff_exists]
  exact ⟨e, he, by simpa using hbit⟩

/-- A full bucket that separates at some position comes apart into parts just as deep as it
takes to tell the hashes apart there. -/
theorem exists_splitRounds {rounds i : Nat} {b : Bucket} (hfull : b.isFull = true)
    (hseparates : b.SeparatesAt hash newHash i) (hrounds : b.localDepth + rounds = hashBits) :
    ∃ outcome, splitRounds hash newHash entry rounds b = .ok outcome ∧
      (∀ c ∈ parts outcome, c.localDepth ≤ i + 1) ∧ ∃ c ∈ parts outcome, c.localDepth = i + 1 := by
  induction rounds generalizing b with
  | zero =>
    have hle := hseparates.localDepth_le
    have hlt := hseparates.lt_hashBits
    omega
  | succ rounds ih =>
    have hlength := (isFull_iff b).mp hfull
    have hdepth : b.localDepth < hashBits := by omega
    rw [splitRounds_succ rounds hdepth hlength.le]
    rcases Nat.eq_or_lt_of_le hseparates.localDepth_le with rfl | hlt
    · have hlt := near_length_lt_of_not_agreesAt hseparates.disagrees
      have hroom : (b.near hash newHash).isFull = false := by
        simp only [isFull, beq_eq_false_iff_ne]
        omega
      refine ⟨_, by rw [hroom]; rfl, forall_mem_parts_arrange.mpr ⟨by simp, ?_⟩,
        exists_mem_parts_arrange.mpr (.inl (far_localDepth b))⟩
      simp [push]
    · have hentries := near_entries_of_agreesAt (hseparates.agrees_below _ (Nat.le_refl _) hlt)
      have hnearFull : (b.near hash newHash).isFull = true := by
        rw [isFull_iff, hentries, hlength]
      have hagrees (j : Nat) : (b.near hash newHash).AgreesAt hash newHash j ↔ b.AgreesAt hash newHash j := by
        simp only [AgreesAt, hentries]
      have hnear : (b.near hash newHash).SeparatesAt hash newHash i := by
        refine ⟨by rwa [near_localDepth], hseparates.lt_hashBits, mt (hagrees i).mp hseparates.disagrees, ?_⟩
        intro j hj hji
        rw [near_localDepth] at hj
        exact (hagrees j).mpr (hseparates.agrees_below j (by omega) hji)
      obtain ⟨outcome, hoc, hbound, hdeepest⟩ := ih hnearFull hnear (by rw [near_localDepth]; omega)
      refine ⟨_, by rw [if_pos hnearFull, hoc]; rfl, forall_mem_parts_arrange.mpr ⟨?_, hbound⟩,
        exists_mem_parts_arrange.mpr (.inr hdeepest)⟩
      rw [far_localDepth]
      omega

end ExtendibleHashing.Bucket
