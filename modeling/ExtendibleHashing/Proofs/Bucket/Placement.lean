import ExtendibleHashing.Proofs.Bucket.Partition
import Mathlib.Tactic.SplitIfs

/-!
# What a bucket makes of a new entry

`place` tries three questions in a row: whether the key is stored, whether there is room, and
whether a split separates the hashes. Each answer is characterised here by the state of the bucket,
and a crowded bucket is shown to come apart into parts, the deepest of the depth it asks for.
-/

namespace ExtendibleHashing.Bucket

variable {hash : HashFunction} {newHash : HashValue} {entry : Entry} {b : Bucket}

/-- The questions in the order they are asked. -/
theorem place_eq (hash : HashFunction) (newHash : HashValue) (entry : Entry) (b : Bucket) :
    b.place hash newHash entry =
      if entry.key ∈ b.keys then .present
      else if b.isFull = false then .appended (b.push entry)
      else (b.separatingDepth? hash newHash).elim .inseparable .crowded := by
  simp only [← position?_isSome_iff, place]
  split
  · rfl
  · cases hfull : b.isFull with
    | false => simp [append, hfull, push]
    | true => cases hdepth : b.separatingDepth? hash newHash <;> simp [append, hfull]

/-- An entry is present when its key is stored. -/
theorem place_eq_present_iff : b.place hash newHash entry = .present ↔ entry.key ∈ b.keys := by
  rw [place_eq]
  split_ifs with hkey hroom
  · simpa using hkey
  · simpa using hkey
  · cases b.separatingDepth? hash newHash <;> simpa using hkey

/-- An entry with a new key is appended when there is room. -/
theorem place_eq_appended_iff {b' : Bucket} :
    b.place hash newHash entry = .appended b' ↔
      entry.key ∉ b.keys ∧ b.isFull = false ∧ b' = b.push entry := by
  rw [place_eq]
  split_ifs with hkey hroom
  · simp [hkey]
  · simp [hkey, hroom, eq_comm]
  · cases b.separatingDepth? hash newHash <;> simp [hroom]

/-- An entry with a new key crowds a full bucket that separates from its hash. -/
theorem place_eq_crowded_iff {depth : Nat} :
    b.place hash newHash entry = .crowded depth ↔
      entry.key ∉ b.keys ∧ b.isFull = true ∧ b.separatingDepth? hash newHash = some depth := by
  rw [place_eq]
  split_ifs with hkey hroom
  · simp [hkey]
  · simp [hroom]
  · cases b.separatingDepth? hash newHash <;> simp [hkey, hroom]

/-- An entry with a new key is inseparable from a full bucket whose hashes agree with its own on
every bit from the local depth on. -/
theorem place_eq_inseparable_iff :
    b.place hash newHash entry = .inseparable ↔
      entry.key ∉ b.keys ∧ b.isFull = true ∧ b.separatingDepth? hash newHash = none := by
  rw [place_eq]
  split_ifs with hkey hroom
  · simp [hkey]
  · simp [hroom]
  · cases b.separatingDepth? hash newHash <;> simp [hkey, hroom]

/-- The depth that the deepest part of a split bucket asks for. -/
def requiredDepth (outcome : Bucket × List Bucket) : Nat :=
  outcome.2.foldl (fun depth b => max depth b.localDepth) outcome.1.localDepth

/-- The required depth is the largest local depth of the parts. -/
theorem requiredDepth_spec (outcome : Bucket × List Bucket) :
    (∀ c ∈ parts outcome, c.localDepth ≤ requiredDepth outcome) ∧
      ∃ c ∈ parts outcome, c.localDepth = requiredDepth outcome := by
  obtain ⟨kept, created⟩ := outcome
  change (∀ c ∈ kept :: created, c.localDepth ≤ created.foldl _ kept.localDepth) ∧
    ∃ c ∈ kept :: created, c.localDepth = created.foldl _ kept.localDepth
  induction created generalizing kept with
  | nil => simp
  | cons x rest ih =>
    -- the fold goes on with the deeper of the two in front
    rcases Nat.le_total kept.localDepth x.localDepth with hle | hle
    · obtain ⟨hall, hsome⟩ := ih x
      rw [List.foldl_cons, Nat.max_eq_right hle]
      have hx := hall x List.mem_cons_self
      exact ⟨List.forall_mem_cons.mpr ⟨hle.trans hx, hall⟩, List.exists_mem_cons_of_exists hsome⟩
    · obtain ⟨hall, c, hc, heq⟩ := ih kept
      rw [List.foldl_cons, Nat.max_eq_left hle]
      rw [List.forall_mem_cons] at hall
      refine ⟨by simpa [hle.trans hall.1] using hall, c, ?_, heq⟩
      rcases List.mem_cons.mp hc with rfl | hc
      · exact List.mem_cons_self
      · exact List.mem_cons_of_mem _ (List.mem_cons_of_mem _ hc)

/-- A full bucket whose hashes separate comes apart, and its deepest part is as deep as that takes. -/
theorem exists_splitFor_of_separatingDepth? {depth : Nat} (hfull : b.isFull = true)
    (hdepth : b.separatingDepth? hash newHash = some depth) :
    ∃ outcome, b.splitFor hash newHash entry = .ok outcome ∧
      SplitsInto hash newHash entry b outcome ∧ requiredDepth outcome = depth := by
  obtain ⟨i, rfl, hseparates⟩ := separatingDepth?_eq_some_iff.mp hdepth
  have hlt := hseparates.lt_hashBits
  have hle := hseparates.localDepth_le
  have hrounds : b.localDepth + (hashBits - b.localDepth) = hashBits := by omega
  obtain ⟨outcome, hoc, hbound, c, hc, hdeepest⟩ := exists_splitRounds hfull hseparates hrounds
  obtain ⟨hall, d, hd, hrequired⟩ := requiredDepth_spec outcome
  refine ⟨outcome, hoc, splitsInto_of_splitRounds hoc, Nat.le_antisymm ?_ ?_⟩
  · exact hrequired ▸ hbound d hd
  · exact hdeepest ▸ hall c hc

/-- A crowded bucket comes apart, and its deepest part is as deep as it asked for. -/
theorem exists_splitFor_of_crowded {depth : Nat} (h : b.place hash newHash entry = .crowded depth) :
    ∃ outcome, b.splitFor hash newHash entry = .ok outcome ∧
      SplitsInto hash newHash entry b outcome ∧ requiredDepth outcome = depth := by
  obtain ⟨-, hfull, hdepth⟩ := place_eq_crowded_iff.mp h
  exact exists_splitFor_of_separatingDepth? hfull hdepth

end ExtendibleHashing.Bucket
