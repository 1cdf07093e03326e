import ExtendibleHashing.Hash.Hasher
import ExtendibleHashing.Proofs.Hash.Murmur
import ExtendibleHashing.Proofs.Session.Course
import ExtendibleHashing.Proofs.Session.Refusal

/-!
# Short keys under Murmur hashing

An insertion is refused only where as many stored keys as a bucket has room for have the hash of a new
key. Of the keys of up to four bytes at most four have the same Murmur hash, the new key included, so
as long as no longer key is inserted none is refused. The invariant is that all stored keys are short.
-/

namespace ExtendibleHashing

namespace Index

variable {seed : UInt32} {index next : Index} {outcome : Outcome}

/-- All stored keys have at most four bytes. -/
def HasShortKeys (index : Index) : Prop := ∀ key ∈ index.storedKeys, key.length ≤ 4

/-- Operations that insert short keys only keep it so that all stored keys are short. -/
theorem Transition.hasShortKeys {hash : HashFunction} {op : Operation} (h : Transition hash index op outcome next)
    (hsound : index.Sound hash) (hkeys : index.HasShortKeys)
    (hshort : ∀ entry, op = .insert entry → entry.key.length ≤ 4) : next.HasShortKeys := by
  intro key hkey
  rcases (h.effect hsound.directory hsound.keys_nodup).mem_storedKeys hkey with hbefore | ⟨entry, hop, rfl⟩
  · exact hkeys key hbefore
  · exact hshort entry hop

/-- Among short keys a new one never meets as many of its hash as a bucket has room for. -/
theorem HasShortKeys.card_colliding_lt (h : index.HasShortKeys) {key : Bytes} (hkey : key ∉ index.storedKeys)
    (hshort : key.length ≤ 4) :
    (index.colliding (Murmur.hash seed) (Murmur.hash seed key)).card < bucketCapacity := by
  have hnew : key ∉ index.colliding (Murmur.hash seed) (Murmur.hash seed key) := fun hmem =>
    hkey (Finset.mem_filter.mp hmem).1
  have hcard : (insert key (index.colliding (Murmur.hash seed) (Murmur.hash seed key))).card ≤ 4 := by
    apply Murmur.card_le_of_hash_eq
    · rw [Finset.forall_mem_insert]
      exact ⟨hshort, fun other hother => h other (Finset.mem_filter.mp hother).1⟩
    · rw [Finset.forall_mem_insert]
      exact ⟨rfl, fun other hother => (Finset.mem_filter.mp hother).2⟩
  rw [Finset.card_insert_of_notMem hnew] at hcard
  exact hcard

/-- Among short keys a short one is always accepted. -/
theorem Transition.eq_accepted {entry : Entry}
    (h : Transition (Murmur.hash seed) index (.insert entry) outcome next)
    (hsound : index.Sound (Murmur.hash seed)) (hkeys : index.HasShortKeys) (hshort : entry.key.length ≤ 4) :
    outcome = .accepted := by
  cases h with
  | present => rfl
  | appended => rfl
  | split => rfl
  | inseparable hfound hplace =>
    obtain ⟨hb, hcovers⟩ := hsound.directory.of_lookUp hfound
    obtain ⟨hkey, hfull⟩ := (hsound.place_eq_inseparable_iff hb hcovers).mp hplace
    exact absurd hfull (Nat.ne_of_lt (hkeys.card_colliding_lt hkey hshort))

/-- Operations on an index with short keys that insert nothing but such keys run to their end, and all
their insertions are accepted. -/
theorem exists_runAll_of_hasShortKeys (ops : List Operation) (hsound : index.Sound (Murmur.hash seed))
    (hkeys : index.HasShortKeys) (hshort : ∀ entry, .insert entry ∈ ops → entry.key.length ≤ 4) :
    ∃ answers final, Step.runAll .vacant (.ok (Murmur.hash seed))
        (ops.map fun op => .request (.operate op)) index = .ok (answers, final) ∧
      List.Forall₂ (fun op answer => ∀ entry, op = .insert entry →
        ∃ status, answer = .request (.outcome .accepted) status) ops answers := by
  induction ops generalizing index with
  | nil => exact ⟨[], index, Step.runAll_nil .., .nil⟩
  | cons op rest ih =>
    obtain ⟨outcome, later, -, -, htransition⟩ := exists_perform hsound.directory op
    obtain ⟨events, hrun⟩ := Step.exists_run_operate hsound.directory htransition
    have hfirst : ∀ entry, op = .insert entry → entry.key.length ≤ 4 := fun entry hop =>
      hshort entry (hop ▸ List.mem_cons_self)
    obtain ⟨answers, final, hruns, haccepted⟩ := ih (htransition.sound hsound)
      (htransition.hasShortKeys hsound hkeys hfirst) fun entry hmem => hshort entry (List.mem_cons_of_mem _ hmem)
    refine ⟨_, final, Step.runAll_cons hrun hruns, .cons ?_ haccepted⟩
    rintro entry rfl
    obtain rfl := htransition.eq_accepted hsound hkeys (hfirst entry rfl)
    exact ⟨_, rfl⟩

end Index

/-- Under Murmur hashing with any seed, an index of any configuration accepts every insertion of a
sequence of operations in which no key of more than four bytes is inserted. -/
theorem insert_accepted_of_short_keys (seed : UInt32) {config : Config} {start : Index}
    (hstart : Index.ofConfig config = .ok start) (ops : List Operation)
    (hshort : ∀ entry, .insert entry ∈ ops → entry.key.length ≤ 4) :
    ∃ answers final, Step.runAll .vacant (Hasher.murmur seed).function
        (ops.map fun op => .request (.operate op)) start = .ok (answers, final) ∧
      List.Forall₂ (fun op answer => ∀ entry, op = .insert entry →
        ∃ status, answer = .request (.outcome .accepted) status) ops answers := by
  have hsound : start.Sound (Murmur.hash seed) := Index.sound_of_ofConfig hstart
  have hkeys : start.HasShortKeys := by
    obtain ⟨-, rfl⟩ := Index.eq_of_ofConfig hstart
    intro key hkey
    simp [Index.storedKeys, Directory.keys] at hkey
  exact Index.exists_runAll_of_hasShortKeys ops hsound hkeys hshort

/-- The empty key, a zero byte and two of them are read as the same word, and all are accepted. -/
theorem insert_accepted_of_zero_bytes :
    ∃ status₁ status₂ status₃ final, Index.ofConfig ⟨2⟩ = .ok ⟨.ofDepth 2, 0⟩ ∧
      Step.runAll .vacant (Hasher.murmur 42).function
          ([.insert ⟨[], []⟩, .insert ⟨[0], []⟩, .insert ⟨[0, 0], []⟩].map fun op => .request (.operate op))
          ⟨.ofDepth 2, 0⟩ =
        .ok ([.request (.outcome .accepted) status₁, .request (.outcome .accepted) status₂,
          .request (.outcome .accepted) status₃], final) := by
  have hstart : Index.ofConfig ⟨2⟩ = .ok ⟨.ofDepth 2, 0⟩ := rfl
  have hshort : ∀ entry, Operation.insert entry ∈ [.insert ⟨[], []⟩, .insert ⟨[0], []⟩, .insert ⟨[0, 0], []⟩] →
      entry.key.length ≤ 4 := by
    simp
  obtain ⟨answers, final, hrun, haccepted⟩ := insert_accepted_of_short_keys 42 hstart
    [.insert ⟨[], []⟩, .insert ⟨[0], []⟩, .insert ⟨[0, 0], []⟩] hshort
  obtain ⟨_, _, hfirst, hlater, rfl⟩ := List.forall₂_cons_left_iff.mp haccepted
  obtain ⟨_, _, hsecond, hlast, rfl⟩ := List.forall₂_cons_left_iff.mp hlater
  obtain ⟨_, _, hthird, hnone, rfl⟩ := List.forall₂_cons_left_iff.mp hlast
  obtain rfl := List.forall₂_nil_left_iff.mp hnone
  obtain ⟨status₁, rfl⟩ := hfirst _ rfl
  obtain ⟨status₂, rfl⟩ := hsecond _ rfl
  obtain ⟨status₃, rfl⟩ := hthird _ rfl
  exact ⟨status₁, status₂, status₃, final, hstart, hrun⟩

end ExtendibleHashing
