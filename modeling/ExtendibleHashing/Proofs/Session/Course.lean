import ExtendibleHashing.Proofs.Session.Refusal

/-!
# Courses of operations

Operations carried out one after the other lead an index through others to a last one. On a sound index
they always do, each by its transition, and every path of transitions is such a course. So wherever a
session arrives, however its races are nested, a course of operations leads there from a new index.
Without removals no key that was stored on the way is missing in the end.
-/

namespace ExtendibleHashing

namespace Index

/-- Carry out operations one after the other. Answers all indexes on the way, from the first one to the
last, and the last one by itself. -/
def performAll (hash : HashFunction) : List Operation → Index → Except Fault (List Index × Index)
  | [], index => .ok ([index], index)
  | op :: rest, index => do
    let ⟨answer, _⟩ ← index.perform hash op
    let (moments, final) ← performAll hash rest answer.index
    return (index :: moments, final)

/-- Operations lead through some indexes, the first and the last included, to the last. -/
inductive Course (hash : HashFunction) : Index → List Operation → List Index → Index → Prop
  | nil {index : Index} : Course hash index [] [index] index
  | cons {index later final : Index} {op : Operation} {outcome : Outcome} {ops : List Operation}
      {moments : List Index} (hfirst : Transition hash index op outcome later)
      (hrest : Course hash later ops moments final) : Course hash index (op :: ops) (index :: moments) final

variable {hash : HashFunction} {index next : Index} {op : Operation} {outcome : Outcome} {moments : List Index}

/-- Operations take a course. -/
theorem exists_performAll (hsound : index.Sound hash) (ops : List Operation) :
    ∃ moments final, index.performAll hash ops = .ok (moments, final) ∧
      Course hash index ops moments final := by
  induction ops generalizing index with
  | nil => exact ⟨_, _, rfl, .nil⟩
  | cons op rest ih =>
    obtain ⟨outcome, later, events, hperform, hfirst⟩ := exists_perform hsound.directory op
    obtain ⟨moments, final, hrest, hcourse⟩ := ih (hfirst.sound hsound)
    simp only [performAll, hperform, hrest, bind, Except.bind]
    exact ⟨_, _, rfl, .cons hfirst hcourse⟩

/-- A path is a course of operations. -/
theorem Path.exists_course (h : index.Path hash next) : ∃ ops moments, Course hash index ops moments next := by
  induction h using Relation.ReflTransGen.head_induction_on with
  | refl => exact ⟨[], [next], .nil⟩
  | head hfirst _ ih =>
    obtain ⟨op, outcome, htransition⟩ := hfirst
    obtain ⟨ops, moments, hrest⟩ := ih
    exact ⟨op :: ops, _, .cons htransition hrest⟩

/-- Only a removal takes keys away. -/
theorem Effect.storedKeys_subset (h : Effect index op outcome next) (hkeeps : ∀ key, op ≠ .remove key) :
    index.storedKeys ⊆ next.storedKeys := by
  intro key hkey
  rw [storedKeys, List.mem_toFinset] at hkey ⊢
  cases h with
  | added _ hadded =>
    rw [(Directory.keys_perm hadded).mem_iff]
    exact List.mem_cons_of_mem _ hkey
  | replaced hsame hbefore hafter =>
    rw [(Directory.keys_perm hafter).mem_iff, List.map_cons, ← hsame]
    exact (Directory.keys_perm hbefore).mem_iff.mp hkey
  | removed => exact absurd rfl (hkeeps _)
  | removeIdle => exact hkey
  | read => exact hkey
  | present => exact hkey
  | refused => exact hkey
  | updateIdle => exact hkey

/-- Only an insertion stores a new key, namely that of its entry. -/
theorem Effect.mem_storedKeys {key : Bytes} (h : Effect index op outcome next)
    (hkey : key ∈ next.storedKeys) : key ∈ index.storedKeys ∨ ∃ entry, op = .insert entry ∧ entry.key = key := by
  rw [storedKeys, List.mem_toFinset] at hkey ⊢
  cases h with
  | @added entry _ _ hadded =>
    rw [(Directory.keys_perm hadded).mem_iff, List.map_cons, List.mem_cons] at hkey
    rcases hkey with rfl | hkey
    · exact .inr ⟨entry, rfl, rfl⟩
    · exact .inl hkey
  | replaced hsame hbefore hafter =>
    rw [(Directory.keys_perm hafter).mem_iff, List.map_cons, ← hsame] at hkey
    exact .inl ((Directory.keys_perm hbefore).mem_iff.mpr hkey)
  | removed hbefore =>
    exact .inl ((Directory.keys_perm hbefore).mem_iff.mpr (List.mem_cons_of_mem _ hkey))
  | removeIdle => exact .inl hkey
  | read => exact .inl hkey
  | present => exact .inl hkey
  | refused => exact .inl hkey
  | updateIdle => exact .inl hkey

namespace Course

variable {final : Index} {ops : List Operation}

/-- The last index is one of those on the way. -/
theorem final_mem (h : Course hash index ops moments final) : final ∈ moments := by
  induction h with
  | nil => exact List.mem_cons_self
  | cons _ _ ih => exact List.mem_cons_of_mem _ ih

/-- A course keeps an index sound. -/
theorem sound (h : Course hash index ops moments final) (hsound : index.Sound hash) : final.Sound hash := by
  induction h with
  | nil => exact hsound
  | cons hfirst _ ih => exact ih (hfirst.sound hsound)

/-- A course is what the operations make of an index one after the other. -/
theorem performAll_eq (h : Course hash index ops moments final) (hsound : index.Sound hash) :
    index.performAll hash ops = .ok (moments, final) := by
  induction h with
  | nil => rfl
  | cons hfirst _ ih =>
    obtain ⟨_, _, events, hperform, hagain⟩ := exists_perform hsound.directory _
    obtain ⟨rfl, rfl⟩ := hfirst.unique hagain
    simp only [performAll, hperform, ih (hfirst.sound hsound), bind, Except.bind]
    rfl

/-- Without removals all that was ever stored is stored in the end. -/
theorem storedKeys_subset (h : Course hash index ops moments final) (hsound : index.Sound hash)
    (hkeeps : ∀ key, .remove key ∉ ops) : ∀ moment ∈ moments, moment.storedKeys ⊆ final.storedKeys := by
  induction h with
  | nil => simp
  | @cons index later final op outcome ops moments hfirst hrest ih =>
    have hlater := hfirst.sound hsound
    have hrestKeeps := ih hlater fun key hmem => hkeeps key (List.mem_cons_of_mem _ hmem)
    have heffect := hfirst.effect hsound.directory hsound.keys_nodup
    have hgrows := heffect.storedKeys_subset fun key hop => hkeeps key (hop ▸ List.mem_cons_self)
    refine List.forall_mem_cons.mpr ⟨hgrows.trans (hrestKeeps later ?_), hrestKeeps⟩
    cases hrest <;> exact List.mem_cons_self

end Course

end Index

/-- Wherever a session arrives, with races or without, operations lead there one after the other. -/
theorem Reachable.exists_performAll {hash : HashFunction} {index : Index} (h : Reachable hash index) :
    ∃ config start ops moments, Index.ofConfig config = .ok start ∧
      start.performAll hash ops = .ok (moments, index) := by
  have hpath : ∃ config start, Index.ofConfig config = .ok start ∧ start.Path hash index := by
    induction h with
    | start hconfig => exact ⟨_, _, hconfig, .refl⟩
    | step hindex hrun ih =>
      obtain ⟨config, start, hconfig, hpath⟩ := ih
      exact ⟨config, start, hconfig, hpath.trans (Step.path_of_run hindex.sound hrun)⟩
  obtain ⟨config, start, hconfig, hpath⟩ := hpath
  obtain ⟨ops, moments, hcourse⟩ := hpath.exists_course
  exact ⟨config, start, ops, moments, hconfig, hcourse.performAll_eq (Index.sound_of_ofConfig hconfig)⟩

/-- Where operations lead from a reachable index is reachable. -/
theorem Reachable.of_performAll {hash : HashFunction} {index final : Index} {ops : List Operation}
    {moments : List Index} (h : Reachable hash index)
    (hrun : index.performAll hash ops = .ok (moments, final)) : Reachable hash final := by
  obtain ⟨_, _, hrun', hcourse⟩ := Index.exists_performAll h.sound ops
  obtain ⟨rfl, rfl⟩ := Prod.mk.inj (Except.ok.inj (hrun'.symm.trans hrun))
  clear hrun hrun'
  induction hcourse with
  | nil => exact h
  | cons hfirst _ ih => exact ih (h.transition hfirst)

/-- Keys of one byte, of which the even ones fill a bucket two bits less deep than the directory. -/
def Index.lopsided : Index where
  directory := ⟨3, #[0, 1, 0, 3, 0, 5, 0, 3], #[some ⟨[⟨[2], []⟩, ⟨[6], []⟩, ⟨[10], []⟩, ⟨[14], []⟩], 1, 0⟩,
    some ⟨[⟨[1], []⟩, ⟨[9], []⟩, ⟨[17], []⟩], 3, 1⟩, none, some ⟨[], 2, 3⟩, none,
    some ⟨[⟨[5], []⟩, ⟨[13], []⟩], 3, 5⟩, none, none]⟩
  size := 9

/-- With keys hashed to their first byte, inserting the odd ones last leads there. -/
theorem reachable_lopsided : Reachable (fun key => (key.headD 0).toUInt32) .lopsided := by
  have hfull : Reachable (fun key => (key.headD 0).toUInt32)
      (.single [⟨[2], []⟩, ⟨[6], []⟩, ⟨[10], []⟩, ⟨[14], []⟩]) :=
    reachable_single _ (by decide) (by decide)
  obtain ⟨moments, final, hrun, -⟩ :=
    Index.exists_performAll hfull.sound ([[1], [5], [9], [13], [17]].map fun key => .insert ⟨key, []⟩)
  have hfinal : (Index.performAll (fun key => (key.headD 0).toUInt32)
      ([[1], [5], [9], [13], [17]].map fun key => .insert ⟨key, []⟩)
      (.single [⟨[2], []⟩, ⟨[6], []⟩, ⟨[10], []⟩, ⟨[14], []⟩])).map Prod.snd = .ok .lopsided := by
    decide +kernel
  rw [hrun] at hfinal
  exact Except.ok.inj hfinal ▸ hfull.of_performAll hrun

end ExtendibleHashing
