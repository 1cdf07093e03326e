import ExtendibleHashing.Proofs.Session.Path

/-!
# Sharing the directory

Who shares the directory with others keeps its depth. Buckets are put back, and new ones are published
in cells that are there already; only an insertion that was escalated would need more depth, and it does
not get the directory. Nothing of this depends on the index being sound, as each statement follows the
code to its result.
-/

namespace ExtendibleHashing

namespace Directory

variable {dir dir' : Directory}

/-- Publishing a bucket keeps the depth of the directory. -/
theorem depth_of_publish {c : Bucket} (h : dir.publish c = .ok dir') : dir'.depth = dir.depth := by
  unfold publish at h
  split at h
  next => cases h
  next => cases h
  next =>
    obtain rfl := Except.ok.inj h
    rfl

/-- Publishing buckets keeps the depth of the directory. -/
theorem depth_of_publishAll {created : List Bucket} (h : dir.publishAll created = .ok dir') :
    dir'.depth = dir.depth := by
  induction created generalizing dir with
  | nil =>
    obtain rfl := Except.ok.inj h
    rfl
  | cons c rest ih =>
    rw [publishAll, List.foldlM_cons] at h
    obtain ⟨middle, hfirst, hrest⟩ := exists_of_bind_eq_ok h
    exact (ih hrest).trans (depth_of_publish hfirst)

end Directory

namespace Index

variable {hash : HashFunction} {index next : Index} {op : Operation} {outcome : Outcome}

/-- An insertion that is over while it shares the directory kept its depth. -/
theorem depth_of_insertInPlace {entry : Entry} {found : Located} {events : List Event}
    (h : index.insertInPlace hash entry found = .ok ⟨.finished ⟨outcome, next⟩, events⟩) :
    next.directory.depth = index.directory.depth := by
  unfold insertInPlace at h
  simp only at h
  split at h
  next =>
    cases Except.ok.inj h
    rfl
  next =>
    cases Except.ok.inj h
    rfl
  next =>
    cases Except.ok.inj h
    rfl
  next =>
    split at h
    next =>
      obtain ⟨⟨kept, created⟩, -, h⟩ := exists_of_bind_eq_ok h
      obtain ⟨stored, hstore, h⟩ := exists_of_bind_eq_ok h
      obtain ⟨directory, hpublish, hstore⟩ := exists_of_bind_eq_ok hstore
      cases Except.ok.inj h
      cases Except.ok.inj hstore
      have hdepth := Directory.depth_of_publishAll hpublish
      exact hdepth
    next => cases Except.ok.inj h

/-- An operation that is over while it shares the directory kept its depth. -/
theorem depth_of_attempt {id : Nat} {events : List Event}
    (h : index.attempt hash op id = .ok ⟨.finished ⟨outcome, next⟩, events⟩) :
    next.directory.depth = index.directory.depth := by
  obtain ⟨⟨found, events⟩, -, h⟩ := exists_of_bind_eq_ok h
  cases op with
  | get =>
    cases Except.ok.inj h
    rfl
  | insert entry =>
    obtain ⟨⟨result, more⟩, hinsert, h⟩ := exists_of_bind_eq_ok h
    cases Except.ok.inj h
    exact depth_of_insertInPlace hinsert
  | update entry =>
    simp only at h
    split at h <;> cases Except.ok.inj h <;> rfl
  | remove key =>
    simp only at h
    split at h <;> cases Except.ok.inj h <;> rfl

/-- Sharing the directory, an attempt is brought to an end that keeps its depth. -/
theorem depth_of_conclude {id : Nat} {attempt : Logged Attempt} {concluded : Logged (Settled Outcome)}
    (hattempt : index.attempt hash op id = .ok attempt)
    (h : index.conclude .shared hash attempt = .ok concluded) :
    concluded.value.index.directory.depth = index.directory.depth := by
  obtain ⟨result, events⟩ := attempt
  cases result with
  | finished answer =>
    obtain rfl := Except.ok.inj h
    exact depth_of_attempt hattempt
  | escalated =>
    obtain rfl := Except.ok.inj h
    rfl

/-- Sharing the directory, an operation keeps its depth. -/
theorem depth_of_respond {settled : Logged (Settled Outcome)}
    (h : index.respond .shared (.ok hash) op = .ok settled) :
    settled.value.index.directory.depth = index.directory.depth := by
  obtain ⟨id, -, h⟩ := exists_of_bind_eq_ok h
  obtain ⟨attempt, hattempt, h⟩ := exists_of_bind_eq_ok h
  exact depth_of_conclude hattempt h

/-- Sharing the directory, a series keeps its depth. -/
theorem depth_of_respondAll {task : SeriesTask} {entries : List Entry} {settled : Logged (Settled SeriesCount)}
    (h : respondAll .shared (.ok hash) task entries index = .ok settled) :
    settled.value.index.directory.depth = index.directory.depth := by
  induction entries generalizing index settled with
  | nil =>
    obtain rfl := Except.ok.inj h
    rfl
  | cons entry rest ih =>
    obtain ⟨⟨⟨result, later⟩, events⟩, hfirst, h⟩ := exists_of_bind_eq_ok h
    have hlater := depth_of_respond hfirst
    cases result with
    | error abort =>
      obtain rfl := Except.ok.inj h
      exact hlater
    | ok outcome =>
      obtain ⟨last, hrest, h⟩ := exists_of_bind_eq_ok h
      obtain rfl := Except.ok.inj h
      exact (ih hrest).trans hlater

end Index

variable {hash : HashFunction}

/-- Sharing the directory, a request keeps its depth. -/
theorem Request.depth_of_run {request : Request} {index : Index} {response : Response}
    (h : request.run .shared (.ok hash) index = .ok response) :
    response.index.directory.depth = index.directory.depth := by
  unfold run at h
  split at h
  next =>
    obtain rfl := Except.ok.inj h
    rfl
  next =>
    cases request with
    | operate op =>
      obtain ⟨settled, hrespond, h⟩ := exists_of_bind_eq_ok h
      obtain rfl := Except.ok.inj h
      exact Index.depth_of_respond hrespond
    | series task s =>
      obtain ⟨settled, hrespond, h⟩ := exists_of_bind_eq_ok h
      obtain rfl := Except.ok.inj h
      exact Index.depth_of_respondAll hrespond
    | snapshot | table | check =>
      obtain ⟨view, -, h⟩ := exists_of_bind_eq_ok h
      obtain rfl := Except.ok.inj h
      rfl
    | scan | size | capacity | slotCount | buckets =>
      obtain rfl := Except.ok.inj h
      rfl

mutual

/-- Sharing the directory, a step keeps its depth. -/
theorem Step.depth_of_run : ∀ {step : Step} {index next : Index} {answer : Answer},
    Step.run .shared (.ok hash) step index = .ok (answer, next) →
      next.directory.depth = index.directory.depth
  | .request r, index, next, answer, h => by
    rw [Step.run] at h
    obtain ⟨response, hrun, h⟩ := exists_of_bind_eq_ok h
    cases Except.ok.inj h
    exact Request.depth_of_run hrun
  | .race .bucket meanwhile op, index, next, answer, h => by
    rw [Step.run] at h
    obtain ⟨id, -, h⟩ := exists_of_bind_eq_ok h
    obtain ⟨⟨answers, later⟩, hmeanwhile, h⟩ := exists_of_bind_eq_ok h
    obtain ⟨attempt, hattempt, h⟩ := exists_of_bind_eq_ok h
    obtain ⟨settled, hconclude, h⟩ := exists_of_bind_eq_ok h
    cases Except.ok.inj h
    exact (Index.depth_of_conclude hattempt hconclude).trans (Step.depth_of_runAll hmeanwhile)
  | .race .directory meanwhile op, index, next, answer, h => by
    rw [Step.run] at h
    obtain ⟨id, -, h⟩ := exists_of_bind_eq_ok h
    obtain ⟨⟨result, events⟩, hattempt, h⟩ := exists_of_bind_eq_ok h
    cases result with
    | finished =>
      cases Except.ok.inj h
      exact Index.depth_of_attempt hattempt
    | escalated =>
      obtain ⟨⟨answers, later⟩, hmeanwhile, h⟩ := exists_of_bind_eq_ok h
      cases Except.ok.inj h
      exact Step.depth_of_runAll hmeanwhile

/-- Sharing the directory, steps keep its depth. -/
theorem Step.depth_of_runAll : ∀ {steps : List Step} {index next : Index} {answers : List Answer},
    Step.runAll .shared (.ok hash) steps index = .ok (answers, next) →
      next.directory.depth = index.directory.depth
  | [], index, next, answers, h => by
    rw [Step.runAll_nil] at h
    cases Except.ok.inj h
    rfl
  | step :: rest, index, next, answers, h => by
    obtain ⟨answer, later, answers', -, hstep, hrest⟩ := Step.of_runAll_cons h
    exact (Step.depth_of_runAll hrest).trans (Step.depth_of_run hstep)

end

end ExtendibleHashing
