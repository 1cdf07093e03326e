import ExtendibleHashing.Proofs.Session.FiniteMap
import ExtendibleHashing.Proofs.Session.Linearizability

/-!
# Serial sessions

However deep its races are nested, a session takes effect as a series of requests, one after the
other: the operation of a race comes after the steps that were run in its middle, and these are put in
a row in the same way. The replies are the same, with the same size and depth of the index after each,
and so is the index in the end. The steps in the middle of a race may share the directory but are
compared with requests that do not, so this too is about sessions in which nothing waits for the
directory. Put in a row, these sessions as well are histories of a finite map.
-/

namespace ExtendibleHashing

mutual

/-- The requests of an answered step in the order in which they take effect. -/
def Step.serial : Step → Answer → List Request
  | .request r, _ => [r]
  | .race _ _ op, .request _ _ => [.operate op]
  | .race _ _ op, .race _ none _ => [.operate op]
  | .race _ meanwhile op, .race _ (some answers) _ => Step.serialAll meanwhile answers ++ [.operate op]

/-- The requests of answered steps in the order in which they take effect. -/
def Step.serialAll : List Step → List Answer → List Request
  | step :: rest, answer :: answers => step.serial answer ++ Step.serialAll rest answers
  | _, _ => []

end

/-- A reply, and the size and the depth of the index after it. -/
structure Reply.Record where
  reply : Reply
  size : Nat
  depth : Nat

/-- The record of a reply. -/
def Reply.record (reply : Reply) (status : Status) : Reply.Record := ⟨reply, status.size, status.depth⟩

mutual

/-- The replies in an answer in the order in which the requests take effect. -/
def Answer.serial : Answer → List Reply.Record
  | .request reply status => [reply.record status]
  | .race reply none status => [reply.record status]
  | .race reply (some answers) status => Answer.serialAll answers ++ [reply.record status]

/-- The replies in answers in the order in which the requests take effect. -/
def Answer.serialAll : List Answer → List Reply.Record
  | [] => []
  | answer :: rest => answer.serial ++ Answer.serialAll rest

end

/-- Replies to steps that were run one list after the other are in a row. -/
theorem Answer.serialAll_append (answers rest : List Answer) :
    Answer.serialAll (answers ++ rest) = Answer.serialAll answers ++ Answer.serialAll rest := by
  induction answers with
  | nil => rfl
  | cons answer answers ih =>
    rw [List.cons_append, Answer.serialAll, ih, Answer.serialAll, List.append_assoc]

/-- None of these replies was broken off waiting for the directory. -/
def Unblocked (records : List Reply.Record) : Prop :=
  ∀ record ∈ records, record.reply ≠ .aborted .deadlock

/-- The reply to a step is one of the replies in its answer. -/
theorem Unblocked.not_blocked {answer : Answer} (h : Unblocked answer.serial) : ¬ answer.Blocked := by
  cases answer with
  | request reply status => exact h (reply.record status) (List.mem_singleton_self _)
  | race reply raced? status =>
    cases raced? with
    | none => exact h (reply.record status) (List.mem_singleton_self _)
    | some answers =>
      have hmem : reply.record status ∈ Answer.serial (.race reply (some answers) status) := by
        rw [Answer.serial]
        exact List.mem_append_right _ (List.mem_singleton_self _)
      exact h _ hmem

/-- Steps were not blocked when none of their replies was. -/
theorem Unblocked.forall_not_blocked {answers : List Answer} (h : Unblocked (Answer.serialAll answers)) :
    ∀ answer ∈ answers, ¬ answer.Blocked := by
  induction answers with
  | nil => exact fun _ hanswer => absurd hanswer List.not_mem_nil
  | cons answer rest ih =>
    rw [Answer.serialAll, Unblocked, List.forall_mem_append] at h
    exact List.forall_mem_cons.mpr ⟨Unblocked.not_blocked h.1, ih h.2⟩

variable {hash : HashFunction}

/-- Requests in a row, and one more after them. -/
theorem Step.exists_runAll_concat {index later next : Index} {requests : List Request} {op : Operation}
    {answers : List Answer} {reply : Reply} {status status' : Status}
    (hfirst : Step.runAll .vacant (.ok hash) (requests.map .request) index = .ok (answers, later))
    (hlast : Step.run .vacant (.ok hash) (.request (.operate op)) later = .ok (.request reply status', next))
    (hsize : status'.size = status.size) (hdepth : status'.depth = status.depth) :
    ∃ answers', Step.runAll .vacant (.ok hash) ((requests ++ [Request.operate op]).map .request) index =
        .ok (answers', next) ∧
      Answer.serialAll answers' = Answer.serialAll answers ++ [reply.record status] := by
  refine ⟨answers ++ [.request reply status'], ?_, ?_⟩
  · rw [List.map_append]
    exact Step.runAll_append hfirst (Step.runAll_cons hlast (Step.runAll_nil ..))
  · rw [Answer.serialAll_append, Answer.serialAll, Answer.serialAll, Answer.serial, List.append_nil,
      Reply.record, hsize, hdepth]
    rfl

mutual

/-- A step takes effect as its requests do one after the other. -/
theorem Step.exists_serial : ∀ (step : Step) {index next : Index} {answer : Answer}, index.Sound hash →
    Step.run .vacant (.ok hash) step index = .ok (answer, next) → Unblocked answer.serial →
    ∃ answers, Step.runAll .vacant (.ok hash) ((step.serial answer).map .request) index =
      .ok (answers, next) ∧ Answer.serialAll answers = answer.serial
  | .request r, index, next, answer, hsound, hrun, _ => by
    rw [Step.serial]
    refine ⟨[answer], Step.runAll_cons hrun (Step.runAll_nil ..), ?_⟩
    rw [Answer.serialAll, Answer.serialAll, List.append_nil]
  | .race .bucket meanwhile op, index, next, answer, hsound, hrun, hunblocked => by
    obtain ⟨reply, answers, events, events', later, last, hrace, hmeanwhile, hop⟩ :=
      Step.exists_bucket_race hsound .vacant meanwhile op
    obtain ⟨rfl, rfl⟩ := Prod.mk.inj (Except.ok.inj (hrace.symm.trans hrun))
    rw [Answer.serial, Unblocked, List.forall_mem_append] at hunblocked
    have hvacant := Step.runAll_vacant hmeanwhile (Unblocked.forall_not_blocked hunblocked.1)
    obtain ⟨answers', hfirst, hsame⟩ := Step.exists_serialAll meanwhile hsound hvacant hunblocked.1
    rw [Step.serial, Answer.serial, ← hsame]
    exact Step.exists_runAll_concat hfirst hop rfl rfl
  | .race .directory meanwhile op, index, next, answer, hsound, hrun, hunblocked => by
    obtain ⟨reply, raced?, events, last, hrace, halone, hreached⟩ :=
      Step.exists_directory_race hsound meanwhile op
    obtain ⟨rfl, rfl⟩ := Prod.mk.inj (Except.ok.inj (hrace.symm.trans hrun))
    cases raced? with
    | none =>
      obtain ⟨events', hop⟩ := halone rfl
      rw [Step.serial, Answer.serial]
      exact ⟨_, Step.runAll_cons hop (Step.runAll_nil ..), rfl⟩
    | some answers =>
      obtain ⟨events', later, hvacant, hop⟩ := hreached answers rfl
      rw [Answer.serial, Unblocked, List.forall_mem_append] at hunblocked
      obtain ⟨answers', hfirst, hsame⟩ := Step.exists_serialAll meanwhile hsound hvacant hunblocked.1
      rw [Step.serial, Answer.serial, ← hsame]
      exact Step.exists_runAll_concat hfirst hop rfl rfl

/-- Steps take effect as their requests do one after the other. -/
theorem Step.exists_serialAll : ∀ (steps : List Step) {index next : Index} {answers : List Answer},
    index.Sound hash → Step.runAll .vacant (.ok hash) steps index = .ok (answers, next) →
    Unblocked (Answer.serialAll answers) →
    ∃ answers', Step.runAll .vacant (.ok hash) ((Step.serialAll steps answers).map .request) index =
      .ok (answers', next) ∧ Answer.serialAll answers' = Answer.serialAll answers
  | [], index, next, answers, _, hrun, _ => by
    rw [Step.runAll_nil] at hrun
    obtain ⟨rfl, rfl⟩ := Prod.mk.inj (Except.ok.inj hrun)
    exact ⟨[], Step.runAll_nil .., rfl⟩
  | step :: rest, index, next, answers, hsound, hrun, hunblocked => by
    obtain ⟨answer, later, answers, rfl, hstep, hrest⟩ := Step.of_runAll_cons hrun
    rw [Answer.serialAll, Unblocked, List.forall_mem_append] at hunblocked
    have hlater := (Step.path_of_run hsound hstep).sound hsound
    obtain ⟨first, hfirst, hsame⟩ := Step.exists_serial step hsound hstep hunblocked.1
    obtain ⟨last, hlast, hsame'⟩ := Step.exists_serialAll rest hlater hrest hunblocked.2
    refine ⟨first ++ last, ?_, ?_⟩
    · rw [Step.serialAll, List.map_append]
      exact Step.runAll_append hfirst hlast
    · rw [Answer.serialAll_append, hsame, hsame', Answer.serialAll]

end

/-- A session in which nothing waits for the directory is answered as requests one after the other,
and leads to the same index. -/
theorem Reachable.exists_serial {index next : Index} {steps : List Step} {answers : List Answer}
    (h : Reachable hash index) (hrun : Step.runAll .vacant (.ok hash) steps index = .ok (answers, next))
    (hunblocked : Unblocked (Answer.serialAll answers)) :
    ∃ answers', Step.runAll .vacant (.ok hash) ((Step.serialAll steps answers).map .request) index =
      .ok (answers', next) ∧ Answer.serialAll answers' = Answer.serialAll answers :=
  Step.exists_serialAll steps h.sound hrun hunblocked

/-- With its races put in a row, such a session is a history of the finite map that the index stores. -/
theorem Reachable.exists_history {index next : Index} {m : Store} {steps : List Step} {answers : List Answer}
    (h : Reachable hash index) (hrep : index.Represents m)
    (hrun : Step.runAll .vacant (.ok hash) steps index = .ok (answers, next))
    (hunblocked : Unblocked (Answer.serialAll answers)) :
    ∃ answers' m', Store.History m (Step.serialAll steps answers) answers' m' ∧
      Answer.serialAll answers' = Answer.serialAll answers ∧ next.Represents m' := by
  obtain ⟨answers', hserial, hsame⟩ := h.exists_serial hrun hunblocked
  obtain ⟨_, _, m', hagain, hhistory, hrep'⟩ :=
    exists_runAll_history (Step.serialAll steps answers) h.sound hrep
  obtain ⟨rfl, rfl⟩ := Prod.mk.inj (Except.ok.inj (hserial.symm.trans hagain))
  exact ⟨answers', m', hhistory, hsame, hrep'⟩

end ExtendibleHashing
