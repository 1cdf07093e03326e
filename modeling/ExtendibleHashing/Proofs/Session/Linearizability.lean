import ExtendibleHashing.Proofs.Session.Path

/-!
# Interrupted operations

A race is answered as if the steps in its middle had run before its operation. At a bucket the
operation holds an identity that may be out of date, but cells are never emptied, and from any bucket
it finds its way to the one its hash belongs to by now. At the directory an insertion starts over and
relies on nothing it found out before. The steps in the middle of a race at a bucket share the
directory with the operation, so the comparison is about steps that do not wait for the directory;
these run as they would with nobody sharing it. Steps that wait would make the directory deeper or
need all of it for something else, so steps that leave the depth of the directory as it was qualify.
-/

namespace ExtendibleHashing

/-- Two computations come to the same, unless the first comes to something of an excepted kind. -/
def AgreeUnless {ε α : Type} (excepted : α → Prop) (x y : Except ε α) : Prop :=
  (∀ a, x = .ok a → excepted a) ∨ x = y

namespace AgreeUnless

variable {ε α β : Type} {excepted : α → Prop} {excepted' : β → Prop}

/-- A computation agrees with itself. -/
theorem refl (x : Except ε α) : AgreeUnless excepted x x := .inr rfl

/-- Computations agree when they go on from the same result in ways that agree. -/
theorem bind_same (x : Except ε α) {f g : α → Except ε β}
    (h : ∀ a, AgreeUnless excepted' (f a) (g a)) : AgreeUnless excepted' (x >>= f) (x >>= g) := by
  cases x with
  | error e => exact .refl _
  | ok a => exact h a

/-- Computations that agree go on to agree when what is excepted first is excepted in the end. -/
theorem bind {x y : Except ε α} (hxy : AgreeUnless excepted x y) {f g : α → Except ε β}
    (hexcepted : ∀ a, excepted a → ∀ b, f a = .ok b → excepted' b)
    (h : ∀ a, AgreeUnless excepted' (f a) (g a)) : AgreeUnless excepted' (x >>= f) (y >>= g) := by
  rcases hxy with hx | rfl
  · cases x with
    | error e => exact .inl fun b hb => absurd hb nofun
    | ok a => exact .inl (hexcepted a (hx a rfl))
  · exact .bind_same x h

/-- Agreement decides on a result that is not excepted. -/
theorem eq_ok {x y : Except ε α} (h : AgreeUnless excepted x y) {a : α} (hx : x = .ok a)
    (ha : ¬ excepted a) : y = .ok a := by
  rcases h with hexcepted | rfl
  · exact absurd (hexcepted a hx) ha
  · exact hx

end AgreeUnless

/-- The reply in an answer. -/
def Answer.reply : Answer → Reply
  | .request reply _ => reply
  | .race reply _ _ => reply

/-- A step was broken off waiting for the directory. -/
def Answer.Blocked (answer : Answer) : Prop := answer.reply = .aborted .deadlock

/-- A result was broken off waiting for the directory. -/
def Settled.Blocked {α : Type} (settled : Settled α) : Prop := settled.result = .error .deadlock

/-- The reply for a blocked result says so. -/
theorem Settled.Blocked.reply_eq {α : Type} {settled : Settled α} (h : settled.Blocked) (reply : α → Reply) :
    settled.reply reply = .aborted .deadlock := by
  simp only [Settled.reply, show settled.result = .error .deadlock from h]

variable (hash : HashFunction) (index : Index)

namespace Index

/-- Sharing the directory makes no difference to an attempt that is not blocked. -/
theorem conclude_shared (attempt : Logged Attempt) :
    AgreeUnless (fun r => r.value.Blocked) (index.conclude .shared hash attempt)
      (index.conclude .vacant hash attempt) := by
  obtain ⟨result, events⟩ := attempt
  cases result with
  | finished => exact .refl _
  | escalated =>
    refine .inl fun r hr => ?_
    obtain rfl := Except.ok.inj hr
    rfl

/-- Sharing the directory makes no difference to an operation that is not blocked. -/
theorem respond_shared (op : Operation) :
    AgreeUnless (fun r => r.value.Blocked) (index.respond .shared (.ok hash) op)
      (index.respond .vacant (.ok hash) op) :=
  .bind_same _ fun _ => .bind_same _ fun attempt => conclude_shared hash index attempt

/-- Sharing the directory makes no difference to a series that is not blocked. -/
theorem respondAll_shared (task : SeriesTask) (entries : List Entry) :
    AgreeUnless (fun r => r.value.Blocked) (respondAll .shared (.ok hash) task entries index)
      (respondAll .vacant (.ok hash) task entries index) := by
  induction entries generalizing index with
  | nil => exact .refl _
  | cons entry rest ih =>
    refine .bind (respond_shared hash index (task.operation entry)) ?_ ?_
    · rintro ⟨⟨result, next⟩, events⟩ hblocked r hr
      obtain rfl : result = .error .deadlock := hblocked
      obtain rfl := Except.ok.inj hr
      rfl
    · rintro ⟨⟨result, next⟩, events⟩
      cases result with
      | error => exact .refl _
      | ok outcome =>
        refine .bind (ih next) ?_ fun _ => .refl _
        rintro ⟨⟨result, last⟩, more⟩ hblocked r hr
        obtain rfl : result = .error .deadlock := hblocked
        obtain rfl := Except.ok.inj hr
        rfl

end Index

/-- Sharing the directory makes no difference to a request that is not blocked. -/
theorem Request.run_shared (request : Request) :
    AgreeUnless (fun r => r.reply = .aborted .deadlock) (request.run .shared (.ok hash) index)
      (request.run .vacant (.ok hash) index) := by
  by_cases hview : request.isView = true
  · refine .inl fun r hr => ?_
    rw [run.eq_def, if_pos ⟨hview, rfl⟩] at hr
    obtain rfl := Except.ok.inj hr
    rfl
  · rw [run.eq_def, run.eq_def, if_neg (fun h => hview h.1), if_neg (fun h => hview h.1)]
    cases request with
    | operate op =>
      refine .bind (Index.respond_shared hash index op) ?_ fun _ => .refl _
      intro settled hblocked r hr
      obtain rfl := Except.ok.inj hr
      exact hblocked.reply_eq _
    | series task s =>
      refine .bind (Index.respondAll_shared hash index task s.entries) ?_ fun _ => .refl _
      intro settled hblocked r hr
      obtain rfl := Except.ok.inj hr
      exact hblocked.reply_eq _
    | scan => exact .refl _
    | size => exact .refl _
    | capacity => exact .refl _
    | slotCount => exact .refl _
    | buckets => exact .refl _
    | snapshot => exact .refl _
    | table => exact .refl _
    | check => exact .refl _

/-- Sharing the directory makes no difference to a step that is not blocked. -/
theorem Step.run_shared (step : Step) :
    AgreeUnless (fun r => r.1.Blocked) (Step.run .shared (.ok hash) step index)
      (Step.run .vacant (.ok hash) step index) := by
  cases step with
  | request r =>
    simp only [Step.run]
    refine .bind (r.run_shared hash index) ?_ fun _ => .refl _
    intro response hblocked result hresult
    obtain rfl := Except.ok.inj hresult
    exact hblocked
  | race point meanwhile op =>
    simp only [Step.run]
    refine .bind_same _ fun id => ?_
    cases point with
    | bucket =>
      refine .bind_same _ fun later => .bind_same _ fun attempt => ?_
      refine .bind (Index.conclude_shared hash later.2 attempt) ?_ fun _ => .refl _
      intro settled hblocked result hresult
      obtain rfl := Except.ok.inj hresult
      exact hblocked.reply_eq _
    | directory =>
      refine .bind_same _ fun attempt => ?_
      obtain ⟨result, events⟩ := attempt
      cases result with
      | finished => exact .refl _
      | escalated entry =>
        -- whoever shares the directory, the insertion waits for it
        refine .inl fun r hr => ?_
        obtain ⟨later, -, hr⟩ := exists_of_bind_eq_ok hr
        obtain rfl := Except.ok.inj hr
        rfl

variable {hash index}

/-- Steps that were not blocked while the directory was shared run just so when it is not. -/
theorem Step.runAll_vacant {next : Index} {steps : List Step} {answers : List Answer}
    (h : Step.runAll .shared (.ok hash) steps index = .ok (answers, next))
    (hanswers : ∀ answer ∈ answers, ¬ answer.Blocked) :
    Step.runAll .vacant (.ok hash) steps index = .ok (answers, next) := by
  induction steps generalizing index answers with
  | nil =>
    rw [Step.runAll_nil] at h ⊢
    exact h
  | cons step rest ih =>
    obtain ⟨answer, later, answers, rfl, hstep, hrest⟩ := Step.of_runAll_cons h
    obtain ⟨hanswer, hanswers⟩ := List.forall_mem_cons.mp hanswers
    exact Step.runAll_cons ((Step.run_shared hash index step).eq_ok hstep hanswer) (ih hrest hanswers)

/-- What may go on in the middle of a race for its operation to finish: at a bucket, steps that do not
wait for the directory; at the directory, any steps, unless that is shared. -/
def RacePoint.Permits (occupancy : Occupancy) (answers : List Answer) : RacePoint → Prop
  | .bucket => ∀ answer ∈ answers, ¬ answer.Blocked
  | .directory => occupancy = .vacant

/-- What a race at a bucket comes to, and the same operation after the steps in its middle. -/
theorem Step.exists_bucket_race (hsound : index.Sound hash) (occupancy : Occupancy) (meanwhile : List Step)
    (op : Operation) :
    ∃ reply answers events events' later next,
      Step.run occupancy (.ok hash) (.race .bucket meanwhile op) index =
        .ok (.race reply (some answers) (next.status events), next) ∧
      Step.runAll .shared (.ok hash) meanwhile index = .ok (answers, later) ∧
      Step.run occupancy (.ok hash) (.request (.operate op)) later =
        .ok (.request reply (next.status events'), next) := by
  obtain ⟨id, b, hid, -, hb, -⟩ := hsound.directory.exists_lookUp (hash op.key)
  obtain ⟨answers, later, hmeanwhile, hpath⟩ := Step.exists_runAll .shared meanwhile index hsound
  obtain ⟨b', hstale⟩ := hpath.retains hsound hb
  obtain ⟨settled, -, ⟨events', hrespond⟩, hany⟩ :=
    Index.exists_respond (hpath.sound hsound).directory occupancy op
  obtain ⟨attempt, events, hattempt, hconclude⟩ := hany hstale
  have hrequest : Request.run occupancy (.ok hash) later (.operate op) =
      .ok ⟨settled.reply .outcome, settled.index, events'⟩ := by
    simp only [Request.run, hrespond, bind, Except.bind]
    rfl
  refine ⟨settled.reply .outcome, answers, events, events', later, settled.index, ?_, hmeanwhile, ?_⟩
  · simp only [Step.run, hid, hmeanwhile, hattempt, hconclude, bind, Except.bind]
    rfl
  · exact Step.run_request hrequest

/-- What a race at the directory comes to when nobody shares that, and the same operation after the
steps in its middle, if there was any need of them. -/
theorem Step.exists_directory_race (hsound : index.Sound hash) (meanwhile : List Step) (op : Operation) :
    ∃ reply raced? events next,
      Step.run .vacant (.ok hash) (.race .directory meanwhile op) index =
        .ok (.race reply raced? (next.status events), next) ∧
      (raced? = none → ∃ events', Step.run .vacant (.ok hash) (.request (.operate op)) index =
        .ok (.request reply (next.status events'), next)) ∧
      ∀ answers, raced? = some answers → ∃ events' later,
        Step.runAll .vacant (.ok hash) meanwhile index = .ok (answers, later) ∧
        Step.run .vacant (.ok hash) (.request (.operate op)) later =
          .ok (.request reply (next.status events'), next) := by
  obtain ⟨id, b, hid, -, hb, -⟩ := hsound.directory.exists_lookUp (hash op.key)
  obtain ⟨result, hattempted, hattempt⟩ := Index.exists_attempt hsound.directory op
  obtain ⟨events, hattempt⟩ := hattempt hb
  cases hattempted with
  | @finished _ outcome next htransition =>
    refine ⟨.outcome outcome, none, events, next, ?_, fun _ => ?_, nofun⟩
    · simp only [Step.run, hid, hattempt, bind, Except.bind]
      rfl
    · exact Step.exists_run_operate hsound.directory htransition
  | @escalated entry =>
    obtain ⟨answers, later, hmeanwhile, hpath⟩ := Step.exists_runAll .vacant meanwhile index hsound
    have hlater := (hpath.sound hsound).directory
    -- the second try does what an insertion from the start would do
    obtain ⟨outcome, next, more, hconclude, htransition⟩ :=
      Index.exists_conclude_escalated hlater entry events
    obtain ⟨events', hop⟩ := Step.exists_run_operate hlater htransition
    refine ⟨.outcome outcome, some answers, more, next, ?_, nofun, ?_⟩
    · simp only [Step.run, hid, hattempt, hmeanwhile, hconclude, bind, Except.bind]
      rfl
    · rintro _ ⟨⟩
      exact ⟨events', later, hmeanwhile, hop⟩

/-- A reply says that a result was blocked only if it was. -/
theorem Settled.blocked_of_reply {α : Type} {settled : Settled α} (reply : α → Reply)
    (hreply : ∀ a, reply a ≠ .aborted .deadlock) (h : settled.reply reply = .aborted .deadlock) :
    settled.Blocked := by
  obtain ⟨result, next⟩ := settled
  cases result with
  | ok a => exact absurd h (hreply a)
  | error abort => exact congrArg Except.error (Reply.aborted.inj h)

namespace Index

/-- An operation that is blocked would make the directory deeper. -/
theorem Settles.depth_lt {op : Operation} {abort : Abort} {next last : Index} {outcome : Outcome}
    (h : index.Settles .shared hash op ⟨.error abort, next⟩)
    (h' : index.Settles .vacant hash op ⟨.ok outcome, last⟩) :
    index.directory.depth < last.directory.depth := by
  cases h with
  | blocked _ hgrows =>
    cases h' with
    | done htransition => exact hgrows htransition

/-- A series that is blocked would make the directory deeper. -/
theorem SettlesAll.depth_lt {task : SeriesTask} {entries : List Entry} {settled settled' : Settled SeriesCount}
    (h : SettlesAll .shared hash task index entries settled) (hsound : index.Sound hash)
    (hblocked : settled.Blocked) (h' : SettlesAll .vacant hash task index entries settled') :
    index.directory.depth < settled'.index.directory.depth := by
  induction h generalizing settled' with
  | nil => exact absurd hblocked nofun
  | blocked hfirst =>
    cases h' with
    | blocked hfirst' =>
      obtain ⟨_, _, hok, -⟩ := hfirst'.exists_transition
      exact absurd hok nofun
    | cons hfirst' hrest' =>
      have hlater := hrest'.path.depth_le (hfirst'.path.sound hsound)
      exact Nat.lt_of_lt_of_le (hfirst.depth_lt hfirst') hlater
  | @cons _ _ _ _ _ settled hfirst hrest ih =>
    cases hfirst with
    | done htransition =>
      cases h' with
      | blocked hfirst' =>
        obtain ⟨_, _, hok, -⟩ := hfirst'.exists_transition
        exact absurd hok nofun
      | cons hfirst' hrest' =>
        cases hfirst' with
        | done htransition' =>
          obtain ⟨rfl, rfl⟩ := htransition.unique htransition'
          have hsettled : settled.Blocked := by
            obtain ⟨result, last⟩ := settled
            cases result with
            | ok count => exact absurd hblocked nofun
            | error abort => exact congrArg Except.error (Except.error.inj hblocked)
          have hpath := htransition.path
          have hlater := ih (hpath.sound hsound) hsettled hrest'
          exact Nat.lt_of_le_of_lt (hpath.depth_le hsound) hlater

end Index

/-- A step takes hold of the directory only to make it deeper: it is neither a view nor an insertion
that was interrupted at the directory. -/
def Step.Shares : Step → Prop
  | .request r => r.isView = false
  | .race .bucket _ _ => True
  | .race .directory _ _ => False

/-- A request that is blocked, but no view, would make the directory deeper. -/
theorem Request.depth_lt {request : Request} {response response' : Response} (hsound : index.Sound hash)
    (hview : request.isView = false) (h : request.run .shared (.ok hash) index = .ok response)
    (hblocked : response.reply = .aborted .deadlock)
    (h' : request.run .vacant (.ok hash) index = .ok response') :
    index.directory.depth < response'.index.directory.depth := by
  cases request with
  | operate op =>
    obtain ⟨settled, hsettles, ⟨events, hrespond⟩, -⟩ := Index.exists_respond hsound.directory .shared op
    obtain ⟨settled', hsettles', ⟨events', hrespond'⟩, -⟩ := Index.exists_respond hsound.directory .vacant op
    simp only [run, hrespond, hrespond', bind, Except.bind] at h h'
    obtain rfl := Except.ok.inj h
    obtain rfl := Except.ok.inj h'
    obtain ⟨result, next⟩ := settled
    have hresult := Settled.blocked_of_reply .outcome (by simp) hblocked
    obtain rfl : result = .error .deadlock := hresult
    obtain ⟨outcome, last, rfl, -⟩ := hsettles'.exists_transition
    exact hsettles.depth_lt hsettles'
  | series task s =>
    obtain ⟨settled, events, hrespond, hsettles⟩ := Index.exists_respondAll hsound .shared task s.entries
    obtain ⟨settled', events', hrespond', hsettles'⟩ := Index.exists_respondAll hsound .vacant task s.entries
    simp only [run, hrespond, hrespond', bind, Except.bind] at h h'
    obtain rfl := Except.ok.inj h
    obtain rfl := Except.ok.inj h'
    have hresult := Settled.blocked_of_reply .series (by simp) hblocked
    exact hsettles.depth_lt hsound hresult hsettles'
  | scan =>
    obtain rfl := Except.ok.inj h
    cases hblocked
  | size =>
    obtain rfl := Except.ok.inj h
    cases hblocked
  | capacity =>
    obtain rfl := Except.ok.inj h
    cases hblocked
  | slotCount =>
    obtain rfl := Except.ok.inj h
    cases hblocked
  | snapshot => cases hview
  | buckets => cases hview
  | table => cases hview
  | check => cases hview

/-- A request that is blocked as a step, but no view, would make the directory deeper. -/
theorem Step.request_depth_lt {request : Request} {answer answer' : Answer} {next next' : Index}
    (hsound : index.Sound hash) (hview : request.isView = false)
    (h : Step.run .shared (.ok hash) (.request request) index = .ok (answer, next)) (hblocked : answer.Blocked)
    (h' : Step.run .vacant (.ok hash) (.request request) index = .ok (answer', next')) :
    index.directory.depth < next'.directory.depth := by
  obtain ⟨reply, last, events, hrun, -⟩ := request.exists_run hsound .shared
  obtain ⟨reply', last', events', hrun', -⟩ := request.exists_run hsound .vacant
  obtain ⟨rfl, rfl⟩ := Prod.mk.inj (Except.ok.inj ((Step.run_request hrun).symm.trans h))
  obtain ⟨rfl, rfl⟩ := Prod.mk.inj (Except.ok.inj ((Step.run_request hrun').symm.trans h'))
  exact Request.depth_lt hsound hview hrun hblocked hrun'

/-- A step that is blocked, but takes hold of the directory only to make it deeper, would do so. -/
theorem Step.depth_lt {step : Step} {answer answer' : Answer} {next next' : Index} (hsound : index.Sound hash)
    (hshares : step.Shares) (h : Step.run .shared (.ok hash) step index = .ok (answer, next))
    (hblocked : answer.Blocked) (h' : Step.run .vacant (.ok hash) step index = .ok (answer', next')) :
    index.directory.depth < next'.directory.depth := by
  match step, hshares with
  | .request r, hview => exact Step.request_depth_lt hsound hview h hblocked h'
  | .race .bucket meanwhile op, _ =>
    obtain ⟨reply, answers, events, _, later, last, hrace, hmeanwhile, hop⟩ :=
      Step.exists_bucket_race hsound .shared meanwhile op
    obtain ⟨reply', answers', events', _, later', last', hrace', hmeanwhile', hop'⟩ :=
      Step.exists_bucket_race hsound .vacant meanwhile op
    obtain ⟨rfl, rfl⟩ := Prod.mk.inj (Except.ok.inj (hmeanwhile.symm.trans hmeanwhile'))
    obtain ⟨rfl, rfl⟩ := Prod.mk.inj (Except.ok.inj (hrace.symm.trans h))
    obtain ⟨rfl, rfl⟩ := Prod.mk.inj (Except.ok.inj (hrace'.symm.trans h'))
    -- the steps in the middle share the directory in either case
    have hpath := Step.path_of_runAll hsound hmeanwhile
    have hgrown := Step.request_depth_lt (hpath.sound hsound) rfl hop hblocked hop'
    exact Nat.lt_of_le_of_lt (hpath.depth_le hsound) hgrown

/-- Steps run without any of them taking hold of the whole directory: none does so but to make it
deeper, and it is no deeper in the end. -/
def Index.KeepsDepth (hash : HashFunction) (steps : List Step) (index : Index) : Prop :=
  (∀ step ∈ steps, step.Shares) ∧ ∃ answers next,
    Step.runAll .vacant (.ok hash) steps index = .ok (answers, next) ∧
      next.directory.depth = index.directory.depth

/-- Steps that take hold of the directory only to make it deeper, and leave its depth as it was, run
just so while the directory is shared, and none of them is blocked. -/
theorem Step.runAll_shared_of_depth_eq {steps : List Step} {answers : List Answer} {next : Index}
    (hsound : index.Sound hash) (hshares : ∀ step ∈ steps, step.Shares)
    (h : Step.runAll .vacant (.ok hash) steps index = .ok (answers, next))
    (hdepth : next.directory.depth = index.directory.depth) :
    Step.runAll .shared (.ok hash) steps index = .ok (answers, next) ∧
      ∀ answer ∈ answers, ¬ answer.Blocked := by
  induction steps generalizing index answers with
  | nil =>
    rw [Step.runAll_nil] at h ⊢
    obtain ⟨rfl, rfl⟩ := Prod.mk.inj (Except.ok.inj h)
    exact ⟨rfl, fun _ hanswer => absurd hanswer List.not_mem_nil⟩
  | cons step rest ih =>
    obtain ⟨hstep, hrest⟩ := List.forall_mem_cons.mp hshares
    obtain ⟨answer, later, answers, rfl, hrun, hruns⟩ := Step.of_runAll_cons h
    have hpath := Step.path_of_run hsound hrun
    have hlater := hpath.sound hsound
    -- depths only go up, so all of them are the same
    have hfirst := hpath.depth_le hsound
    have hlast := (Step.path_of_runAll hlater hruns).depth_le hlater
    obtain ⟨answer', later', hshared, -⟩ := Step.exists_run .shared step index hsound
    have hunblocked : ¬ answer'.Blocked := by
      intro hblocked
      have hlt := Step.depth_lt hsound hstep hshared hblocked hrun
      omega
    have hsame := (Step.run_shared hash index step).eq_ok hshared hunblocked
    obtain ⟨rfl, rfl⟩ := Prod.mk.inj (Except.ok.inj (hrun.symm.trans hsame))
    obtain ⟨hruns, hanswers⟩ := ih hlater hrest hruns (by omega)
    exact ⟨Step.runAll_cons hshared hruns, List.forall_mem_cons.mpr ⟨hunblocked, hanswers⟩⟩

/-- Races on a reachable index are linearizable. Each is answered, and once its operation was
interrupted and finished, the answers of the steps in the middle, the reply of the operation and the
index in the end are those of running these steps first and the operation after them. Only the events
on the way differ. At a bucket this covers all steps that do not make the directory deeper. -/
theorem race_linearizable (h : Reachable hash index) (occupancy : Occupancy) (point : RacePoint)
    (meanwhile : List Step) (op : Operation) :
    (∃ answer next, Step.run occupancy (.ok hash) (.race point meanwhile op) index = .ok (answer, next)) ∧
      (∀ reply answers status next,
        Step.run occupancy (.ok hash) (.race point meanwhile op) index =
          .ok (.race reply (some answers) status, next) →
        point.Permits occupancy answers →
        ∃ status', Step.runAll occupancy (.ok hash) (meanwhile ++ [.request (.operate op)]) index =
            .ok (answers ++ [.request reply status'], next) ∧
          status'.size = status.size ∧ status'.depth = status.depth) ∧
      (point = .bucket → index.KeepsDepth hash meanwhile →
        ∃ reply answers status next,
          Step.run occupancy (.ok hash) (.race point meanwhile op) index =
            .ok (.race reply (some answers) status, next) ∧
          point.Permits occupancy answers) := by
  refine ⟨?_, fun reply answers status next hrun hpermits => ?_, fun hpoint hkeeps => ?_⟩
  · obtain ⟨answer, next, hrun, -⟩ := Step.exists_run occupancy (.race point meanwhile op) index h.sound
    exact ⟨answer, next, hrun⟩
  · cases point with
    | bucket =>
      obtain ⟨reply', answers', events, events', later, next', hrace, hmeanwhile, hop⟩ :=
        Step.exists_bucket_race h.sound occupancy meanwhile op
      rw [hrun] at hrace
      cases hrace
      have hfirst : Step.runAll occupancy (.ok hash) meanwhile index = .ok (answers, later) := by
        cases occupancy with
        | shared => exact hmeanwhile
        | vacant => exact Step.runAll_vacant hmeanwhile hpermits
      exact ⟨_, Step.runAll_append hfirst (Step.runAll_cons hop (Step.runAll_nil ..)), rfl, rfl⟩
    | directory =>
      obtain rfl : occupancy = .vacant := hpermits
      obtain ⟨reply', raced?, events, next', hrace, -, hreached⟩ :=
        Step.exists_directory_race h.sound meanwhile op
      rw [hrun] at hrace
      cases hrace
      obtain ⟨events', later, hfirst, hop⟩ := hreached answers rfl
      exact ⟨_, Step.runAll_append hfirst (Step.runAll_cons hop (Step.runAll_nil ..)), rfl, rfl⟩
  · subst hpoint
    obtain ⟨hshares, answers, later, hvacant, hdepth⟩ := hkeeps
    obtain ⟨hshared, hunblocked⟩ := Step.runAll_shared_of_depth_eq h.sound hshares hvacant hdepth
    obtain ⟨reply, answers', events, _, _, next, hrace, hmeanwhile, -⟩ :=
      Step.exists_bucket_race h.sound occupancy meanwhile op
    obtain ⟨rfl, -⟩ := Prod.mk.inj (Except.ok.inj (hshared.symm.trans hmeanwhile))
    exact ⟨reply, answers, _, next, hrace, hunblocked⟩

/-- Two races on a full bucket that are interrupted: a look-up before it has its bucket, which finds a key
that was inserted meanwhile, and an insertion that needs a deeper directory. Keys are hashed to their first
byte. -/
theorem race_linearizable_on_full_bucket :
    ∃ index, Reachable (fun key => (key.headD 0).toUInt32) index ∧
      index = .single [⟨[1], []⟩, ⟨[2], []⟩, ⟨[3], []⟩, ⟨[4], []⟩] ∧
      index.KeepsDepth (fun key => (key.headD 0).toUInt32) [.request (.operate (.remove [1])),
        .request (.operate (.insert ⟨[8], [9]⟩))] ∧
      (∃ status status' final,
        Step.run .vacant (.ok fun key => (key.headD 0).toUInt32) (.race .bucket [.request (.operate (.remove [1])),
          .request (.operate (.insert ⟨[8], [9]⟩))] (.get [8])) index =
          .ok (.race (.outcome (.found (some [9]))) (some [.request (.outcome .done) ⟨3, 0, []⟩,
            .request (.outcome .accepted) ⟨4, 0, []⟩]) status, final) ∧
        Step.runAll .vacant (.ok fun key => (key.headD 0).toUInt32) [.request (.operate (.remove [1])),
          .request (.operate (.insert ⟨[8], [9]⟩)), .request (.operate (.get [8]))] index =
          .ok ([.request (.outcome .done) ⟨3, 0, []⟩, .request (.outcome .accepted) ⟨4, 0, []⟩,
            .request (.outcome (.found (some [9]))) status'], final)) ∧
      ∃ status status' final,
        Step.run .vacant (.ok fun key => (key.headD 0).toUInt32) (.race .directory [.request (.operate (.remove [1])),
          .request (.operate (.insert ⟨[8], [9]⟩))] (.insert ⟨[6], []⟩)) index =
          .ok (.race (.outcome .accepted) (some [.request (.outcome .done) ⟨3, 0, []⟩,
            .request (.outcome .accepted) ⟨4, 0, []⟩]) status, final) ∧
        Step.runAll .vacant (.ok fun key => (key.headD 0).toUInt32) [.request (.operate (.remove [1])),
          .request (.operate (.insert ⟨[8], [9]⟩)), .request (.operate (.insert ⟨[6], []⟩))] index =
          .ok ([.request (.outcome .done) ⟨3, 0, []⟩, .request (.outcome .accepted) ⟨4, 0, []⟩,
            .request (.outcome .accepted) status'], final) := by
  have hfull : Reachable (fun key => (key.headD 0).toUInt32)
      (.single [⟨[1], []⟩, ⟨[2], []⟩, ⟨[3], []⟩, ⟨[4], []⟩]) :=
    reachable_single _ (by decide) (by decide)
  have hkeeps : Index.KeepsDepth (fun key => (key.headD 0).toUInt32) [.request (.operate (.remove [1])),
      .request (.operate (.insert ⟨[8], [9]⟩))] (.single [⟨[1], []⟩, ⟨[2], []⟩, ⟨[3], []⟩, ⟨[4], []⟩]) :=
    ⟨List.forall_mem_cons.mpr ⟨rfl, List.forall_mem_singleton.mpr rfl⟩, _, _, rfl, rfl⟩
  obtain ⟨-, hbucket, hreached⟩ := race_linearizable hfull .vacant .bucket
    [.request (.operate (.remove [1])), .request (.operate (.insert ⟨[8], [9]⟩))] (.get [8])
  obtain ⟨-, hdirectory, -⟩ := race_linearizable hfull .vacant .directory
    [.request (.operate (.remove [1])), .request (.operate (.insert ⟨[8], [9]⟩))] (.insert ⟨[6], []⟩)
  obtain ⟨reply, answers, status, final, hrace, hpermits⟩ := hreached rfl hkeeps
  obtain ⟨status', hserial, -⟩ := hbucket reply answers status final hrace hpermits
  obtain ⟨hreply, hanswers, -⟩ := Answer.race.inj (Prod.mk.inj (Except.ok.inj hrace)).1
  obtain rfl : .outcome (.found (some [9])) = reply := hreply
  obtain rfl : [.request (.outcome .done) ⟨3, 0, []⟩, .request (.outcome .accepted) ⟨4, 0, []⟩] = answers :=
    Option.some.inj hanswers
  obtain ⟨status'', hserial', -⟩ := hdirectory (.outcome .accepted) _ _ _ rfl rfl
  exact ⟨_, hfull, rfl, hkeeps, ⟨status, status', final, hrace, hserial⟩, _, status'', _, rfl, hserial'⟩

end ExtendibleHashing
