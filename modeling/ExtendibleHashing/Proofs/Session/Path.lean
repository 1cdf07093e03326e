import ExtendibleHashing.Proofs.Index.Sound
import ExtendibleHashing.Proofs.Snapshot
import ExtendibleHashing.Session.Interleaving
import Mathlib.Data.List.Induction
import Mathlib.Logic.Relation

/-!
# Sessions as paths of transitions

Whatever a step of a session consists of, what it does to the index is a path of transitions: a
request performs some point operations, and a race does so before, between and after the steps in
its middle. On a sound index every step gets an answer of its kind, since operations end in transitions
and views succeed. Soundness and the buckets of the directory outlast every path, so all indexes that
sessions arrive at are sound.
-/

namespace ExtendibleHashing

/-- A computation that came to a result went on from one. -/
theorem exists_of_bind_eq_ok {ε α β : Type} {x : Except ε α} {f : α → Except ε β} {b : β}
    (h : x >>= f = .ok b) : ∃ a, x = .ok a ∧ f a = .ok b := by
  cases x with
  | error e => cases h
  | ok a => exact ⟨a, rfl, h⟩

variable {hash : HashFunction}

namespace Index

variable {index next : Index}

/-- Point operations lead from one index to the other. -/
def Path (hash : HashFunction) : Index → Index → Prop :=
  Relation.ReflTransGen fun index next => ∃ op outcome, Transition hash index op outcome next

/-- A single transition is a path. -/
theorem Transition.path {op : Operation} {outcome : Outcome} (h : Transition hash index op outcome next) :
    index.Path hash next :=
  .single ⟨op, outcome, h⟩

/-- Paths keep an index sound. -/
theorem Path.sound (h : index.Path hash next) (hsound : index.Sound hash) : next.Sound hash := by
  induction h with
  | refl => exact hsound
  | tail _ hlast ih =>
    obtain ⟨op, outcome, htransition⟩ := hlast
    exact htransition.sound ih

/-- Paths empty no cell. -/
theorem Path.retains (h : index.Path hash next) (hsound : index.Sound hash) :
    index.directory.Retains next.directory := by
  induction h with
  | refl => exact Directory.Retains.refl _
  | tail hfirst hlast ih =>
    obtain ⟨op, outcome, htransition⟩ := hlast
    exact ih.trans (htransition.change (Path.sound hfirst hsound).directory).retains

/-- Paths never make the directory less deep. -/
theorem Path.depth_le (h : index.Path hash next) (hsound : index.Sound hash) :
    index.directory.depth ≤ next.directory.depth := by
  induction h with
  | refl => exact Nat.le_refl _
  | tail hfirst hlast ih =>
    obtain ⟨op, outcome, htransition⟩ := hlast
    exact ih.trans (htransition.change (Path.sound hfirst hsound).directory).depth_le

/-- What a point operation comes to where the directory may be shared: a transition, or nothing when
that would make the directory deeper while somebody shares it. -/
inductive Settles (occupancy : Occupancy) (hash : HashFunction) (index : Index) :
    Operation → Settled Outcome → Prop
  | done {op : Operation} {outcome : Outcome} {next : Index}
      (htransition : Transition hash index op outcome next) :
      Settles occupancy hash index op ⟨.ok outcome, next⟩
  | blocked {op : Operation} (hshared : occupancy = .shared)
      (hgrows : ∀ {outcome next}, Transition hash index op outcome next →
        index.directory.depth < next.directory.depth) :
      Settles occupancy hash index op ⟨.error .deadlock, index⟩

/-- However an operation is settled, a path leads there. -/
theorem Settles.path {occupancy : Occupancy} {op : Operation} {settled : Settled Outcome}
    (h : Settles occupancy hash index op settled) : index.Path hash settled.index := by
  cases h with
  | done htransition => exact htransition.path
  | blocked => exact .refl

/-- Where nobody shares the directory an operation ends in a transition. -/
theorem Settles.exists_transition {op : Operation} {settled : Settled Outcome}
    (h : index.Settles .vacant hash op settled) :
    ∃ outcome next, settled = ⟨.ok outcome, next⟩ ∧ Transition hash index op outcome next := by
  cases h with
  | done htransition => exact ⟨_, _, rfl, htransition⟩
  | blocked hshared => exact absurd hshared nofun

/-- An escalated insertion that gets the directory is carried out on the index as it is by then. -/
theorem exists_conclude_escalated (hsound : index.directory.Sound hash) (entry : Entry)
    (events : List Event) :
    ∃ outcome next more, index.conclude .vacant hash ⟨.escalated entry, events⟩ =
      .ok ⟨⟨.ok outcome, next⟩, more⟩ ∧ Transition hash index (.insert entry) outcome next := by
  obtain ⟨outcome, next, more, hinsert, htransition⟩ := exists_insertGrowing hsound entry
  refine ⟨outcome, next, events ++ more, ?_, htransition⟩
  simp only [conclude, complete, hinsert, bind, Except.bind]
  rfl

/-- How an attempt is settled does not depend on the events on the way. -/
theorem exists_conclude (hsound : index.directory.Sound hash) (occupancy : Occupancy) {op : Operation}
    {result : Attempt} (h : Attempted hash index op result) :
    ∃ settled, Settles occupancy hash index op settled ∧
      ∀ events, ∃ more, index.conclude occupancy hash ⟨result, events⟩ = .ok ⟨settled, more⟩ := by
  cases h with
  | @finished _ outcome next htransition =>
    refine ⟨⟨.ok outcome, next⟩, .done htransition, fun events => ⟨events, ?_⟩⟩
    cases occupancy <;> rfl
  | @escalated entry found depth hfound hplace hdepth =>
    cases occupancy with
    | shared =>
      have hgrows {outcome : Outcome} {next : Index} (h : Transition hash index (.insert entry) outcome next) :
          index.directory.depth < next.directory.depth := h.depth_lt hsound hfound hplace hdepth
      exact ⟨_, .blocked rfl hgrows, fun events => ⟨events, rfl⟩⟩
    | vacant =>
      obtain ⟨outcome, next, -, -, htransition⟩ := exists_conclude_escalated hsound entry []
      refine ⟨_, .done htransition, fun events => ?_⟩
      obtain ⟨outcome', next', more, hconclude, htransition'⟩ := exists_conclude_escalated hsound entry events
      obtain ⟨rfl, rfl⟩ := htransition.unique htransition'
      exact ⟨more, hconclude⟩

/-- A point operation is settled in the same way whatever bucket it tries first. -/
theorem exists_respond (hsound : index.directory.Sound hash) (occupancy : Occupancy) (op : Operation) :
    ∃ settled, Settles occupancy hash index op settled ∧
      (∃ events, index.respond occupancy (.ok hash) op = .ok ⟨settled, events⟩) ∧
      ∀ {stale : Nat} {c : Bucket}, index.directory.Holds stale c →
        ∃ attempt events, index.attempt hash op stale = .ok attempt ∧
          index.conclude occupancy hash attempt = .ok ⟨settled, events⟩ := by
  obtain ⟨result, hattempted, hattempt⟩ := exists_attempt hsound op
  obtain ⟨settled, hsettles, hconclude⟩ := exists_conclude hsound occupancy hattempted
  have hany {stale : Nat} {c : Bucket} (hstale : index.directory.Holds stale c) :
      ∃ attempt events, index.attempt hash op stale = .ok attempt ∧
        index.conclude occupancy hash attempt = .ok ⟨settled, events⟩ := by
    obtain ⟨events, hattempt⟩ := hattempt hstale
    obtain ⟨more, hconclude⟩ := hconclude events
    exact ⟨_, more, hattempt, hconclude⟩
  refine ⟨settled, hsettles, ?_, hany⟩
  obtain ⟨id, b, hid, -, hb, -⟩ := hsound.exists_lookUp (hash op.key)
  obtain ⟨attempt, events, hattempt, hconclude⟩ := hany hb
  refine ⟨events, ?_⟩
  simp only [respond, hid, hattempt, hconclude, bind, Except.bind]

/-- What a series comes to: its operations are settled one after the other, up to one that is broken
off, and counted. -/
inductive SettlesAll (occupancy : Occupancy) (hash : HashFunction) (task : SeriesTask) :
    Index → List Entry → Settled SeriesCount → Prop
  | nil {index : Index} : SettlesAll occupancy hash task index [] ⟨.ok ⟨0, []⟩, index⟩
  | blocked {index next : Index} {entry : Entry} {rest : List Entry} {abort : Abort}
      (hfirst : Settles occupancy hash index (task.operation entry) ⟨.error abort, next⟩) :
      SettlesAll occupancy hash task index (entry :: rest) ⟨.error abort, next⟩
  | cons {index next : Index} {entry : Entry} {rest : List Entry} {outcome : Outcome}
      {settled : Settled SeriesCount}
      (hfirst : Settles occupancy hash index (task.operation entry) ⟨.ok outcome, next⟩)
      (hrest : SettlesAll occupancy hash task next rest settled) :
      SettlesAll occupancy hash task index (entry :: rest)
        ⟨settled.result.map (·.add entry.key outcome), settled.index⟩

/-- However a series is settled, a path leads there. -/
theorem SettlesAll.path {occupancy : Occupancy} {task : SeriesTask} {entries : List Entry}
    {settled : Settled SeriesCount} (h : SettlesAll occupancy hash task index entries settled) :
    index.Path hash settled.index := by
  induction h with
  | nil => exact .refl
  | blocked hfirst => exact hfirst.path
  | cons hfirst _ ih => exact hfirst.path.trans ih

/-- A series is settled. -/
theorem exists_respondAll (hsound : index.Sound hash) (occupancy : Occupancy) (task : SeriesTask)
    (entries : List Entry) :
    ∃ settled events, respondAll occupancy (.ok hash) task entries index = .ok ⟨settled, events⟩ ∧
      SettlesAll occupancy hash task index entries settled := by
  induction entries generalizing index with
  | nil => exact ⟨_, _, rfl, .nil⟩
  | cons entry rest ih =>
    obtain ⟨⟨result, next⟩, hfirst, ⟨events, hrespond⟩, -⟩ :=
      exists_respond hsound.directory occupancy (task.operation entry)
    simp only [respondAll, hrespond, bind, Except.bind]
    cases result with
    | error abort => exact ⟨_, _, rfl, .blocked hfirst⟩
    | ok outcome =>
      obtain ⟨settled, more, hrespond, hrest⟩ := ih (hfirst.path.sound hsound)
      simp only [hrespond]
      exact ⟨_, _, rfl, .cons hfirst hrest⟩

end Index

namespace Request

/-- A request leaves the index alone. -/
def Reads : Request → Prop
  | .operate _ | .series _ _ => False
  | _ => True

/-- What a request comes to: its operations are settled, or it only reads, or it is a view that is
broken off because it waits for the directory. -/
inductive Serves (occupancy : Occupancy) (hash : HashFunction) (index : Index) :
    Request → Reply → Index → Prop
  | operate {op : Operation} {settled : Settled Outcome}
      (hsettles : index.Settles occupancy hash op settled) :
      Serves occupancy hash index (.operate op) (settled.reply .outcome) settled.index
  | series {task : SeriesTask} {s : Series} {settled : Settled SeriesCount}
      (hsettles : index.SettlesAll occupancy hash task s.entries settled) :
      Serves occupancy hash index (.series task s) (settled.reply .series) settled.index
  | read {request : Request} {reply : Reply} (hreads : request.Reads)
      (hsize : request = .size → reply = .number index.size.toNat) :
      Serves occupancy hash index request reply index
  | blocked {request : Request} (hview : request.isView = true) (hshared : occupancy = .shared) :
      Serves occupancy hash index request (.aborted .deadlock) index

variable {index : Index} {occupancy : Occupancy}

/-- However a request is served, a path leads to the index after it. -/
theorem Serves.path {request : Request} {reply : Reply} {next : Index}
    (h : request.Serves occupancy hash index reply next) : index.Path hash next := by
  cases h with
  | operate hsettles => exact hsettles.path
  | series hsettles => exact hsettles.path
  | read => exact .refl
  | blocked => exact .refl

/-- A request is served. -/
theorem exists_run (hsound : index.Sound hash) (occupancy : Occupancy) (request : Request) :
    ∃ reply next events, request.run occupancy (.ok hash) index = .ok ⟨reply, next, events⟩ ∧
      request.Serves occupancy hash index reply next := by
  obtain ⟨bucketAt, hassigns⟩ := hsound.directory.exists_assigns
  have hsnapshot := Index.snapshot_eq_ok hsound.directory hassigns
  unfold run
  split
  next hblocked => exact ⟨_, _, _, rfl, .blocked hblocked.1 hblocked.2⟩
  next =>
    cases request with
    | operate op =>
      obtain ⟨settled, hsettles, ⟨events, hrespond⟩, -⟩ := Index.exists_respond hsound.directory occupancy op
      simp only [hrespond, bind, Except.bind]
      exact ⟨_, _, _, rfl, .operate hsettles⟩
    | series task s =>
      obtain ⟨settled, events, hrespond, hsettles⟩ := Index.exists_respondAll hsound occupancy task s.entries
      simp only [hrespond, bind, Except.bind]
      exact ⟨_, _, _, rfl, .series hsettles⟩
    | size => exact ⟨_, _, _, rfl, .read trivial fun _ => rfl⟩
    | scan => exact ⟨_, _, _, rfl, .read trivial nofun⟩
    | capacity => exact ⟨_, _, _, rfl, .read trivial nofun⟩
    | slotCount => exact ⟨_, _, _, rfl, .read trivial nofun⟩
    | buckets => exact ⟨_, _, _, rfl, .read trivial nofun⟩
    | snapshot =>
      simp only [hsnapshot, bind, Except.bind]
      exact ⟨_, _, _, rfl, .read trivial nofun⟩
    | table =>
      simp only [hsnapshot, bind, Except.bind]
      exact ⟨_, _, _, rfl, .read trivial nofun⟩
    | check =>
      simp only [hsnapshot, bind, Except.bind]
      exact ⟨_, _, _, rfl, .read trivial nofun⟩

end Request

namespace Step

variable {occupancy : Occupancy} {hash : Except HashError HashFunction} {index later next : Index}

/-- A request is answered with the status of the index after it. -/
theorem run_request {request : Request} {reply : Reply} {events : List Event}
    (hrun : request.run occupancy hash index = .ok ⟨reply, next, events⟩) :
    Step.run occupancy hash (.request request) index = .ok (.request reply (next.status events), next) := by
  simp only [Step.run, hrun, bind, Except.bind]
  rfl

/-- Without steps nothing happens. -/
theorem runAll_nil (occupancy : Occupancy) (hash : Except HashError HashFunction) (index : Index) :
    Step.runAll occupancy hash [] index = .ok ([], index) := by
  simp only [Step.runAll]
  rfl

/-- The steps after the first run where that ends. -/
theorem runAll_cons {step : Step} {rest : List Step} {answer : Answer} {answers : List Answer}
    (hstep : Step.run occupancy hash step index = .ok (answer, later))
    (hrest : Step.runAll occupancy hash rest later = .ok (answers, next)) :
    Step.runAll occupancy hash (step :: rest) index = .ok (answer :: answers, next) := by
  simp only [Step.runAll, hstep, hrest, bind, Except.bind]
  rfl

/-- Steps that ran began with the first and went on where that ended. -/
theorem of_runAll_cons {step : Step} {rest : List Step} {answers : List Answer}
    (h : Step.runAll occupancy hash (step :: rest) index = .ok (answers, next)) :
    ∃ answer later answers', answers = answer :: answers' ∧
      Step.run occupancy hash step index = .ok (answer, later) ∧
      Step.runAll occupancy hash rest later = .ok (answers', next) := by
  rw [Step.runAll] at h
  obtain ⟨⟨answer, later⟩, hstep, h⟩ := exists_of_bind_eq_ok h
  obtain ⟨⟨answers', last⟩, hrest, h⟩ := exists_of_bind_eq_ok h
  obtain ⟨rfl, rfl⟩ := Prod.mk.inj (Except.ok.inj h)
  exact ⟨answer, later, answers', rfl, hstep, hrest⟩

/-- Steps run one list after the other. -/
theorem runAll_append {steps rest : List Step} {answers answers' : List Answer}
    (hsteps : Step.runAll occupancy hash steps index = .ok (answers, later))
    (hrest : Step.runAll occupancy hash rest later = .ok (answers', next)) :
    Step.runAll occupancy hash (steps ++ rest) index = .ok (answers ++ answers', next) := by
  induction steps generalizing index answers with
  | nil =>
    obtain ⟨rfl, rfl⟩ : [] = answers ∧ index = later := by simpa [runAll_nil] using hsteps
    exact hrest
  | cons step steps ih =>
    obtain ⟨answer, middle, answers, rfl, hstep, hsteps⟩ := of_runAll_cons hsteps
    exact runAll_cons hstep (ih hsteps)

/-- Where nobody shares the directory, an operation carries out its transition. -/
theorem exists_run_operate {hash : HashFunction} (hsound : index.directory.Sound hash) {op : Operation}
    {outcome : Outcome} (htransition : index.Transition hash op outcome next) :
    ∃ events, Step.run .vacant (.ok hash) (.request (.operate op)) index =
      .ok (.request (.outcome outcome) (next.status events), next) := by
  obtain ⟨outcome', next', events, hperform, htransition'⟩ := Index.exists_perform hsound op
  obtain ⟨rfl, rfl⟩ := htransition.unique htransition'
  have hrun : Request.run .vacant (.ok hash) index (.operate op) = .ok ⟨.outcome outcome, next, events⟩ := by
    simp only [Request.run, Index.respond_vacant, hperform]
    rfl
  exact ⟨events, run_request hrun⟩

end Step

section Answers

variable {index next : Index} {occupancy : Occupancy} {op : Operation}

/-- The replies a point operation may get: the answer of its kind. An insertion is refused for nothing
but a collision of its hash, and it alone may wait for the directory. -/
inductive Reply.AnswersTo (occupancy : Occupancy) (hash : HashFunction) : Operation → Reply → Prop
  | found {key : Bytes} {value? : Option Bytes} :
      AnswersTo occupancy hash (.get key) (.outcome (.found value?))
  | accepted {entry : Entry} : AnswersTo occupancy hash (.insert entry) (.outcome .accepted)
  | collided {entry : Entry} {depth : Nat} (hdepth : depth ≤ hashBits) :
      AnswersTo occupancy hash (.insert entry) (.outcome (.refused (.collision (hash entry.key) depth)))
  | updated {entry : Entry} : AnswersTo occupancy hash (.update entry) (.outcome .done)
  | removed {key : Bytes} : AnswersTo occupancy hash (.remove key) (.outcome .done)
  | blocked {entry : Entry} (hshared : occupancy = .shared) :
      AnswersTo occupancy hash (.insert entry) (.aborted .deadlock)

mutual

/-- The answers a step may get: all its point operations, those in the middle of races included, have
replies of their kind. In the middle of a race at a bucket the directory is shared. -/
inductive Step.Answered (hash : HashFunction) : Occupancy → Step → Answer → Prop
  | operation {occupancy : Occupancy} {op : Operation} {reply : Reply} {status : Status}
      (hreply : reply.AnswersTo occupancy hash op) :
      Answered hash occupancy (.request (.operate op)) (.request reply status)
  | request {occupancy : Occupancy} {request : Request} {reply : Reply} {status : Status}
      (hother : ∀ op, request ≠ .operate op) :
      Answered hash occupancy (.request request) (.request reply status)
  | bucket {occupancy : Occupancy} {meanwhile : List Step} {op : Operation} {answers : List Answer}
      {reply : Reply} {status : Status} (hmeanwhile : AllAnswered hash .shared meanwhile answers)
      (hreply : reply.AnswersTo occupancy hash op) :
      Answered hash occupancy (.race .bucket meanwhile op) (.race reply (some answers) status)
  | directory {occupancy : Occupancy} {meanwhile : List Step} {op : Operation} {answers : List Answer}
      {reply : Reply} {status : Status} (hmeanwhile : AllAnswered hash occupancy meanwhile answers)
      (hreply : reply.AnswersTo occupancy hash op) :
      Answered hash occupancy (.race .directory meanwhile op) (.race reply (some answers) status)
  | uninterrupted {occupancy : Occupancy} {meanwhile : List Step} {op : Operation} {reply : Reply}
      {status : Status} (hreply : reply.AnswersTo occupancy hash op) :
      Answered hash occupancy (.race .directory meanwhile op) (.race reply none status)

/-- The answers that steps may get one after the other. -/
inductive Step.AllAnswered (hash : HashFunction) : Occupancy → List Step → List Answer → Prop
  | nil {occupancy : Occupancy} : AllAnswered hash occupancy [] []
  | cons {occupancy : Occupancy} {step : Step} {answer : Answer} {rest : List Step} {answers : List Answer}
      (hstep : Answered hash occupancy step answer) (hrest : AllAnswered hash occupancy rest answers) :
      AllAnswered hash occupancy (step :: rest) (answer :: answers)

end

namespace Index

/-- A transition answers its operation. -/
theorem Transition.answersTo {outcome : Outcome} (h : Transition hash index op outcome next)
    (hsound : index.directory.Sound hash) (occupancy : Occupancy) :
    (Reply.outcome outcome).AnswersTo occupancy hash op := by
  cases h with
  | read => exact .found
  | present => exact .accepted
  | appended => exact .accepted
  | inseparable hfound =>
    obtain ⟨hb, -⟩ := hsound.of_lookUp hfound
    exact .collided ((hsound.localDepth_le hb).trans hsound.depth_le)
  | split => exact .accepted
  | updated => exact .updated
  | updateIdle => exact .updated
  | removed => exact .removed
  | removeIdle => exact .removed

/-- However an operation is settled, that answers it. -/
theorem Settles.answersTo {settled : Settled Outcome} (h : index.Settles occupancy hash op settled)
    (hsound : index.directory.Sound hash) : (settled.reply .outcome).AnswersTo occupancy hash op := by
  cases h with
  | done htransition => exact htransition.answersTo hsound occupancy
  | blocked hshared hgrows =>
    -- an operation that makes the directory deeper is an insertion
    obtain ⟨outcome, next, -, -, htransition⟩ := exists_perform hsound op
    have hdeeper := hgrows htransition
    cases op with
    | insert => exact .blocked hshared
    | get =>
      cases htransition
      exact absurd hdeeper (Nat.lt_irrefl _)
    | update =>
      cases htransition <;> exact absurd hdeeper (Nat.lt_irrefl _)
    | remove =>
      cases htransition <;> exact absurd hdeeper (Nat.lt_irrefl _)

end Index

/-- A request is answered. -/
theorem Request.exists_answered (hsound : index.Sound hash) (occupancy : Occupancy) (request : Request) :
    ∃ answer next, Step.run occupancy (.ok hash) (.request request) index = .ok (answer, next) ∧
      index.Path hash next ∧ Step.Answered hash occupancy (.request request) answer := by
  obtain ⟨reply, next, events, hrun, hserves⟩ := request.exists_run hsound occupancy
  refine ⟨_, next, Step.run_request hrun, hserves.path, ?_⟩
  cases hserves with
  | operate hsettles => exact .operation (hsettles.answersTo hsound.directory)
  | series => exact .request nofun
  | read hreads =>
    refine .request fun op hop => ?_
    subst hop
    exact hreads
  | blocked hview =>
    refine .request fun op hop => ?_
    subst hop
    cases hview

mutual

/-- A step is answered. -/
theorem Step.exists_answered (occupancy : Occupancy) : ∀ (step : Step) (index : Index), index.Sound hash →
    ∃ answer next, Step.run occupancy (.ok hash) step index = .ok (answer, next) ∧ index.Path hash next ∧
      Step.Answered hash occupancy step answer
  | .request r, index, hsound => r.exists_answered hsound occupancy
  | .race .bucket meanwhile op, index, hsound => by
    obtain ⟨id, b, hid, -, hb, -⟩ := hsound.directory.exists_lookUp (hash op.key)
    obtain ⟨answers, later, hmeanwhile, hfirst, hanswered⟩ :=
      Step.exists_allAnswered .shared meanwhile index hsound
    -- the identity read before the interruption still names a bucket
    obtain ⟨b', hstale⟩ := hfirst.retains hsound hb
    have hlater := (hfirst.sound hsound).directory
    obtain ⟨settled, hsettles, -, hany⟩ := Index.exists_respond hlater occupancy op
    obtain ⟨attempt, events, hattempt, hconclude⟩ := hany hstale
    simp only [Step.run, hid, hmeanwhile, hattempt, hconclude, bind, Except.bind]
    exact ⟨_, _, rfl, hfirst.trans hsettles.path, .bucket hanswered (hsettles.answersTo hlater)⟩
  | .race .directory meanwhile op, index, hsound => by
    obtain ⟨id, b, hid, -, hb, -⟩ := hsound.directory.exists_lookUp (hash op.key)
    obtain ⟨result, hattempted, hattempt⟩ := Index.exists_attempt hsound.directory op
    obtain ⟨events, hattempt⟩ := hattempt hb
    cases hattempted with
    | finished htransition =>
      simp only [Step.run, hid, hattempt, bind, Except.bind]
      exact ⟨_, _, rfl, htransition.path, .uninterrupted (htransition.answersTo hsound.directory occupancy)⟩
    | @escalated entry =>
      obtain ⟨answers, later, hmeanwhile, hfirst, hanswered⟩ :=
        Step.exists_allAnswered occupancy meanwhile index hsound
      cases occupancy with
      | shared =>
        simp only [Step.run, hid, hattempt, hmeanwhile, Index.conclude, bind, Except.bind]
        exact ⟨_, _, rfl, hfirst, .directory hanswered (.blocked rfl)⟩
      | vacant =>
        have hlater := (hfirst.sound hsound).directory
        obtain ⟨outcome, next, more, hconclude, htransition⟩ :=
          Index.exists_conclude_escalated hlater entry events
        simp only [Step.run, hid, hattempt, hmeanwhile, hconclude, bind, Except.bind]
        exact ⟨_, _, rfl, hfirst.trans htransition.path,
          .directory hanswered (htransition.answersTo hlater .vacant)⟩

/-- Steps are answered one after the other. -/
theorem Step.exists_allAnswered (occupancy : Occupancy) : ∀ (steps : List Step) (index : Index),
    index.Sound hash → ∃ answers next, Step.runAll occupancy (.ok hash) steps index = .ok (answers, next) ∧
      index.Path hash next ∧ Step.AllAnswered hash occupancy steps answers
  | [], index, _ => ⟨[], index, Step.runAll_nil .., .refl, .nil⟩
  | step :: rest, index, hsound => by
    obtain ⟨answer, later, hstep, hfirst, hanswered⟩ := Step.exists_answered occupancy step index hsound
    obtain ⟨answers, next, hrest, hlater, hanswers⟩ :=
      Step.exists_allAnswered occupancy rest later (hfirst.sound hsound)
    exact ⟨_, next, Step.runAll_cons hstep hrest, hfirst.trans hlater, .cons hanswered hanswers⟩

end

end Answers

/-- A step gets an answer, and a path leads to where it ends. -/
theorem Step.exists_run (occupancy : Occupancy) (step : Step) (index : Index) (hsound : index.Sound hash) :
    ∃ answer next, Step.run occupancy (.ok hash) step index = .ok (answer, next) ∧ index.Path hash next := by
  obtain ⟨answer, next, hrun, hpath, -⟩ := Step.exists_answered occupancy step index hsound
  exact ⟨answer, next, hrun, hpath⟩

/-- Steps get their answers, and a path leads to where the last one ends. -/
theorem Step.exists_runAll (occupancy : Occupancy) (steps : List Step) (index : Index)
    (hsound : index.Sound hash) :
    ∃ answers next, Step.runAll occupancy (.ok hash) steps index = .ok (answers, next) ∧
      index.Path hash next := by
  obtain ⟨answers, next, hrun, hpath, -⟩ := Step.exists_allAnswered occupancy steps index hsound
  exact ⟨answers, next, hrun, hpath⟩

/-- Where a step on a sound index ends, a path leads. -/
theorem Step.path_of_run {occupancy : Occupancy} {step : Step} {answer : Answer} {index next : Index}
    (hsound : index.Sound hash) (hrun : Step.run occupancy (.ok hash) step index = .ok (answer, next)) :
    index.Path hash next := by
  obtain ⟨answer', next', hrun', hpath⟩ := Step.exists_run occupancy step index hsound
  obtain ⟨-, rfl⟩ := Prod.mk.inj (Except.ok.inj (hrun'.symm.trans hrun))
  exact hpath

/-- Where steps on a sound index end, a path leads. -/
theorem Step.path_of_runAll {occupancy : Occupancy} {steps : List Step} {answers : List Answer}
    {index next : Index} (hsound : index.Sound hash)
    (hrun : Step.runAll occupancy (.ok hash) steps index = .ok (answers, next)) : index.Path hash next := by
  obtain ⟨answers', next', hrun', hpath⟩ := Step.exists_runAll occupancy steps index hsound
  obtain ⟨-, rfl⟩ := Prod.mk.inj (Except.ok.inj (hrun'.symm.trans hrun))
  exact hpath

/-- The indexes that sessions under a hash function arrive at. -/
inductive Reachable (hash : HashFunction) : Index → Prop
  /-- A session starts with an index of some configuration. -/
  | start {config : Config} {index : Index} (hconfig : Index.ofConfig config = .ok index) :
      Reachable hash index
  /-- It goes on with any step. -/
  | step {occupancy : Occupancy} {step : Step} {answer : Answer} {index next : Index}
      (hindex : Reachable hash index)
      (hrun : Step.run occupancy (.ok hash) step index = .ok (answer, next)) : Reachable hash next

/-- Every reachable index is sound. -/
theorem Reachable.sound {index : Index} (h : Reachable hash index) : index.Sound hash := by
  induction h with
  | start hconfig => exact Index.sound_of_ofConfig hconfig
  | step _ hrun ih => exact (Step.path_of_run ih hrun).sound ih

/-- A new index is reachable. -/
theorem reachable_ofDepth (hash : HashFunction) {depth : Nat} (hdepth : depth ≤ hashBits) :
    Reachable hash ⟨.ofDepth depth, 0⟩ := by
  have hstart : Index.ofConfig ⟨depth⟩ = .ok ⟨.ofDepth depth, 0⟩ := by
    simp only [Index.ofConfig, Config.validate, if_neg (Nat.not_lt.mpr hdepth)]
    rfl
  exact .start hstart

/-- The transitions of a reachable index lead to reachable ones. -/
theorem Reachable.transition {index next : Index} {op : Operation} {outcome : Outcome}
    (h : Reachable hash index) (htransition : index.Transition hash op outcome next) :
    Reachable hash next := by
  obtain ⟨events, hrun⟩ := Step.exists_run_operate h.sound.directory htransition
  exact h.step hrun

/-- An index whose directory has one slot and one bucket. -/
def Index.single (entries : List Entry) : Index :=
  ⟨⟨0, #[0], #[some ⟨entries, 0, 0⟩]⟩, UInt64.ofNat entries.length⟩

/-- Without hash bits for the first directory an index starts with a single bucket. -/
theorem Index.ofConfig_zero : Index.ofConfig ⟨0⟩ = .ok (.single []) := by
  have hrange : Array.range 1 = #[0] := Array.ext' Array.toList_range
  simp [ofConfig, Config.validate, single, Directory.ofDepth, Bucket.empty, hrange, bind, Except.bind, pure,
    Except.pure]

/-- Under any hash function a single bucket can be filled with entries of different keys. -/
theorem reachable_single (hash : HashFunction) {entries : List Entry}
    (hlength : entries.length ≤ bucketCapacity) (hnodup : (entries.map (·.key)).Nodup) :
    Reachable hash (Index.single entries) := by
  induction entries using List.reverseRecOn with
  | nil => exact .start Index.ofConfig_zero
  | append_singleton entries entry ih =>
    rw [List.length_append, List.length_singleton] at hlength
    rw [List.map_append, List.nodup_append'] at hnodup
    have hbefore := ih (Nat.le_of_succ_le hlength) hnodup.1
    have hfound : (Index.single entries).directory.lookUp (hash entry.key) = .ok ⟨0, ⟨entries, 0, 0⟩⟩ :=
      hbefore.sound.directory.lookUp_eq rfl (Nat.mod_one _)
    have hkey : entry.key ∉ Bucket.keys ⟨entries, 0, 0⟩ := by
      simpa [Bucket.keys] using hnodup.2.2
    have hroom : Bucket.isFull ⟨entries, 0, 0⟩ = false := by
      simp only [Bucket.isFull, beq_eq_false_iff_ne]
      omega
    have hplace : Bucket.place hash (hash entry.key) entry ⟨entries, 0, 0⟩ =
        .appended (Bucket.push entry ⟨entries, 0, 0⟩) :=
      Bucket.place_eq_appended_iff.mpr ⟨hkey, hroom, rfl⟩
    have hgrown : (Index.single entries).storeGrown ⟨0, Bucket.push entry ⟨entries, 0, 0⟩⟩ =
        Index.single (entries ++ [entry]) := by
      simp [Index.single, Index.storeGrown, Directory.store, Bucket.push]
    exact hgrown ▸ hbefore.transition (.appended hfound hplace)

end ExtendibleHashing
