import ExtendibleHashing.Index.Scan
import ExtendibleHashing.Proofs.Sweep
import Mathlib.Data.Bool.Count

/-!
# What a limit reports

A limit counts all entries that it is offered, and only when it is asked it cuts the count off at where it stands.
So it reports the number of those entries which it would not decline any more. This is the number of those that
it accepted, unless it is raised after it has declined an entry: it then takes declined entries for accepted ones,
and no later call makes up for that.
-/

namespace ExtendibleHashing

namespace Limit

/-- What can be done with a limit: offer it an entry, or move it. -/
inductive Call where
  | invoke (e : Entry)
  | setLimit (limit : Nat)
deriving DecidableEq, Repr

/-- Make calls one after the other. Each entry is answered by whether it is accepted. -/
def run (l : Limit) : List Call → Limit × List Bool
  | [] => (l, [])
  | .invoke e :: rest =>
    let later := run (Sink.limited.push l e).1 rest
    (later.1, (Sink.limited.push l e).2 :: later.2)
  | .setLimit limit :: rest => run (l.setLimit limit) rest

/-- No call moves the limit to below where it stands. -/
def NeverLowers (limit : Nat) : List Call → Prop
  | [] => True
  | .invoke _ :: rest => NeverLowers limit rest
  | .setLimit next :: rest => limit ≤ next ∧ NeverLowers next rest

/-- Some call raises the limit after an entry has been declined. -/
def RaisedAfterDeclining (l : Limit) (calls : List Call) : Prop :=
  ∃ front next rest, calls = front ++ .setLimit next :: rest ∧
    false ∈ (l.run front).2 ∧ (l.run front).1.limit < next

/-- An entry is counted and accepted if the count does not pass the limit. -/
theorem run_invoke (l : Limit) (e : Entry) (rest : List Call) :
    l.run (.invoke e :: rest) =
      ((run ⟨l.limit, l.offered + 1⟩ rest).1,
        decide (l.offered + 1 ≤ l.limit) :: (run ⟨l.limit, l.offered + 1⟩ rest).2) :=
  rfl

/-- A move keeps the count and is not answered. -/
theorem run_setLimit (l : Limit) (next : Nat) (rest : List Call) :
    l.run (.setLimit next :: rest) = run ⟨next, l.offered⟩ rest :=
  rfl

/-- Calls go on where earlier ones have led to. -/
theorem run_append (l : Limit) (front rest : List Call) :
    l.run (front ++ rest) = (((l.run front).1.run rest).1, (l.run front).2 ++ ((l.run front).1.run rest).2) := by
  induction front generalizing l with
  | nil => rfl
  | cons call front ih =>
    cases call with
    | invoke e => rw [List.cons_append, run_invoke, run_invoke, ih, List.cons_append]
    | setLimit next => rw [List.cons_append, run_setLimit, run_setLimit, ih]

/-- A move at the end changes nothing but the limit. -/
theorem run_concat_setLimit (l : Limit) (front : List Call) (next : Nat) :
    l.run (front ++ [.setLimit next]) = (⟨next, (l.run front).1.offered⟩, (l.run front).2) := by
  rw [run_append, run_setLimit, run, List.append_nil]

/-- Every answer was counted. -/
theorem offered_run (l : Limit) (calls : List Call) :
    (l.run calls).1.offered = l.offered + (l.run calls).2.length := by
  induction calls generalizing l with
  | nil => rfl
  | cons call rest ih =>
    cases call with
    | invoke e =>
      rw [run_invoke, ih, List.length_cons]
      exact Nat.add_right_comm _ _ _
    | setLimit next => rw [run_setLimit, ih]

/-- Calls that never lower the limit do so neither in the beginning nor later on. -/
theorem neverLowers_append {l : Limit} {front rest : List Call} :
    NeverLowers l.limit (front ++ rest) ↔ NeverLowers l.limit front ∧ NeverLowers (l.run front).1.limit rest := by
  induction front generalizing l with
  | nil => exact (iff_of_eq (true_and _)).symm
  | cons call front ih =>
    cases call with
    | invoke e => exact ih (l := ⟨l.limit, l.offered + 1⟩)
    | setLimit next =>
      rw [List.cons_append, NeverLowers, NeverLowers, and_assoc, ih (l := ⟨next, l.offered⟩), run_setLimit]

/-- A limit that is never lowered does not end below where it began. -/
theorem NeverLowers.le_limit_run {l : Limit} {calls : List Call} (h : NeverLowers l.limit calls) :
    l.limit ≤ (l.run calls).1.limit := by
  induction calls generalizing l with
  | nil => exact Nat.le_refl _
  | cons call rest ih =>
    cases call with
    | invoke e => exact ih (l := ⟨l.limit, l.offered + 1⟩) h
    | setLimit next => exact Nat.le_trans h.1 (ih (l := ⟨next, l.offered⟩) h.2)

/-- A limit that ends above where it began was raised. -/
theorem exists_raise {l : Limit} {calls : List Call} (h : l.limit < (l.run calls).1.limit) :
    ∃ front next rest, calls = front ++ .setLimit next :: rest ∧ (l.run front).1.limit < next := by
  induction calls generalizing l with
  | nil => exact absurd h (Nat.lt_irrefl _)
  | cons call rest ih =>
    cases call with
    | invoke e =>
      obtain ⟨front, next, rest, rfl, hraise⟩ := ih (l := ⟨l.limit, l.offered + 1⟩) h
      exact ⟨.invoke e :: front, next, rest, rfl, hraise⟩
    | setLimit limit =>
      by_cases hraises : l.limit < limit
      · exact ⟨[], limit, rest, rfl, hraises⟩
      · obtain ⟨front, next, rest, rfl, hraise⟩ :=
          ih (l := ⟨limit, l.offered⟩) (Nat.lt_of_le_of_lt (Nat.le_of_not_lt hraises) h)
        exact ⟨.setLimit limit :: front, next, rest, rfl, hraise⟩

/-- Every answer is given by the limit as it stands when the entry is offered. -/
theorem exists_invoke_of_answer {l : Limit} {calls : List Call} {i : Nat} {answer : Bool}
    (h : (l.run calls).2[i]? = some answer) :
    ∃ front e rest, calls = front ++ .invoke e :: rest ∧ (l.run front).2.length = i ∧
      answer = decide ((l.run front).1.offered + 1 ≤ (l.run front).1.limit) := by
  induction calls generalizing l i with
  | nil => cases h
  | cons call rest ih =>
    cases call with
    | invoke e =>
      cases i with
      | zero => exact ⟨[], e, rest, rfl, rfl, (Option.some.inj h).symm⟩
      | succ i =>
        obtain ⟨front, e', rest, rfl, hlength, hanswer⟩ := ih (l := ⟨l.limit, l.offered + 1⟩) h
        exact ⟨.invoke e :: front, e', rest, rfl, congrArg (· + 1) hlength, hanswer⟩
    | setLimit next =>
      obtain ⟨front, e, rest, rfl, hlength, hanswer⟩ := ih (l := ⟨next, l.offered⟩) h
      exact ⟨.setLimit next :: front, e, rest, rfl, hlength, hanswer⟩

/-- What was accepted under a limit that is never lowered would not be declined in the end. -/
theorem NeverLowers.lt_limit_of_accepted {l : Limit} {calls : List Call} (h : NeverLowers l.limit calls) {i : Nat}
    (haccepted : (l.run calls).2[i]? = some true) : l.offered + i < (l.run calls).1.limit := by
  obtain ⟨front, e, rest, rfl, hlength, hanswer⟩ := exists_invoke_of_answer haccepted
  have hlater : (l.run front).1.limit ≤ (l.run (front ++ .invoke e :: rest)).1.limit := by
    rw [run_append]
    exact (neverLowers_append.mp h).2.le_limit_run
  have haccepts := of_decide_eq_true hanswer.symm
  rw [offered_run, hlength] at haccepts
  exact Nat.lt_of_lt_of_le haccepts hlater

/-- Of answers that are all negative from some place on, a count up to this place misses no positive one. -/
theorem min_length_eq_count {answers : List Bool} {n : Nat} (h : ∀ i, answers[i]? = some true → i < n) :
    min answers.length n = answers.count true + (answers.take n).count false := by
  have hdrop : (answers.drop n).count true = 0 := by
    rw [List.count_eq_zero]
    intro hmem
    obtain ⟨i, hi⟩ := List.mem_iff_getElem?.mp hmem
    rw [List.getElem?_drop] at hi
    exact absurd (h _ hi) (by omega)
  have htake : (answers.take n).count true = answers.count true := by
    rw [← List.take_append_drop n answers, List.count_append, hdrop, List.take_append_drop, Nat.add_zero]
  rw [← htake, List.count_true_add_count_false, List.length_take, Nat.min_comm]

variable {l : Limit} (hnew : l.offered = 0)
include hnew

/-- A limit that is never lowered reports what it accepted and what it declined but would not decline any more. -/
theorem NeverLowers.accepted_eq {calls : List Call} (h : NeverLowers l.limit calls) :
    (l.run calls).1.accepted =
      (l.run calls).2.count true + ((l.run calls).2.take (l.run calls).1.limit).count false := by
  rw [accepted, offered_run, hnew, Nat.zero_add]
  refine min_length_eq_count fun i hi => ?_
  simpa only [hnew, Nat.zero_add] using h.lt_limit_of_accepted hi

/-- Wherever a limit is raised to after it has declined entries, it would not decline one of them any more. -/
theorem NeverLowers.false_mem_take_of_raise {front : List Call} {next : Nat}
    (h : NeverLowers l.limit (front ++ [.setLimit next])) (hdeclined : false ∈ (l.run front).2)
    (hraise : (l.run front).1.limit < next) : false ∈ (l.run front).2.take next := by
  have hbefore := (neverLowers_append.mp h).1.accepted_eq hnew
  have hafter := h.accepted_eq hnew
  simp only [run_concat_setLimit, accepted, offered_run, hnew, Nat.zero_add] at hbefore hafter
  -- not all of the entries were accepted, and those that were do not go beyond the limit as it stood
  have hanswers := List.count_true_add_count_false (l.run front).2
  have hpos := List.count_pos_iff.mpr hdeclined
  rw [← List.count_pos_iff]
  omega

/-- A limit that is never lowered comes to exceed the number of a declined entry only by being raised afterwards. -/
theorem NeverLowers.raisedAfterDeclining_iff {calls : List Call} (h : NeverLowers l.limit calls) :
    l.RaisedAfterDeclining calls ↔ false ∈ (l.run calls).2.take (l.run calls).1.limit := by
  constructor
  · rintro ⟨front, next, rest, rfl, hdeclined, hraise⟩
    rw [List.append_cons] at h ⊢
    obtain ⟨hfront, hrest⟩ := neverLowers_append.mp h
    have hmem := hfront.false_mem_take_of_raise hnew hdeclined hraise
    rw [run_concat_setLimit] at hrest
    rw [run_append, run_concat_setLimit, List.take_append]
    exact List.mem_append_left _ (List.take_subset_take_left _ hrest.le_limit_run hmem)
  · intro hmem
    -- the limit stood below the number of this entry when it was declined, and ended above it
    obtain ⟨i, hi⟩ := List.mem_iff_getElem?.mp hmem
    rw [List.getElem?_take, Option.ite_none_right_eq_some] at hi
    obtain ⟨front, e, rest, rfl, hlength, hanswer⟩ := exists_invoke_of_answer hi.2
    have hrise : (l.run front).1.limit < ((l.run front).1.run (.invoke e :: rest)).1.limit := by
      have hlt := hi.1
      have hdeclines := of_decide_eq_false hanswer.symm
      simp only [run_append, offered_run, hnew, hlength] at hlt hdeclines
      omega
    obtain ⟨later, next, rest, rfl, hraise⟩ :=
      exists_raise (l := ⟨(l.run front).1.limit, (l.run front).1.offered + 1⟩) hrise
    refine ⟨front ++ .invoke e :: later, next, rest, by simp, ?_, ?_⟩
    · rw [run_append, run_invoke, ← hanswer]
      exact List.mem_append_right _ List.mem_cons_self
    · rw [run_append]
      exact hraise

omit hnew

/-- A sink that is a limit is offered what it is handed and goes along with what it accepts. -/
theorem drive_limited (l : Limit) (entries : List Entry) :
    (Sink.limited.drive l entries).state = (l.run ((Sink.limited.drive l entries).handed.map .invoke)).1 ∧
      (Sink.limited.drive l entries).accepted =
        (l.run ((Sink.limited.drive l entries).handed.map .invoke)).2.count true := by
  induction entries generalizing l with
  | nil => exact ⟨rfl, rfl⟩
  | cons e rest ih =>
    rcases hpush : Sink.limited.push l e with ⟨next, _ | _⟩
    · rw [Sink.drive_of_declined hpush]
      simp only [List.map_cons, List.map_nil, run, hpush]
      exact ⟨trivial, rfl⟩
    · rw [Sink.drive_of_accepted hpush]
      obtain ⟨hstate, haccepted⟩ := ih next
      simp only [List.map_cons, run, hpush, List.count_cons_self]
      exact ⟨hstate, congrArg (· + 1) haccepted⟩

/-- A scan that fills a limit is a series of calls for the first of the entries it has to deliver, and it delivers
those that are accepted. -/
theorem exists_scan_eq_run (range : KeyRange) (order : ScanOrder) (l : Limit) (index : Index) :
    ∃ handed, handed <+: (index.directory.sweep range order).deliverable ∧
      index.scan range order .limited l =
        ((l.run (handed.map .invoke)).1, (l.run (handed.map .invoke)).2.count true) := by
  obtain ⟨hstate, haccepted⟩ := l.drive_limited (index.directory.sweep range order).deliverable
  refine ⟨_, ?_, (Sweep.deliver_eq_drive _ _ _).trans (Prod.ext hstate haccepted)⟩
  rw [Sink.drive_handed]
  exact List.take_prefix _ _

/-- A limit that is never lowered reports at every point the entries that it has accepted, and with them those that it
has declined although their number is within the limit as it stands now. There are such entries, and the report is
wrong, exactly if it was raised after it had declined an entry. This goes for calls that scans make as well: a scan
hands it the first of the entries that there are to deliver, and delivers those that it accepts. -/
theorem accepted_eq_count_iff_not_raised (limit : Nat) (calls : List Call) (h : NeverLowers limit calls) :
    ∃ l answers, run ⟨limit, 0⟩ calls = (l, answers) ∧
      l.accepted = answers.count true + (answers.take l.limit).count false ∧
      (l.accepted = answers.count true ↔ ¬ RaisedAfterDeclining ⟨limit, 0⟩ calls) ∧
      ∀ (index : Index) (range : KeyRange) (order : ScanOrder),
        ∃ handed, handed <+: (index.directory.sweep range order).deliverable ∧
          index.scan range order .limited l =
            ((l.run (handed.map .invoke)).1, (l.run (handed.map .invoke)).2.count true) := by
  have hreport := NeverLowers.accepted_eq (l := ⟨limit, 0⟩) rfl h
  have hraised := NeverLowers.raisedAfterDeclining_iff (l := ⟨limit, 0⟩) rfl h
  refine ⟨_, _, rfl, hreport, ?_, fun index range order => exists_scan_eq_run range order _ index⟩
  rw [hraised, ← List.count_pos_iff]
  omega

/-- A limit of one that is raised to three before it declines, and is set to three once more afterwards. -/
def raisedEarly : List Call :=
  [.invoke ⟨[97], []⟩, .setLimit 3, .invoke ⟨[98], []⟩, .invoke ⟨[99], []⟩, .invoke ⟨[100], []⟩, .setLimit 3]

/-- This limit reports the three entries that it accepted of four. -/
theorem accepted_eq_count_iff_not_raised_of_raisedEarly :
    NeverLowers 1 raisedEarly ∧ run ⟨1, 0⟩ raisedEarly = (⟨3, 4⟩, [true, true, true, false]) ∧
      accepted ⟨3, 4⟩ = 3 ∧ ¬ RaisedAfterDeclining ⟨1, 0⟩ raisedEarly := by
  have hnever : NeverLowers 1 raisedEarly := ⟨by decide, by decide, trivial⟩
  obtain ⟨l, answers, hrun, hreport, hiff, -⟩ := accepted_eq_count_iff_not_raised 1 raisedEarly hnever
  obtain ⟨rfl, rfl⟩ : ⟨3, 4⟩ = l ∧ [true, true, true, false] = answers := Prod.mk.inj hrun
  exact ⟨hnever, rfl, hreport, hiff.mp rfl⟩

/-- A limit of one that declines the second entry, and is raised to two then. -/
def raisedLate : List Call := [.invoke ⟨[97], []⟩, .invoke ⟨[98], []⟩, .setLimit 2]

/-- This limit reports two entries, and it accepted one. -/
theorem accepted_counts_declined :
    NeverLowers 1 raisedLate ∧ (run ⟨1, 0⟩ raisedLate).1.accepted = 2 ∧
      (run ⟨1, 0⟩ raisedLate).2.count true = 1 :=
  ⟨⟨by decide, trivial⟩, rfl, rfl⟩

end Limit

end ExtendibleHashing
