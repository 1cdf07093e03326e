import ExtendibleHashing.Proofs.Session.RangeScan
import ExtendibleHashing.Proofs.Session.Refusal
import ExtendibleHashing.Proofs.Session.Sharing

/-!
# Sweeps while others go on

A scan takes hold of one bucket at a time, so operations come in between its visits to two cells, and
entries move while it sweeps. A split leaves the smallest member of a class with the bucket it was, so
whatever becomes of a number, the bucket responsible for it only ever changes to one of larger identity.
The sweep goes by ascending identity: an entry can be met twice, but it does not slip past. What the
cells ahead of the sweep still hold is argued by induction over these cells.
-/

namespace ExtendibleHashing

variable {hash : HashFunction}

namespace Directory

variable {sweep : Sweep} {cell : Nat} {dir : Directory}

/-- A visit does not change what a sweep is after. -/
theorem aim_visit : (dir.visit sweep cell).range = sweep.range ∧ (dir.visit sweep cell).order = sweep.order := by
  unfold visit
  split <;> exact ⟨rfl, rfl⟩

/-- A visit collects the entries in range from the bucket in the cell. -/
theorem mem_collected_visit_iff {e : Entry} : e ∈ (dir.visit sweep cell).collected ↔
    (∃ b, dir.Holds cell b ∧ e ∈ b.entries ∧ sweep.range.contains e.key) ∨ e ∈ sweep.collected := by
  unfold visit Holds
  split
  next b hcell => simp [hcell, Sweep.add, List.mem_filter]
  next hcell =>
    have hempty (b : Bucket) : dir.cells[cell]? ≠ some (some b) := fun hb => hcell b hb
    simp [hempty]

end Directory

namespace Index

variable {index next : Index}

/-- The bucket responsible for a number never changes to one of smaller identity. -/
theorem Path.id_le {id id' n : Nat} {b b' : Bucket} (h : index.Path hash next) (hsound : index.Sound hash)
    (hb : index.directory.Holds id b) (hb' : next.directory.Holds id' b') (hcovers : b.Covers n)
    (hcovers' : b'.Covers n) : id ≤ id' := by
  have hnext := (h.sound hsound).directory
  have horigin : n % 2 ^ b.localDepth = id := hcovers.trans (hsound.directory.origin_eq hb)
  have horigin' : n % 2 ^ b'.localDepth = id' := hcovers'.trans (hnext.origin_eq hb')
  rcases Nat.le_total b.localDepth b'.localDepth with hle | hle
  · have hmod : id' % 2 ^ b.localDepth = id := by
      rw [← horigin', Nat.mod_mod_of_dvd n (Nat.pow_dvd_pow 2 hle), horigin]
    exact hmod ▸ Nat.mod_le id' _
  · -- a class as large as before has the identity of the first bucket in it, so nothing was passed on
    obtain ⟨c, hc⟩ := h.retains hsound hb
    have hself : c.Covers id := hnext.origin_eq hc ▸ (hnext.bucket_sound hc).rooted.covers_origin
    have hid : b'.Covers id := horigin ▸ (Bucket.covers_mod hle n).mpr hcovers'
    exact (hnext.id_eq_of_covers hc hb' hself hid).le

/-- Sweep over cells while others go on: the steps given for a cell are run before it is visited. Answers
the sweep and the indexes met at the visits. -/
def sweepAmid (occupancy : Occupancy) (hash : HashFunction) (meanwhile : Nat → List Step) :
    List Nat → Sweep → Index → Except Fault (Sweep × List Index)
  | [], sweep, _ => return (sweep, [])
  | cell :: rest, sweep, index => do
    let (_, index) ← Step.runAll occupancy (.ok hash) (meanwhile cell) index
    let (sweep, moments) ← sweepAmid occupancy hash meanwhile rest (index.directory.visit sweep cell) index
    return (sweep, index :: moments)

/-- Sweep over all cells of the directory while others go on. -/
def interleavedSweep (occupancy : Occupancy) (hash : HashFunction) (meanwhile : Nat → List Step)
    (range : KeyRange) (order : ScanOrder) (index : Index) : Except Fault (Sweep × List Index) :=
  sweepAmid occupancy hash meanwhile (List.range index.directory.cells.size) (.empty range order) index

/-- As long as nobody else does anything, the cells are visited in the index as it is. -/
theorem sweepAmid_idle (occupancy : Occupancy) (hash : HashFunction) (cells : List Nat) (sweep : Sweep)
    (index : Index) : sweepAmid occupancy hash (fun _ => []) cells sweep index =
      .ok (cells.foldl (fun sweep cell => index.directory.visit sweep cell) sweep, cells.map fun _ => index) := by
  induction cells generalizing sweep with
  | nil => rfl
  | cons cell rest ih =>
    simp only [sweepAmid, Step.runAll_nil, ih, bind, Except.bind]
    rfl

/-- As long as nobody else does anything, sweeping is what a scan does. -/
theorem interleavedSweep_idle (occupancy : Occupancy) (hash : HashFunction) (range : KeyRange)
    (order : ScanOrder) (index : Index) : index.interleavedSweep occupancy hash (fun _ => []) range order =
      .ok (index.directory.sweep range order, (List.range index.directory.cells.size).map fun _ => index) :=
  sweepAmid_idle occupancy hash _ _ index

/-- A sweep passes over cells of an index that changes: each cell is visited in the index that some path
has led to by then. -/
inductive Passes (hash : HashFunction) : List Nat → Sweep → Index → Sweep → List Index → Prop
  | nil {sweep : Sweep} {index : Index} : Passes hash [] sweep index sweep []
  | cons {cell : Nat} {rest : List Nat} {sweep last : Sweep} {index later : Index} {moments : List Index}
      (hpath : index.Path hash later)
      (hrest : Passes hash rest (later.directory.visit sweep cell) later last moments) :
      Passes hash (cell :: rest) sweep index last (later :: moments)

/-- Whatever others do, a sweep passes over its cells, and if it shares the directory with them that gets
no deeper. -/
theorem exists_sweepAmid (occupancy : Occupancy) (meanwhile : Nat → List Step) (cells : List Nat)
    (sweep : Sweep) (hsound : index.Sound hash) :
    ∃ last moments, sweepAmid occupancy hash meanwhile cells sweep index = .ok (last, moments) ∧
      Passes hash cells sweep index last moments ∧
      (occupancy = .shared → ∀ moment ∈ moments, moment.directory.depth = index.directory.depth) := by
  induction cells generalizing sweep index with
  | nil => exact ⟨sweep, [], rfl, .nil, fun _ moment hmoment => absurd hmoment List.not_mem_nil⟩
  | cons cell rest ih =>
    obtain ⟨answers, later, hsteps, hpath⟩ := Step.exists_runAll occupancy (meanwhile cell) index hsound
    obtain ⟨last, moments, hrun, hpasses, hshared⟩ :=
      ih (later.directory.visit sweep cell) (hpath.sound hsound)
    refine ⟨last, later :: moments, ?_, .cons hpath hpasses, fun hoccupancy => ?_⟩
    · simp only [sweepAmid, hsteps, hrun, bind, Except.bind]
      rfl
    · subst hoccupancy
      have hlater := Step.depth_of_runAll hsteps
      exact List.forall_mem_cons.mpr ⟨hlater, fun moment hmoment => (hshared rfl moment hmoment).trans hlater⟩

namespace Passes

variable {cells : List Nat} {sweep last : Sweep} {moments : List Index}

/-- On its way a sweep does not change what it is after. -/
theorem aim_eq (h : Passes hash cells sweep index last moments) :
    last.range = sweep.range ∧ last.order = sweep.order := by
  induction h with
  | nil => exact ⟨rfl, rfl⟩
  | cons _ _ ih =>
    obtain ⟨hrange, horder⟩ := Directory.aim_visit
    exact ⟨ih.1.trans hrange, ih.2.trans horder⟩

/-- On its way a sweep loses nothing. -/
theorem mem_collected_of_mem {e : Entry} (h : Passes hash cells sweep index last moments)
    (he : e ∈ sweep.collected) : e ∈ last.collected := by
  induction h with
  | nil => exact he
  | cons _ _ ih => exact ih (Directory.mem_collected_visit_iff.mpr (.inr he))

/-- On its way a sweep collects entries in range that are stored when it comes by. -/
theorem stored_of_mem_collected {e : Entry} (h : Passes hash cells sweep index last moments)
    (he : e ∈ last.collected) :
    e ∈ sweep.collected ∨ sweep.range.contains e.key ∧ ∃ moment ∈ moments, e ∈ moment.directory.entries := by
  induction h with
  | nil => exact .inl he
  | @cons cell rest sweep last index later moments hpath hrest ih =>
    rcases ih he with hfirst | ⟨hrange, moment, hmoment, he⟩
    · rcases Directory.mem_collected_visit_iff.mp hfirst with ⟨b, hb, heb, hrange⟩ | hbefore
      · exact .inr ⟨hrange, later, List.mem_cons_self, Directory.mem_entries_iff.mpr ⟨cell, b, hb, heb⟩⟩
      · exact .inl hbefore
    · rw [Directory.aim_visit.1] at hrange
      exact .inr ⟨hrange, moment, List.mem_cons_of_mem _ hmoment, he⟩

/-- A key that is always stored is collected from the cells ahead, as long as its bucket is ahead. -/
theorem exists_collected {cell count id : Nat} {b : Bucket} {key : Bytes}
    (h : Passes hash (List.range' cell count) sweep index last moments) (hsound : index.Sound hash)
    (hdepth : ∀ moment ∈ moments, moment.directory.depth = index.directory.depth)
    (hend : cell + count = 2 ^ index.directory.depth) (hb : index.directory.Holds id b)
    (hcovers : b.Covers (hash key).toNat) (hahead : cell ≤ id) (hrange : sweep.range.contains key)
    (hstored : ∀ moment ∈ moments, key ∈ moment.directory.keys) : key ∈ last.collected.map (·.key) := by
  induction count generalizing cell sweep index moments id b with
  | zero =>
    have hid := hb.lt
    rw [hsound.directory.cells_size] at hid
    omega
  | succ count ih =>
    cases h with
    | @cons _ _ _ _ _ later moments hpath hrest =>
      have hlater := hpath.sound hsound
      rw [List.forall_mem_cons] at hdepth hstored
      obtain ⟨id', b', -, hb', hcovers'⟩ := hlater.directory.exists_covering (hash key).toNat
      have hid := hpath.id_le hsound hb hb' hcovers hcovers'
      rcases Nat.lt_or_ge cell id' with hstill | hhere
      · refine ih hrest hlater (fun moment hmoment => ?_) ?_ hb' hcovers' hstill ?_ hstored.2
        · exact (hdepth.2 moment hmoment).trans hdepth.1.symm
        · rw [hdepth.1]
          omega
        · rw [Directory.aim_visit.1]
          exact hrange
      · obtain rfl : id' = cell := by omega
        obtain ⟨e, he, rfl⟩ := List.mem_map.mp
          ((hlater.directory.mem_keys_iff_of_covers hb' hcovers').mp hstored.1)
        have hcollected := Directory.mem_collected_visit_iff.mpr (.inl ⟨b', hb', he, hrange⟩)
        exact List.mem_map_of_mem (hrest.mem_collected_of_mem hcollected)

end Passes

end Index

/-- A sweep over a reachable index ends whatever others do between its visits, and while it shares the
directory with them that gets no deeper. It hands an insatiable sink entries in strict order, each between
the bounds and stored when the sweep came by; and if the directory did not get deeper, every key between the
bounds that was stored all the time is among them, once. -/
theorem interleavedSweep_of_reachable {index : Index} (h : Reachable hash index) (occupancy : Occupancy)
    (meanwhile : Nat → List Step) (range : KeyRange) (order : ScanOrder) :
    ∃ (sweep : Sweep) (moments : List Index) (delivered : List Entry),
      index.interleavedSweep occupancy hash meanwhile range order = .ok (sweep, moments) ∧
      (occupancy = .shared → ∀ moment ∈ moments, moment.directory.depth = index.directory.depth) ∧
      (∀ {σ : Type} (sink : Sink σ) (state : σ), sink.Insatiable → sweep.deliver sink state =
        (delivered.foldl (fun state e => (sink.push state e).1) state, delivered.length)) ∧
      (delivered.Pairwise fun a b => order.Ahead a.key b.key) ∧
      (∀ e ∈ delivered, (range.start ≤ e.key ∧ ∀ stop ∈ range.stop?, e.key ≤ stop) ∧
        ∃ moment ∈ moments, e ∈ moment.directory.entries) ∧
      ((∀ moment ∈ moments, moment.directory.depth = index.directory.depth) →
        ∀ key, (range.start ≤ key ∧ ∀ stop ∈ range.stop?, key ≤ stop) →
          (∀ moment ∈ moments, key ∈ moment.storedKeys) → (delivered.map (·.key)).count key = 1) := by
  have hsound := h.sound
  obtain ⟨sweep, moments, hrun, hpasses, hshared⟩ := Index.exists_sweepAmid occupancy meanwhile
    (List.range index.directory.cells.size) (.empty range order) hsound
  have horder : sweep.order = order := hpasses.aim_eq.2
  have hstrict : sweep.deliverable.Pairwise fun a b => order.Ahead a.key b.key :=
    horder ▸ sweep.pairwise_deliverable
  refine ⟨sweep, moments, sweep.deliverable, hrun, hshared, fun sink state hsink => ?_, hstrict,
    fun e he => ?_, fun hdepth key hkey hstored => ?_⟩
  · rw [sweep.deliver_eq_drive, hsink.drive_eq]
  · have hcollected := hpasses.stored_of_mem_collected (Sweep.mem_collected_of_deliverable he)
    obtain ⟨hrange, hmoment⟩ := hcollected.resolve_left List.not_mem_nil
    exact ⟨KeyRange.contains_iff.mp hrange, hmoment⟩
  · rw [List.range_eq_range', hsound.directory.cells_size] at hpasses
    obtain ⟨id, b, -, hb, hcovers⟩ := hsound.directory.exists_covering (hash key).toNat
    have hcollected := hpasses.exists_collected hsound hdepth (Nat.zero_add _) hb hcovers (Nat.zero_le _)
      (KeyRange.contains_iff.mpr hkey) fun moment hmoment => List.mem_toFinset.mp (hstored moment hmoment)
    obtain ⟨e, he, rfl⟩ := List.mem_map.mp hcollected
    exact List.count_eq_one_of_mem (order.nodup_keys_of_pairwise_ahead hstrict) (Sweep.mem_keys_deliverable he)

/-- While a sweep is at its third cell, a key is inserted whose bucket was swept over and is split then. One
of the keys that move ahead of the sweep is collected twice, and delivered once. Keys are hashed to their
first byte. -/
theorem interleavedSweep_amid_split :
    ∃ (start : Index) (sweep : Sweep) (moments : List Index) (delivered : List Entry),
      Reachable (fun key => (key.headD 0).toUInt32) start ∧
      start.interleavedSweep .shared (fun key => (key.headD 0).toUInt32)
        (fun cell => if cell = 2 then [.request (.operate (.insert ⟨[57], []⟩))] else []) ⟨[49], some [56]⟩
        .descending = .ok (sweep, moments) ∧
      (sweep.collected.map (·.key)).count [51] = 2 ∧ (delivered.map (·.key)).count [51] = 1 ∧
      sweep.deliver .entries #[] = (delivered.toArray, delivered.length) := by
  have hnew : Reachable (fun key => (key.headD 0).toUInt32) ⟨.ofDepth 0, 0⟩ :=
    reachable_ofDepth _ (Nat.zero_le _)
  obtain ⟨answer, start, hseries, -⟩ :=
    Step.exists_run .vacant (.request (.series .insert ⟨[], 0, 9, 1⟩)) _ hnew.sound
  have hstart := hnew.step hseries
  obtain ⟨sweep, moments, delivered, hrun, hshared, hdeliver, -, -, honce⟩ :=
    interleavedSweep_of_reachable hstart .shared
      (fun cell => if cell = 2 then [.request (.operate (.insert ⟨[57], []⟩))] else []) ⟨[49], some [56]⟩
      .descending
  have heval : ((Step.run .vacant (.ok fun key => (key.headD 0).toUInt32)
      (.request (.series .insert ⟨[], 0, 9, 1⟩)) ⟨.ofDepth 0, 0⟩).bind fun inserted =>
        (inserted.2.interleavedSweep .shared (fun key => (key.headD 0).toUInt32)
          (fun cell => if cell = 2 then [.request (.operate (.insert ⟨[57], []⟩))] else []) ⟨[49], some [56]⟩
          .descending).map fun run => ((run.1.collected.map (·.key)).count [51],
            run.2.all fun moment => [51] ∈ moment.directory.keys)) = .ok (2, true) := by
    decide +kernel
  rw [hseries] at heval
  change (start.interleavedSweep _ _ _ _ _).map _ = _ at heval
  rw [hrun] at heval
  obtain ⟨htwice, hstored⟩ := Prod.mk.inj (Except.ok.inj heval)
  refine ⟨start, sweep, moments, delivered, hstart, hrun, htwice, ?_, ?_⟩
  · apply honce (hshared rfl) [51] (by decide)
    simpa [Index.storedKeys] using hstored
  · rw [hdeliver .entries #[] fun _ _ => rfl]
    simp [Sink.entries]

end ExtendibleHashing
