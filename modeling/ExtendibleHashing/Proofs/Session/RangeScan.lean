import ExtendibleHashing.Proofs.Session.FiniteMap
import ExtendibleHashing.Proofs.Sweep

/-!
# Scans as listings of a finite map

A scan goes over the cells of the directory, and so over every bucket once however many slots refer
to it. No key is in two buckets, so what is collected is the stored entries in range, each once, and
sorting leaves a single list of them: the bindings of the finite map in range, by ascending keys.
Every sink is driven by this list, or by its reverse.
-/

namespace ExtendibleHashing

open scoped List

/-- A sweep over the cells is one over the buckets. -/
theorem Directory.sweep_eq (range : KeyRange) (order : ScanOrder) (dir : Directory) :
    dir.sweep range order = dir.buckets.foldl (fun sweep b => sweep.add b) (.empty range order) := by
  have hcells : dir.cells.toList = (List.range dir.cells.size).map fun cell => dir.cells.getD cell none :=
    List.ext_getElem (by simp) fun cell hcell _ => by
      simp [Array.getD_eq_getD_getElem?, show cell < dir.cells.size by simpa using hcell]
  rw [buckets, hcells, List.filterMap_map, List.foldl_filterMap, sweep]
  congr 1
  funext sweep cell
  rw [visit, Function.comp_apply, id_eq, Array.getD_eq_getD_getElem?]
  rcases dir.cells[cell]? with _ | _ | b <;> rfl

/-- A sweep over a directory collects its entries in range. -/
theorem Directory.collected_sweep (range : KeyRange) (order : ScanOrder) (dir : Directory) :
    (dir.sweep range order).collected ~ dir.entries.filter fun e => range.contains e.key := by
  rw [sweep_eq, entries]
  simpa [Sweep.empty] using Sweep.collected_foldl_add dir.buckets (.empty range order)

namespace Store

variable {m : Store} {range : KeyRange} {entries : List Entry}

/-- The bindings of a finite map with keys in a range, by strictly ascending keys. -/
structure Lists (m : Store) (range : KeyRange) (entries : List Entry) : Prop where
  ascending : entries.Pairwise fun a b => a.key < b.key
  mem_iff : ∀ e, e ∈ entries ↔
    m.lookup e.key = some e.value ∧ range.start ≤ e.key ∧ ∀ stop ∈ range.stop?, e.key ≤ stop

/-- A listing is as long as there are keys in range. -/
theorem Lists.length_eq (h : m.Lists range entries) :
    entries.length = (m.keys.filter fun key => range.start ≤ key ∧ ∀ stop ∈ range.stop?, key ≤ stop).card := by
  have hkeys : (m.keys.filter fun key => range.start ≤ key ∧ ∀ stop ∈ range.stop?, key ≤ stop) =
      (entries.map (·.key)).toFinset := by
    ext key
    rw [Finset.mem_filter, Finmap.mem_keys, Finmap.mem_iff, List.mem_toFinset, List.mem_map]
    constructor
    · rintro ⟨⟨value, hvalue⟩, hrange⟩
      exact ⟨⟨key, value⟩, (h.mem_iff _).mpr ⟨hvalue, hrange⟩, rfl⟩
    · rintro ⟨e, he, rfl⟩
      obtain ⟨hvalue, hrange⟩ := (h.mem_iff e).mp he
      exact ⟨⟨e.value, hvalue⟩, hrange⟩
  rw [hkeys, List.toFinset_card_of_nodup (ScanOrder.ascending.nodup_keys_of_pairwise_ahead h.ascending),
    List.length_map]

/-- Entries without repeated keys list a finite map. -/
theorem exists_listedBy (entries : List Entry) (hnodup : (entries.map (·.key)).Nodup) :
    ∃ m : Store, m.ListedBy entries := by
  induction entries with
  | nil => exact ⟨∅, fun key value => by simp⟩
  | cons e rest ih =>
    rw [List.map_cons, List.nodup_cons] at hnodup
    obtain ⟨m, hm⟩ := ih hnodup.2
    exact ⟨_, hm.insert hnodup.1⟩

end Store

namespace Index

variable {hash : HashFunction} {index : Index}

/-- The entries of an index in range, in the order of an ascending scan. -/
def listing (range : KeyRange) (index : Index) : List Entry :=
  (index.directory.entries.filter fun e => range.contains e.key).mergeSort ScanOrder.ascending.precedes

/-- The listing of a sound index is strictly ascending. -/
theorem Sound.pairwise_listing (hsound : index.Sound hash) (range : KeyRange) :
    (index.listing range).Pairwise fun a b => a.key < b.key :=
  ScanOrder.ascending.pairwise_ahead_mergeSort (hsound.keys_nodup.sublist (List.filter_sublist.map _))

/-- The listing of an index is that of the finite map it represents. -/
theorem Sound.lists_listing (hsound : index.Sound hash) {m : Store} (hrep : index.Represents m)
    (range : KeyRange) : m.Lists range (index.listing range) where
  ascending := hsound.pairwise_listing range
  mem_iff e := by
    rw [listing, List.mem_mergeSort, List.mem_filter, hrep e.key e.value, KeyRange.contains_iff]

/-- A scan drives its sink by the listing, in its direction. -/
theorem Sound.scan_eq (hsound : index.Sound hash) {σ : Type} (range : KeyRange) (order : ScanOrder)
    (sink : Sink σ) (state : σ) :
    index.scan range order sink state =
      ((sink.drive state (order.arrange (index.listing range))).state,
        (sink.drive state (order.arrange (index.listing range))).accepted) := by
  have horder : (index.directory.sweep range order).order = order := by
    rw [Directory.sweep_eq, Sweep.order_foldl_add, Sweep.empty]
  have hperm : (index.directory.sweep range order).collected ~ order.arrange (index.listing range) :=
    (index.directory.collected_sweep range order).trans
      ((order.arrange_perm _).trans (List.mergeSort_perm _ _)).symm
  refine Sweep.deliver_eq sink state hperm ?_
  rw [horder]
  exact order.pairwise_arrange (hsound.pairwise_listing range)

/-- A limit accepts as many of the listed entries as it allows. -/
theorem Sound.accepted_scan_limited (hsound : index.Sound hash) (range : KeyRange) (order : ScanOrder)
    (limit : Nat) :
    (index.scan range order .limited { limit }).1.accepted = min limit (index.listing range).length := by
  rw [hsound.scan_eq range order .limited { limit }, Sink.accepted_drive_limited,
    (order.arrange_perm _).length_eq, Nat.zero_add, Nat.min_comm]

end Index

/-- A scan is answered at any time, and leaves the index as it is. -/
theorem Request.run_scan (occupancy : Occupancy) (hash : Except HashError HashFunction) (index : Index)
    (range : KeyRange) (order : ScanOrder) (collector : Collector) :
    (Request.scan range order collector).run occupancy hash index =
      .ok ⟨.collected (collector.gather fun sink state => index.scan range order sink state).1, index, []⟩ := by
  rw [Request.run, if_neg (by simp [Request.isView])]
  rfl

/-- A reachable index stores the bindings of a finite map, and for every range those within have a
listing by ascending keys. A scan hands it to the sink entry by entry, forwards or backwards, with the
first entry that is declined as the last; so what a limit accepts is counted by the keys in range.
However the scan goes, the index stays as it was. -/
theorem scan_of_reachable {hash : HashFunction} {index : Index} (h : Reachable hash index) :
    ∃ m : Store, index.Represents m ∧ ∀ range : KeyRange, ∃ entries, m.Lists range entries ∧
      (∀ (order : ScanOrder) {σ : Type} (sink : Sink σ) (state : σ),
        let intake := sink.drive state (order.arrange entries)
        index.scan range order sink state = (intake.state, intake.accepted) ∧
          (index.scan range order sink.noting (state, [])).1 = (intake.state, intake.handed) ∧
          intake.handed = (order.arrange entries).take (intake.accepted + 1)) ∧
      (∀ (order : ScanOrder) (limit : Nat),
        (index.scan range order .limited { limit }).1.accepted = min limit
          (m.keys.filter fun key => range.start ≤ key ∧ ∀ stop ∈ range.stop?, key ≤ stop).card) ∧
      ∀ (order : ScanOrder) (collector : Collector) (occupancy : Occupancy),
        (Request.scan range order collector).run occupancy (.ok hash) index =
          .ok ⟨.collected (collector.gather fun sink state => index.scan range order sink state).1, index, []⟩ := by
  have hsound := h.sound
  obtain ⟨m, hrep⟩ := Store.exists_listedBy index.directory.entries hsound.keys_nodup
  refine ⟨m, hrep, fun range => ⟨index.listing range, hsound.lists_listing hrep range, ?_, ?_, ?_⟩⟩
  · intro order σ sink state
    refine ⟨hsound.scan_eq range order sink state, ?_, sink.drive_handed state _⟩
    rw [hsound.scan_eq range order sink.noting (state, []), sink.drive_noting, List.nil_append]
  · intro order limit
    rw [hsound.accepted_scan_limited, (hsound.lists_listing hrep range).length_eq]
  · intro order collector occupancy
    exact Request.run_scan occupancy (.ok hash) index range order collector

/-- Two of three keys lie between the bounds. A limit of one lets a scan take one of them, and a higher limit
both. -/
theorem scan_between_bounds :
    ∃ m : Store, (Index.single [⟨[3], [30]⟩, ⟨[1], [10]⟩, ⟨[2], [20]⟩]).Represents m ∧
      ((Index.single [⟨[3], [30]⟩, ⟨[1], [10]⟩, ⟨[2], [20]⟩]).scan ⟨[2], some [3]⟩ .descending .limited
        { limit := 1 }).1.accepted = 1 ∧
      ((Index.single [⟨[3], [30]⟩, ⟨[1], [10]⟩, ⟨[2], [20]⟩]).scan ⟨[2], some [3]⟩ .descending .limited
        { limit := 5 }).1.accepted = 2 := by
  have hreachable : Reachable (fun _ => 7) (.single [⟨[3], [30]⟩, ⟨[1], [10]⟩, ⟨[2], [20]⟩]) :=
    reachable_single _ (by decide) (by decide)
  obtain ⟨m, hrep, hscan⟩ := scan_of_reachable hreachable
  obtain ⟨entries, -, -, hlimit, -⟩ := hscan ⟨[2], some [3]⟩
  have hwithin : (m.keys.filter fun key => [2] ≤ key ∧ ∀ stop ∈ (some [3] : Option Bytes), key ≤ stop).card = 2 := by
    rw [hrep.keys_eq]
    decide
  refine ⟨m, hrep, ?_, ?_⟩
  · rw [hlimit, hwithin, Nat.min_eq_left (by decide)]
  · rw [hlimit, hwithin, Nat.min_eq_right (by decide)]

end ExtendibleHashing
