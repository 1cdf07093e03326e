import ExtendibleHashing.Proofs.Sweep
import Mathlib.Data.List.Nodup

/-!
# Sweeps over repeated keys

A sweep may collect a key several times and with different values. What it delivers then is each key once, with
the value that the order of the scan puts first, whatever sink it delivers to. It does not matter how the
collected entries are kept either: any queue that always gives out an entry that nothing left in it comes
before gives them out in the order of sorting, since different entries never come before each other both ways.
-/

namespace ExtendibleHashing

open scoped List

/-- Entries that come before each other both ways are the same. -/
theorem Entry.le_antisymm {a b : Entry} (hab : a ≤ b) (hba : b ≤ a) : a = b := by
  rcases le_def.mp hab with hlt | ⟨hkey, hvalue⟩
  · rcases le_def.mp hba with hgt | ⟨hkey, -⟩
    · exact absurd hgt (List.lt_asymm hlt)
    · exact absurd (hkey ▸ hlt) (List.lt_irrefl _)
  · rcases le_def.mp hba with hgt | ⟨-, hvalue'⟩
    · exact absurd (hkey ▸ hgt) (List.lt_irrefl _)
    · cases a
      cases b
      exact congrArg₂ Entry.mk hkey (List.le_antisymm hvalue hvalue')

namespace ScanOrder

/-- One of two values of a key comes first. -/
def Leads : ScanOrder → Bytes → Bytes → Prop
  | .ascending, a, b => a ≤ b
  | .descending, a, b => b ≤ a

instance (order : ScanOrder) (a b : Bytes) : Decidable (order.Leads a b) :=
  match order with
  | .ascending => inferInstanceAs (Decidable (a ≤ b))
  | .descending => inferInstanceAs (Decidable (b ≤ a))

/-- Entries with the same key are in the order of their values. -/
theorem precedes_iff_leads (order : ScanOrder) {a b : Entry} (hkey : a.key = b.key) :
    order.precedes a b ↔ order.Leads a.value b.value := by
  cases order <;> simp [precedes, Leads, Entry.le_def, hkey, List.lt_irrefl]

/-- Scans leave no choice between different entries. -/
theorem precedes_antisymm (order : ScanOrder) {a b : Entry} (hab : order.precedes a b) (hba : order.precedes b a) :
    a = b := by
  cases order <;> simp only [precedes, decide_eq_true_eq] at hab hba
  · exact Entry.le_antisymm hab hba
  · exact Entry.le_antisymm hba hab

/-- Every entry comes before itself. -/
theorem precedes_refl (order : ScanOrder) (e : Entry) : order.precedes e e := by
  simpa only [Bool.or_self] using order.precedes_total e e

/-- Nothing comes strictly before itself. -/
theorem ahead_irrefl (order : ScanOrder) (key : Bytes) : ¬ order.Ahead key key := by
  cases order <;> exact List.lt_irrefl key

/-- A queue gives out what it holds one by one, each time an entry that none of those left comes before. -/
inductive Pops (order : ScanOrder) : List Entry → List Entry → Prop
  | empty : Pops order [] []
  | pop {held left popped : List Entry} {e : Entry} (hheld : held ~ e :: left)
      (hfirst : ∀ x ∈ held, order.precedes e x) (hrest : Pops order left popped) : Pops order held (e :: popped)

/-- A queue gives out exactly what it holds. -/
theorem Pops.perm {order : ScanOrder} {held popped : List Entry} (h : order.Pops held popped) : held ~ popped := by
  induction h with
  | empty => exact .refl _
  | pop hheld _ _ ih => exact hheld.trans (ih.cons _)

/-- A queue gives out what it holds in order. -/
theorem Pops.pairwise {order : ScanOrder} {held popped : List Entry} (h : order.Pops held popped) :
    popped.Pairwise fun a b => order.precedes a b := by
  induction h with
  | empty => exact .nil
  | pop hheld hfirst hrest ih =>
    refine List.pairwise_cons.mpr ⟨fun x hx => hfirst x ?_, ih⟩
    exact hheld.mem_iff.mpr (List.mem_cons_of_mem _ (hrest.perm.mem_iff.mpr hx))

/-- Queues do not keep the order in which they were filled. -/
theorem Pops.of_perm {order : ScanOrder} {held held' popped : List Entry} (h : order.Pops held popped)
    (hperm : held' ~ held) : order.Pops held' popped := by
  cases h with
  | empty =>
    obtain rfl := hperm.eq_nil
    exact .empty
  | pop hheld hfirst hrest => exact .pop (hperm.trans hheld) (fun x hx => hfirst x (hperm.mem_iff.mp hx)) hrest

/-- Any queue gives out entries in the order of sorting. -/
theorem Pops.eq_mergeSort {order : ScanOrder} {held popped : List Entry} (h : order.Pops held popped) :
    popped = held.mergeSort order.precedes := by
  have hsorted := List.pairwise_mergeSort order.precedes_trans order.precedes_total held
  have hperm : popped ~ held.mergeSort order.precedes := h.perm.symm.trans (List.mergeSort_perm _ _).symm
  exact List.Perm.eq_of_pairwise (fun a b _ _ => order.precedes_antisymm) h.pairwise hsorted hperm

/-- Some queue gives out the entries in the order of sorting. -/
theorem pops_mergeSort (order : ScanOrder) (held : List Entry) :
    order.Pops held (held.mergeSort order.precedes) := by
  have hpops {popped : List Entry} (hsorted : popped.Pairwise fun a b => order.precedes a b) :
      order.Pops popped popped := by
    induction popped with
    | nil => exact .empty
    | cons e rest ih =>
      obtain ⟨hfirst, hrest⟩ := List.pairwise_cons.mp hsorted
      exact .pop (.refl _) (List.forall_mem_cons.mpr ⟨order.precedes_refl e, hfirst⟩) (ih hrest)
  exact (hpops (List.pairwise_mergeSort order.precedes_trans order.precedes_total held)).of_perm
    (List.mergeSort_perm _ _).symm

/-- Each key of a list of entries once, in strict order and with the first of its values. -/
structure Merges (order : ScanOrder) (entries merged : List Entry) : Prop where
  ahead : merged.Pairwise fun a b => order.Ahead a.key b.key
  mem_iff : ∀ e, e ∈ merged ↔ e ∈ entries ∧ ∀ x ∈ entries, x.key = e.key → order.Leads e.value x.value

/-- Merging repeats nothing. -/
theorem Merges.nodup {order : ScanOrder} {entries merged : List Entry} (h : order.Merges entries merged) :
    merged.Nodup :=
  List.Nodup.of_map _ (order.nodup_keys_of_pairwise_ahead h.ahead)

/-- There is only one way to merge entries. -/
theorem Merges.unique {order : ScanOrder} {entries merged merged' : List Entry} (h : order.Merges entries merged)
    (h' : order.Merges entries merged') : merged = merged' := by
  have hperm : merged ~ merged' :=
    (List.perm_ext_iff_of_nodup h.nodup h'.nodup).mpr fun e => (h.mem_iff e).trans (h'.mem_iff e).symm
  refine List.Perm.eq_of_pairwise (fun a b _ _ hab hba => ?_) h.ahead h'.ahead hperm
  exact absurd (order.ahead_trans hab hba) (order.ahead_irrefl _)

/-- Merging does not depend on the order of the entries. -/
theorem Merges.of_perm {order : ScanOrder} {entries entries' merged : List Entry} (h : order.Merges entries merged)
    (hperm : entries ~ entries') : order.Merges entries' merged where
  ahead := h.ahead
  mem_iff e := by simpa only [hperm.mem_iff] using h.mem_iff e

end ScanOrder

namespace Sink

variable {σ : Type} (sink : Sink σ)

/-- In a sorted list, the entry that is left of the entries of a key comes before all of them. -/
theorem precedes_of_mem_unrepeated (order : ScanOrder) {last? : Option Bytes} {entries : List Entry}
    (hlast : ∀ key ∈ last?, ∀ e ∈ entries, key = e.key ∨ order.Ahead key e.key)
    (hsorted : entries.Pairwise fun a b => order.precedes a b) {e x : Entry} (he : e ∈ unrepeated last? entries)
    (hx : x ∈ entries) (hkey : x.key = e.key) : order.precedes e x := by
  induction entries generalizing last? with
  | nil => exact absurd hx List.not_mem_nil
  | cons y rest ih =>
    obtain ⟨hfirst, hrest⟩ := List.pairwise_cons.mp hsorted
    have hstrict := (pairwise_ahead_unrepeated order hlast hsorted).1
    rw [unrepeated] at he hstrict
    by_cases hrepeats : last? = some y.key
    · rw [if_pos hrepeats] at he hstrict
      have hne : x ≠ y := by
        rintro rfl
        exact order.ahead_irrefl _ (hkey ▸ hstrict x.key hrepeats e he)
      exact ih (fun key hkey e he => hlast key hkey e (List.mem_cons_of_mem _ he)) hrest he
        ((List.mem_cons.mp hx).resolve_left hne)
    · rw [if_neg hrepeats] at he
      have hy : ∀ key ∈ some y.key, ∀ e ∈ rest, key = e.key ∨ order.Ahead key e.key := by
        rintro key ⟨⟩ e he
        exact order.key_eq_or_ahead (hfirst e he)
      rcases List.mem_cons.mp he with rfl | he
      · rcases List.mem_cons.mp hx with rfl | hx
        · exact order.precedes_refl x
        · exact hfirst x hx
      · have hne : x ≠ y := by
          rintro rfl
          exact order.ahead_irrefl _ (hkey ▸ (pairwise_ahead_unrepeated order hy hrest).1 x.key rfl e he)
        exact ih hy hrest he ((List.mem_cons.mp hx).resolve_left hne)

/-- What becomes of a sink that is handed entries, whatever it answers. -/
def after (state : σ) (entries : List Entry) : σ := entries.foldl (fun state e => (sink.push state e).1) state

/-- A sink goes along with so many entries of a list: it asks for more after each of them, and declines the
next one if there is one. -/
structure GoesAlong (state : σ) (entries : List Entry) (count : Nat) : Prop where
  le_length : count ≤ entries.length
  accepts : ∀ i < count, ∀ e, entries[i]? = some e → (sink.push (sink.after state (entries.take i)) e).2 = true
  declines : ∀ e, entries[count]? = some e → (sink.push (sink.after state (entries.take count)) e).2 = false

/-- A sink goes along with the entries that it accepts. -/
theorem goesAlong_drive (state : σ) (entries : List Entry) :
    sink.GoesAlong state entries (sink.drive state entries).accepted := by
  induction entries generalizing state with
  | nil => exact ⟨Nat.le_refl _, fun i hi => absurd hi (Nat.not_lt_zero i), fun e he => by simp at he⟩
  | cons x rest ih =>
    rcases hpush : sink.push state x with ⟨next, _ | _⟩
    · rw [drive_of_declined hpush]
      refine ⟨Nat.zero_le _, fun i hi => absurd hi (Nat.not_lt_zero i), ?_⟩
      rintro e ⟨⟩
      exact congrArg Prod.snd hpush
    · rw [drive_of_accepted hpush]
      obtain ⟨hlength, haccepts, hdeclines⟩ := ih next
      have hafter (n : Nat) : sink.after state ((x :: rest).take (n + 1)) = sink.after next (rest.take n) := by
        rw [List.take_succ_cons, after, List.foldl_cons, hpush]
        rfl
      refine ⟨Nat.succ_le_succ hlength, fun i hi e he => ?_, fun e he => ?_⟩
      · cases i with
        | zero =>
          obtain rfl := Option.some.inj he
          exact congrArg Prod.snd hpush
        | succ i =>
          rw [hafter]
          exact haccepts i (Nat.lt_of_succ_lt_succ hi) e he
      · rw [hafter]
        exact hdeclines e he

/-- A sink is left as the entries leave it that it was handed. -/
theorem drive_state (state : σ) (entries : List Entry) :
    (sink.drive state entries).state = sink.after state (sink.drive state entries).handed := by
  induction entries generalizing state with
  | nil => rfl
  | cons x rest ih =>
    rcases hpush : sink.push state x with ⟨next, _ | _⟩
    · rw [drive_of_declined hpush, after, List.foldl_cons, hpush]
      rfl
    · rw [drive_of_accepted hpush, ih, after, after, List.foldl_cons, hpush]

end Sink

namespace Sweep

/-- A sweep has to deliver what it collected, merged. -/
theorem merges_deliverable (sweep : Sweep) : sweep.order.Merges sweep.collected sweep.deliverable where
  ahead := sweep.pairwise_deliverable
  mem_iff e := by
    have hsorted := List.pairwise_mergeSort sweep.order.precedes_trans sweep.order.precedes_total sweep.collected
    have hleads {e x : Entry} (he : e ∈ sweep.deliverable) (hx : x ∈ sweep.collected) (hkey : x.key = e.key) :
        sweep.order.precedes e x :=
      Sink.precedes_of_mem_unrepeated sweep.order (by rintro key ⟨⟩) hsorted he (List.mem_mergeSort.mpr hx) hkey
    constructor
    · exact fun he => ⟨mem_collected_of_deliverable he, fun x hx hkey =>
        (sweep.order.precedes_iff_leads hkey.symm).mp (hleads he hx hkey)⟩
    · rintro ⟨he, hfirst⟩
      obtain ⟨d, hd, hkey⟩ := List.mem_map.mp (mem_keys_deliverable he)
      have hed := (sweep.order.precedes_iff_leads hkey.symm).mpr (hfirst d (mem_collected_of_deliverable hd) hkey)
      rwa [sweep.order.precedes_antisymm hed (hleads hd he hkey.symm)]

/-- A sweep over some buckets, one after the other. -/
def ofBuckets (range : KeyRange) (order : ScanOrder) (buckets : List Bucket) : Sweep :=
  buckets.foldl (fun sweep b => sweep.add b) (.empty range order)

end Sweep

/-- The entries of some buckets with keys between the bounds of a range, repetitions included. -/
def KeyRange.within (buckets : List Bucket) (range : KeyRange) : List Entry :=
  (buckets.flatMap (·.entries)).filter fun e => range.start ≤ e.key ∧ ∀ stop ∈ range.stop?, e.key ≤ stop

/-- A sweep over buckets collects their entries within its range. -/
theorem Sweep.collected_ofBuckets_perm (range : KeyRange) (order : ScanOrder) (buckets : List Bucket) :
    (Sweep.ofBuckets range order buckets).collected ~ range.within buckets := by
  have hwithin : range.within buckets = (buckets.flatMap (·.entries)).filter fun e => range.contains e.key :=
    List.filter_congr fun e _ => by
      rw [Bool.eq_iff_iff, decide_eq_true_eq, KeyRange.contains_iff]
  rw [hwithin]
  simpa only [ofBuckets, empty, List.append_nil] using Sweep.collected_foldl_add buckets (.empty range order)

/-- Whatever buckets a sweep went over, and however often their keys are repeated, it counts all entries in range
and has one list to deliver: each key once, in strict order and with the first of its values. It hands this list
to the sink up to the first entry that is declined, and counts those that were not. Any queue would do for that
which gives out first what comes first. -/
theorem deliver_merges_repeated (range : KeyRange) (order : ScanOrder) (buckets : List Bucket) :
    (Sweep.ofBuckets range order buckets).size = (range.within buckets).length ∧
      ∃ merged, order.Merges (range.within buckets) merged ∧
        (∀ merged', order.Merges (range.within buckets) merged' → merged' = merged) ∧
        ∀ {σ : Type} (sink : Sink σ) (state : σ),
          (∃ count, sink.GoesAlong state merged count ∧
            (Sweep.ofBuckets range order buckets).deliver sink state =
              (sink.after state (merged.take (count + 1)), count) ∧
            ((Sweep.ofBuckets range order buckets).deliver sink.noting (state, [])).1.2 = merged.take (count + 1)) ∧
          (∃ popped, order.Pops (Sweep.ofBuckets range order buckets).collected popped) ∧
          ∀ popped, order.Pops (Sweep.ofBuckets range order buckets).collected popped →
            sink.feed state none popped = (Sweep.ofBuckets range order buckets).deliver sink state := by
  have hcollected := Sweep.collected_ofBuckets_perm range order buckets
  have horder : (Sweep.ofBuckets range order buckets).order = order :=
    Sweep.order_foldl_add buckets (.empty range order)
  generalize Sweep.ofBuckets range order buckets = sweep at hcollected horder ⊢
  subst horder
  have hmerges := sweep.merges_deliverable.of_perm hcollected
  refine ⟨hcollected.length_eq, sweep.deliverable, hmerges, fun merged' h => h.unique hmerges, fun sink state =>
    ⟨⟨_, sink.goesAlong_drive state _, ?_, ?_⟩, ⟨_, sweep.order.pops_mergeSort _⟩, fun popped hpops => ?_⟩⟩
  · rw [sweep.deliver_eq_drive, sink.drive_state, sink.drive_handed]
  · rw [sweep.deliver_eq_drive, sink.drive_noting, sink.drive_handed, List.nil_append]
  · rw [hpops.eq_mergeSort, Sweep.deliver]

/-- A key is collected three times, from two buckets, and delivered with the least of its values. The sink takes no
more after that. -/
theorem deliver_merges_repeated_until_declined :
    (Sweep.ofBuckets ⟨[1], some [3]⟩ .ascending [⟨[⟨[2], [9]⟩, ⟨[2], [7]⟩, ⟨[3], []⟩], 0, 0⟩,
      ⟨[⟨[4], []⟩, ⟨[2], [8]⟩, ⟨[1], [5]⟩], 0, 0⟩]).size = 5 ∧
    (Sweep.ofBuckets ⟨[1], some [3]⟩ .ascending [⟨[⟨[2], [9]⟩, ⟨[2], [7]⟩, ⟨[3], []⟩], 0, 0⟩,
      ⟨[⟨[4], []⟩, ⟨[2], [8]⟩, ⟨[1], [5]⟩], 0, 0⟩]).deliver (Sink.take 2) #[] = (#[⟨[1], [5]⟩, ⟨[2], [7]⟩], 1) := by
  have hwithin : KeyRange.within [⟨[⟨[2], [9]⟩, ⟨[2], [7]⟩, ⟨[3], []⟩], 0, 0⟩,
      ⟨[⟨[4], []⟩, ⟨[2], [8]⟩, ⟨[1], [5]⟩], 0, 0⟩] ⟨[1], some [3]⟩ =
      [⟨[2], [9]⟩, ⟨[2], [7]⟩, ⟨[3], []⟩, ⟨[2], [8]⟩, ⟨[1], [5]⟩] := by
    decide
  have hmerges : ScanOrder.ascending.Merges [⟨[2], [9]⟩, ⟨[2], [7]⟩, ⟨[3], []⟩, ⟨[2], [8]⟩, ⟨[1], [5]⟩]
      [⟨[1], [5]⟩, ⟨[2], [7]⟩, ⟨[3], []⟩] := by
    refine ⟨?_, fun e => ⟨?_, fun he => ?_⟩⟩
    · simp only [ScanOrder.Ahead]
      decide
    · revert e
      decide
    · obtain ⟨he, hfirst⟩ := he
      revert e
      decide
  obtain ⟨hsize, merged, -, hunique, hdeliver⟩ := deliver_merges_repeated ⟨[1], some [3]⟩ .ascending
    [⟨[⟨[2], [9]⟩, ⟨[2], [7]⟩, ⟨[3], []⟩], 0, 0⟩, ⟨[⟨[4], []⟩, ⟨[2], [8]⟩, ⟨[1], [5]⟩], 0, 0⟩]
  rw [hwithin] at hsize hunique
  obtain rfl := hunique _ hmerges
  obtain ⟨⟨count, halong, hresult, -⟩, -, -⟩ := hdeliver (Sink.take 2) #[]
  obtain rfl : count = 1 := by
    rcases Nat.lt_trichotomy count 1 with hless | rfl | hmore
    · obtain rfl := Nat.lt_one_iff.mp hless
      exact absurd (halong.declines ⟨[1], [5]⟩ rfl) (by decide)
    · rfl
    · exact absurd (halong.accepts 1 hmore ⟨[2], [7]⟩ rfl) (by decide)
  exact ⟨hsize, hresult⟩

end ExtendibleHashing
