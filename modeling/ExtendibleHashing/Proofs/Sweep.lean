import ExtendibleHashing.Proofs.Directory.Contents
import ExtendibleHashing.Sweep

/-!
# What a sweep delivers

A sink is driven by a list when it is handed the entries one after the other until it declines. A
sweep drives its sink by what it collected: in order, and without the entries that repeat a key.
Sorting puts entries with different keys into strict order, and a strict order leaves no choice, so
a descending sweep delivers the same list backwards. Where a key was collected twice sorting puts its
entries next to each other, and leaving out repetitions makes the order strict again.
-/

namespace ExtendibleHashing

open scoped List

namespace Entry

/-- The order of entries is transitive. -/
theorem le_trans {a b c : Entry} (hab : a ≤ b) (hbc : b ≤ c) : a ≤ c := by
  rw [le_def] at *
  rcases hab with hab | ⟨hkey, hab⟩
  · rcases hbc with hbc | ⟨hkey', -⟩
    · exact .inl (List.lt_trans hab hbc)
    · exact .inl (hkey' ▸ hab)
  · rcases hbc with hbc | ⟨hkey', hbc⟩
    · exact .inl (hkey ▸ hbc)
    · exact .inr ⟨hkey.trans hkey', List.le_trans hab hbc⟩

/-- Any two entries are in order one way or the other. -/
theorem le_total (a b : Entry) : a ≤ b ∨ b ≤ a := by
  rw [le_def, le_def]
  rcases Std.lt_trichotomy a.key b.key with hlt | heq | hlt
  · exact .inl (.inl hlt)
  · rcases List.le_total a.value b.value with hle | hle
    · exact .inl (.inr ⟨heq, hle⟩)
    · exact .inr (.inr ⟨heq.symm, hle⟩)
  · exact .inr (.inl hlt)

/-- Entries in order have their keys in order if these differ. -/
theorem key_lt_of_le {a b : Entry} (h : a ≤ b) (hne : a.key ≠ b.key) : a.key < b.key :=
  (le_def.mp h).resolve_right fun heq => hne heq.1

end Entry

namespace ScanOrder

/-- One key comes strictly before another. -/
def Ahead : ScanOrder → Bytes → Bytes → Prop
  | .ascending, a, b => a < b
  | .descending, a, b => b < a

/-- A list that is in ascending order, in the direction of a scan. -/
def arrange (entries : List Entry) : ScanOrder → List Entry
  | .ascending => entries
  | .descending => entries.reverse

/-- Scans order entries transitively. -/
theorem precedes_trans (order : ScanOrder) (a b c : Entry) (hab : order.precedes a b)
    (hbc : order.precedes b c) : order.precedes a c := by
  cases order <;> simp only [precedes, decide_eq_true_eq] at *
  · exact Entry.le_trans hab hbc
  · exact Entry.le_trans hbc hab

/-- Scans order any two entries. -/
theorem precedes_total (order : ScanOrder) (a b : Entry) : order.precedes a b || order.precedes b a := by
  cases order <;> simp only [precedes, Bool.or_eq_true, decide_eq_true_eq]
  · exact Entry.le_total a b
  · exact Entry.le_total b a

/-- Entries in order have the same key, or the one comes strictly before the other. -/
theorem key_eq_or_ahead (order : ScanOrder) {a b : Entry} (h : order.precedes a b) :
    a.key = b.key ∨ order.Ahead a.key b.key := by
  rw [or_iff_not_imp_left]
  intro hne
  cases order <;> simp only [precedes, decide_eq_true_eq] at h
  · exact Entry.key_lt_of_le h hne
  · exact Entry.key_lt_of_le h (Ne.symm hne)

/-- What comes strictly before a key comes before all that follow it. -/
theorem ahead_trans (order : ScanOrder) {a b c : Bytes} (hab : order.Ahead a b) (hbc : order.Ahead b c) :
    order.Ahead a c := by
  cases order
  · exact List.lt_trans hab hbc
  · exact List.lt_trans hbc hab

/-- In a strict order no key comes twice. -/
theorem nodup_keys_of_pairwise_ahead (order : ScanOrder) {entries : List Entry}
    (h : entries.Pairwise fun a b => order.Ahead a.key b.key) : (entries.map (·.key)).Nodup := by
  refine List.pairwise_map.mpr (h.imp fun hahead heq => ?_)
  cases order <;> exact List.lt_irrefl _ (heq ▸ hahead)

/-- Sorting puts different keys into strict order. -/
theorem pairwise_ahead_mergeSort (order : ScanOrder) {entries : List Entry}
    (hnodup : (entries.map (·.key)).Nodup) :
    (entries.mergeSort order.precedes).Pairwise fun a b => order.Ahead a.key b.key := by
  have hsorted := List.pairwise_mergeSort order.precedes_trans order.precedes_total entries
  have hdistinct : (entries.mergeSort order.precedes).Pairwise fun a b => a.key ≠ b.key :=
    List.pairwise_map.mp (((List.mergeSort_perm entries _).map _).nodup_iff.mpr hnodup)
  exact (hsorted.and hdistinct).imp fun ⟨hle, hne⟩ => (order.key_eq_or_ahead hle).resolve_left hne

/-- Sorting entries that have a strict order finds it. -/
theorem mergeSort_eq (order : ScanOrder) {entries sorted : List Entry} (hperm : entries ~ sorted)
    (hsorted : sorted.Pairwise fun a b => order.Ahead a.key b.key) :
    entries.mergeSort order.precedes = sorted := by
  have hnodup : (entries.map (·.key)).Nodup :=
    (hperm.map _).nodup_iff.mpr (order.nodup_keys_of_pairwise_ahead hsorted)
  refine List.Perm.eq_of_pairwise ?_ (order.pairwise_ahead_mergeSort hnodup) hsorted
    ((List.mergeSort_perm _ _).trans hperm)
  intro a b _ _ hab hba
  cases order <;> exact absurd hba (List.lt_asymm hab)

/-- A strictly ascending list is in strict order once arranged. -/
theorem pairwise_arrange (order : ScanOrder) {entries : List Entry}
    (h : entries.Pairwise fun a b => a.key < b.key) :
    (order.arrange entries).Pairwise fun a b => order.Ahead a.key b.key := by
  cases order with
  | ascending => exact h
  | descending => exact List.pairwise_reverse.mpr h

/-- Arranging a list only reorders it. -/
theorem arrange_perm (order : ScanOrder) (entries : List Entry) : order.arrange entries ~ entries := by
  cases order with
  | ascending => exact .refl _
  | descending => exact entries.reverse_perm

end ScanOrder

namespace Sink

variable {σ : Type} (sink : Sink σ)

/-- What becomes of a sink that is handed a list of entries: its state, the entries it was handed,
and how many of them it answered by asking for more. -/
structure Intake (σ : Type) where
  state : σ
  handed : List Entry
  accepted : Nat

/-- Hand the entries to a sink one after the other, up to the first that it declines. -/
def drive (state : σ) : List Entry → Intake σ
  | [] => ⟨state, [], 0⟩
  | e :: rest =>
    match sink.push state e with
    | (state, false) => ⟨state, [e], 0⟩
    | (state, true) =>
      let later := drive state rest
      ⟨later.state, e :: later.handed, later.accepted + 1⟩

/-- The sink that also notes all it is handed. -/
def noting : Sink (σ × List Entry) where
  push noted e :=
    let (state, goesOn) := sink.push noted.1 e
    ((state, noted.2 ++ [e]), goesOn)

/-- The sink asks for more whatever it is handed. -/
def Insatiable : Prop := ∀ state e, (sink.push state e).2 = true

/-- The entries that do not repeat the key of the last one taken before them. -/
def unrepeated (last? : Option Bytes) : List Entry → List Entry
  | [] => []
  | e :: rest => if last? = some e.key then unrepeated last? rest else e :: unrepeated (some e.key) rest

variable {sink} {state next : σ} {e : Entry}

/-- A sink that declines is handed nothing more. -/
theorem drive_of_declined (h : sink.push state e = (next, false)) (rest : List Entry) :
    sink.drive state (e :: rest) = ⟨next, [e], 0⟩ := by
  rw [drive, h]

/-- A sink that asks for more is handed the rest. -/
theorem drive_of_accepted (h : sink.push state e = (next, true)) (rest : List Entry) :
    sink.drive state (e :: rest) =
      ⟨(sink.drive next rest).state, e :: (sink.drive next rest).handed,
        (sink.drive next rest).accepted + 1⟩ := by
  rw [drive, h]

/-- Noting does not change what a sink answers. -/
theorem push_noting {goesOn : Bool} (h : sink.push state e = (next, goesOn)) (noted : List Entry) :
    sink.noting.push (state, noted) e = ((next, noted ++ [e]), goesOn) := by
  simp only [noting, h]

variable (sink)

/-- A sweep drives its sink by the entries that repeat no key. -/
theorem feed_eq (state : σ) (last? : Option Bytes) (entries : List Entry) :
    sink.feed state last? entries =
      ((sink.drive state (unrepeated last? entries)).state,
        (sink.drive state (unrepeated last? entries)).accepted) := by
  induction entries generalizing state last? with
  | nil => rfl
  | cons e rest ih =>
    rw [feed, unrepeated]
    split
    next => exact ih state last?
    next =>
      rcases hpush : sink.push state e with ⟨next, _ | _⟩
      · rw [drive_of_declined hpush]
      · simp only [drive_of_accepted hpush, ih next (some e.key)]

/-- Entries with different keys repeat none. -/
theorem unrepeated_eq_self {last? : Option Bytes} {entries : List Entry}
    (hlast : ∀ key ∈ last?, key ∉ entries.map (·.key)) (hnodup : (entries.map (·.key)).Nodup) :
    unrepeated last? entries = entries := by
  induction entries generalizing last? with
  | nil => rfl
  | cons e rest ih =>
    rw [List.map_cons, List.nodup_cons] at hnodup
    have hne : last? ≠ some e.key := fun heq =>
      hlast e.key heq (List.mem_map_of_mem List.mem_cons_self)
    rw [unrepeated, if_neg hne, ih ?_ hnodup.2]
    rintro key ⟨⟩
    exact hnodup.1

/-- Leaving out repetitions adds nothing. -/
theorem unrepeated_sublist (last? : Option Bytes) (entries : List Entry) :
    (unrepeated last? entries).Sublist entries := by
  induction entries generalizing last? with
  | nil => exact .slnil
  | cons e rest ih =>
    rw [unrepeated]
    split
    next => exact (ih last?).cons e
    next => exact (ih (some e.key)).cons_cons e

/-- Leaving out repetitions loses no key, unless it was taken before. -/
theorem mem_keys_unrepeated {last? : Option Bytes} {entries : List Entry} {e : Entry} (he : e ∈ entries)
    (hlast : last? ≠ some e.key) : e.key ∈ (unrepeated last? entries).map (·.key) := by
  induction entries generalizing last? with
  | nil => exact absurd he List.not_mem_nil
  | cons x rest ih =>
    rw [unrepeated]
    by_cases hrepeats : last? = some x.key
    · rw [if_pos hrepeats]
      rcases List.mem_cons.mp he with rfl | he
      · exact absurd hrepeats hlast
      · exact ih he hlast
    · rw [if_neg hrepeats, List.map_cons, List.mem_cons]
      by_cases hkey : e.key = x.key
      · exact .inl hkey
      · have hne : e ≠ x := fun heq => hkey (congrArg Entry.key heq)
        have hlater := (List.mem_cons.mp he).resolve_left hne
        exact .inr (ih hlater fun heq => hkey (Option.some.inj heq).symm)

/-- Leaving out repetitions makes the order of a list strict, also with regard to what was taken before. -/
theorem pairwise_ahead_unrepeated (order : ScanOrder) {last? : Option Bytes} {entries : List Entry}
    (hlast : ∀ key ∈ last?, ∀ e ∈ entries, key = e.key ∨ order.Ahead key e.key)
    (hsorted : entries.Pairwise fun a b => order.precedes a b) :
    (∀ key ∈ last?, ∀ e ∈ unrepeated last? entries, order.Ahead key e.key) ∧
      (unrepeated last? entries).Pairwise fun a b => order.Ahead a.key b.key := by
  induction entries generalizing last? with
  | nil => exact ⟨fun _ _ e he => absurd he List.not_mem_nil, .nil⟩
  | cons x rest ih =>
    obtain ⟨hfirst, hrest⟩ := List.pairwise_cons.mp hsorted
    rw [unrepeated]
    by_cases hrepeats : last? = some x.key
    · rw [if_pos hrepeats]
      exact ih (fun key hkey e he => hlast key hkey e (List.mem_cons_of_mem _ he)) hrest
    · have hx : ∀ key ∈ some x.key, ∀ e ∈ rest, key = e.key ∨ order.Ahead key e.key := by
        rintro key ⟨⟩ e he
        exact order.key_eq_or_ahead (hfirst e he)
      obtain ⟨hahead, hstrict⟩ := ih hx hrest
      rw [if_neg hrepeats]
      refine ⟨fun key hkey => ?_, List.pairwise_cons.mpr ⟨hahead x.key rfl, hstrict⟩⟩
      have hne : key ≠ x.key := fun heq => hrepeats (heq ▸ hkey)
      have hkeyx := (hlast key hkey x List.mem_cons_self).resolve_left hne
      exact List.forall_mem_cons.mpr ⟨hkeyx, fun e he => order.ahead_trans hkeyx (hahead x.key rfl e he)⟩

/-- A sink that notes what it is handed is driven like the sink itself. -/
theorem drive_noting (state : σ) (noted entries : List Entry) :
    (sink.noting.drive (state, noted) entries).state =
      ((sink.drive state entries).state, noted ++ (sink.drive state entries).handed) := by
  induction entries generalizing state noted with
  | nil => rw [drive, drive, List.append_nil]
  | cons e rest ih =>
    rcases hpush : sink.push state e with ⟨next, _ | _⟩
    · rw [drive_of_declined hpush, drive_of_declined (push_noting hpush noted)]
    · rw [drive_of_accepted hpush, drive_of_accepted (push_noting hpush noted), ih, List.append_assoc,
        List.singleton_append]

/-- A sink is handed the entries it accepts and the one that it declines. -/
theorem drive_handed (state : σ) (entries : List Entry) :
    (sink.drive state entries).handed = entries.take ((sink.drive state entries).accepted + 1) := by
  induction entries generalizing state with
  | nil => rfl
  | cons e rest ih =>
    rcases hpush : sink.push state e with ⟨next, _ | _⟩
    · rw [drive_of_declined hpush, List.take_succ_cons, List.take_zero]
    · rw [drive_of_accepted hpush, List.take_succ_cons, ih next]

/-- An insatiable sink is handed everything. -/
theorem Insatiable.drive_eq {sink : Sink σ} (h : sink.Insatiable) (state : σ) (entries : List Entry) :
    sink.drive state entries =
      ⟨entries.foldl (fun state e => (sink.push state e).1) state, entries, entries.length⟩ := by
  induction entries generalizing state with
  | nil => rfl
  | cons e rest ih =>
    have hpush : sink.push state e = ((sink.push state e).1, true) := Prod.ext rfl (h state e)
    rw [drive_of_accepted hpush, ih]
    rfl

/-- A limit accepts all entries that it has room for. -/
theorem accepted_drive_limited (l : Limit) (entries : List Entry) :
    (limited.drive l entries).state.accepted = min (l.offered + entries.length) l.limit := by
  induction entries generalizing l with
  | nil => rfl
  | cons e rest ih =>
    by_cases hroom : l.offered + 1 ≤ l.limit
    · have hpush : limited.push l e = ({ l with offered := l.offered + 1 }, true) := by
        simp only [limited, Limit.offer, hroom, decide_true]
      rw [drive_of_accepted hpush, ih, List.length_cons, Nat.add_right_comm, Nat.add_assoc]
    · have hpush : limited.push l e = ({ l with offered := l.offered + 1 }, false) := by
        simp only [limited, Limit.offer, hroom, decide_false]
      simp only [drive_of_declined hpush, Limit.accepted, List.length_cons]
      omega

end Sink

namespace Sweep

/-- A sweep over buckets collects their entries in range. -/
theorem collected_foldl_add (buckets : List Bucket) (sweep : Sweep) :
    (buckets.foldl (fun sweep b => sweep.add b) sweep).collected ~
      (buckets.flatMap (·.entries)).filter (fun e => sweep.range.contains e.key) ++ sweep.collected := by
  induction buckets generalizing sweep with
  | nil => exact .refl _
  | cons b rest ih =>
    rw [List.foldl_cons, List.flatMap_cons, List.filter_append]
    refine (ih (sweep.add b)).trans ?_
    rw [add, ← List.append_assoc]
    exact (List.perm_append_comm).append_right _

/-- A sweep keeps its direction. -/
theorem order_foldl_add (buckets : List Bucket) (sweep : Sweep) :
    (buckets.foldl (fun sweep b => sweep.add b) sweep).order = sweep.order := by
  induction buckets generalizing sweep with
  | nil => rfl
  | cons b rest ih => exact ih (sweep.add b)

/-- What a sweep has to deliver: what it collected, in order and without repeated keys. -/
def deliverable (sweep : Sweep) : List Entry :=
  Sink.unrepeated none (sweep.collected.mergeSort sweep.order.precedes)

/-- A sweep drives its sink by what it has to deliver. -/
theorem deliver_eq_drive {σ : Type} (sink : Sink σ) (state : σ) (sweep : Sweep) :
    sweep.deliver sink state =
      ((sink.drive state sweep.deliverable).state, (sink.drive state sweep.deliverable).accepted) :=
  sink.feed_eq state none _

/-- A sweep delivers in strict order. -/
theorem pairwise_deliverable (sweep : Sweep) :
    sweep.deliverable.Pairwise fun a b => sweep.order.Ahead a.key b.key := by
  have hsorted := List.pairwise_mergeSort sweep.order.precedes_trans sweep.order.precedes_total sweep.collected
  refine (Sink.pairwise_ahead_unrepeated sweep.order ?_ hsorted).2
  rintro key ⟨⟩

/-- A sweep delivers nothing that it did not collect. -/
theorem mem_collected_of_deliverable {sweep : Sweep} {e : Entry} (he : e ∈ sweep.deliverable) :
    e ∈ sweep.collected :=
  List.mem_mergeSort.mp ((Sink.unrepeated_sublist _ _).mem he)

/-- A sweep delivers every key that it collected. -/
theorem mem_keys_deliverable {sweep : Sweep} {e : Entry} (he : e ∈ sweep.collected) :
    e.key ∈ sweep.deliverable.map (·.key) := by
  refine Sink.mem_keys_unrepeated (List.mem_mergeSort.mpr he) ?_
  rintro ⟨⟩

/-- If the entries that were collected have a strict order, they are delivered in this order. -/
theorem deliver_eq {σ : Type} (sink : Sink σ) (state : σ) {sweep : Sweep} {sorted : List Entry}
    (hperm : sweep.collected ~ sorted)
    (hsorted : sorted.Pairwise fun a b => sweep.order.Ahead a.key b.key) :
    sweep.deliver sink state = ((sink.drive state sorted).state, (sink.drive state sorted).accepted) := by
  have hkeys := sweep.order.nodup_keys_of_pairwise_ahead hsorted
  rw [deliver_eq_drive, deliverable, sweep.order.mergeSort_eq hperm hsorted,
    Sink.unrepeated_eq_self (by rintro key ⟨⟩) hkeys]

end Sweep

end ExtendibleHashing
