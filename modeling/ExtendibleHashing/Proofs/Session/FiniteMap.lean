import ExtendibleHashing.Proofs.Session.Path
import Mathlib.Data.Finmap

/-!
# Sessions as histories of a finite map

To its clients an index is a finite map from keys to values. `Store.Answers` says what each point
operation answers and what it makes of the map; nothing there depends on hashes or buckets, but that
an insertion of a new key may be refused. An index lists a map when it stores exactly the bindings
of the map as entries. This relation goes along with every request, so every session without races
is a history of the map that starts empty, with the number of bindings as the size all along.
-/

namespace ExtendibleHashing

open scoped List

/-- A finite map from keys to values. -/
abbrev Store := Finmap fun _ : Bytes => Bytes

namespace Store

/-- What a point operation answers and makes of a finite map. -/
inductive Answers (m : Store) : Operation → Outcome → Store → Prop
  | get {key : Bytes} : Answers m (.get key) (.found (m.lookup key)) m
  /-- The value stored first stays. -/
  | insertPresent {entry : Entry} (hkey : entry.key ∈ m) : Answers m (.insert entry) .accepted m
  | insertNew {entry : Entry} (hkey : entry.key ∉ m) :
      Answers m (.insert entry) .accepted (m.insert entry.key entry.value)
  | insertRefused {entry : Entry} {error : IndexError} (hkey : entry.key ∉ m) :
      Answers m (.insert entry) (.refused error) m
  | updatePresent {entry : Entry} (hkey : entry.key ∈ m) :
      Answers m (.update entry) .done (m.insert entry.key entry.value)
  | updateAbsent {entry : Entry} (hkey : entry.key ∉ m) : Answers m (.update entry) .done m
  | removePresent {key : Bytes} (hkey : key ∈ m) : Answers m (.remove key) .done (m.erase key)
  | removeAbsent {key : Bytes} (hkey : key ∉ m) : Answers m (.remove key) .done m

/-- What a series answers and makes of a finite map, operation by operation. -/
inductive AnswersAll (task : SeriesTask) : Store → List Entry → SeriesCount → Store → Prop
  | nil {m : Store} : AnswersAll task m [] ⟨0, []⟩ m
  | cons {m next last : Store} {entry : Entry} {rest : List Entry} {outcome : Outcome} {count : SeriesCount}
      (hfirst : m.Answers (task.operation entry) outcome next) (hrest : AnswersAll task next rest count last) :
      AnswersAll task m (entry :: rest) (count.add entry.key outcome) last

/-- What a request answers and makes of a finite map. Requests that look into the directory may
answer what they like here, but must leave the map alone. -/
inductive Serves (m : Store) : Request → Reply → Store → Prop
  | operate {op : Operation} {outcome : Outcome} {next : Store} (hanswers : m.Answers op outcome next) :
      Serves m (.operate op) (.outcome outcome) next
  | series {task : SeriesTask} {s : Series} {count : SeriesCount} {next : Store}
      (hanswers : AnswersAll task m s.entries count next) : Serves m (.series task s) (.series count) next
  | read {request : Request} {reply : Reply} (hreads : request.Reads)
      (hsize : request = .size → reply = .number m.keys.card) : Serves m request reply m

/-- A history of a finite map: requests, their answers, and after each the number of bindings. -/
inductive History : Store → List Request → List Answer → Store → Prop
  | nil {m : Store} : History m [] [] m
  | cons {m next last : Store} {request : Request} {reply : Reply} {status : Status}
      {requests : List Request} {answers : List Answer} (hserves : m.Serves request reply next)
      (hsize : status.size = next.keys.card) (hrest : History next requests answers last) :
      History m (request :: requests) (.request reply status :: answers) last

/-- The entries list the bindings of a finite map. -/
def ListedBy (entries : List Entry) (m : Store) : Prop :=
  ∀ key value, m.lookup key = some value ↔ ⟨key, value⟩ ∈ entries

namespace ListedBy

variable {m : Store} {entries rest : List Entry} {entry : Entry}

/-- The order of entries does not matter. -/
theorem perm (h : m.ListedBy entries) (hperm : entries ~ rest) : m.ListedBy rest :=
  fun key value => (h key value).trans hperm.mem_iff

/-- A key is bound exactly when some entry has it. -/
theorem mem_iff (h : m.ListedBy entries) (key : Bytes) : key ∈ m ↔ key ∈ entries.map (·.key) := by
  rw [Finmap.mem_iff, List.mem_map]
  constructor
  · rintro ⟨value, hvalue⟩
    exact ⟨_, (h key value).mp hvalue, rfl⟩
  · rintro ⟨e, he, rfl⟩
    exact ⟨e.value, (h e.key e.value).mpr he⟩

/-- The keys are those of the entries. -/
theorem keys_eq (h : m.ListedBy entries) : m.keys = (entries.map (·.key)).toFinset := by
  ext key
  rw [Finmap.mem_keys, h.mem_iff, List.mem_toFinset]

/-- Without repeated keys there are as many bindings as entries. -/
theorem card_keys (h : m.ListedBy entries) (hnodup : (entries.map (·.key)).Nodup) :
    m.keys.card = entries.length := by
  rw [h.keys_eq, List.toFinset_card_of_nodup hnodup, List.length_map]

/-- Entries list no more than one finite map. -/
theorem unique {m' : Store} (h : m.ListedBy entries) (h' : m'.ListedBy entries) : m = m' := by
  apply Finmap.ext_lookup
  intro key
  ext value
  exact (h key value).trans (h' key value).symm

/-- The empty map has no entries. -/
theorem empty : ListedBy [] ∅ := by
  intro key value
  rw [Finmap.lookup_empty]
  exact iff_of_false (Option.some_ne_none value).symm List.not_mem_nil

/-- A binding is added with an entry of a new key. -/
theorem insert (h : m.ListedBy rest) (hkey : entry.key ∉ rest.map (·.key)) :
    ListedBy (entry :: rest) (m.insert entry.key entry.value) := by
  intro key value
  rw [List.mem_cons]
  by_cases heq : key = entry.key
  · subst heq
    have hother : (⟨entry.key, value⟩ : Entry) ∉ rest := fun he =>
      hkey (List.mem_map.mpr ⟨_, he, rfl⟩)
    rw [Finmap.lookup_insert, or_iff_left hother, Option.some_inj]
    exact ⟨fun hvalue => hvalue ▸ rfl, fun he => (congrArg Entry.value he).symm⟩
  · have hother : (⟨key, value⟩ : Entry) ≠ entry := fun he => heq (congrArg Entry.key he)
    rw [Finmap.lookup_insert_of_ne _ heq, or_iff_right hother]
    exact h key value

/-- A binding is erased with the only entry of its key. -/
theorem erase (h : m.ListedBy (entry :: rest)) (hkey : entry.key ∉ rest.map (·.key)) :
    ListedBy rest (m.erase entry.key) := by
  intro key value
  by_cases heq : key = entry.key
  · subst heq
    have hother : (⟨entry.key, value⟩ : Entry) ∉ rest := fun he =>
      hkey (List.mem_map.mpr ⟨_, he, rfl⟩)
    rw [Finmap.lookup_erase]
    exact iff_of_false nofun hother
  · have hother : (⟨key, value⟩ : Entry) ≠ entry := fun he => heq (congrArg Entry.key he)
    rw [Finmap.lookup_erase_ne heq, h key value, List.mem_cons, or_iff_right hother]

end ListedBy

/-- Binding a key anew needs no erasing before. -/
theorem insert_erase (m : Store) (key value : Bytes) : (m.erase key).insert key value = m.insert key value := by
  apply Finmap.ext_lookup
  intro k
  by_cases heq : k = key
  · subst heq
    rw [Finmap.lookup_insert, Finmap.lookup_insert]
  · rw [Finmap.lookup_insert_of_ne _ heq, Finmap.lookup_insert_of_ne _ heq, Finmap.lookup_erase_ne heq]

end Store

variable {hash : HashFunction} {index next : Index} {m : Store}

namespace Index

/-- An index stores the bindings of a finite map. -/
def Represents (m : Store) (index : Index) : Prop := m.ListedBy index.directory.entries

/-- The size of a sound index is the number of bindings. -/
theorem Represents.size_eq (hrep : index.Represents m) (hsound : index.Sound hash) :
    index.size.toNat = m.keys.card :=
  hsound.size_eq.trans (hrep.card_keys hsound.keys_nodup).symm

/-- The effect of an operation is that on the finite map. -/
theorem Effect.exists_answers {op : Operation} {outcome : Outcome} (h : Effect index op outcome next)
    (hnodup : index.directory.keys.Nodup) (hrep : index.Represents m) :
    ∃ m', m.Answers op outcome m' ∧ next.Represents m' := by
  have hkeys (key : Bytes) : key ∈ m ↔ key ∈ index.directory.keys := hrep.mem_iff key
  cases h with
  | @read key value? hvalue =>
    have hlookup : value? = m.lookup key := by
      ext value
      exact (hvalue value).trans (hrep key value).symm
    rw [hlookup]
    exact ⟨m, .get, hrep⟩
  | present hkey => exact ⟨m, .insertPresent ((hkeys _).mpr hkey), hrep⟩
  | added hkey hadded =>
    exact ⟨_, .insertNew (mt (hkeys _).mp hkey), (hrep.insert hkey).perm hadded.symm⟩
  | refused hkey => exact ⟨m, .insertRefused (mt (hkeys _).mp hkey), hrep⟩
  | @replaced entry old rest directory hkey hbefore hafter =>
    have hold : old.key ∉ rest.map (·.key) :=
      (List.nodup_cons.mp ((Directory.keys_perm hbefore).nodup_iff.mp hnodup)).1
    have hmem : entry.key ∈ m := by
      rw [hkeys, ← hkey, (Directory.keys_perm hbefore).mem_iff]
      exact List.mem_cons_self
    refine ⟨_, .updatePresent hmem, ?_⟩
    rw [← Store.insert_erase]
    have herased := (hrep.perm hbefore).erase hold
    rw [hkey] at herased hold
    exact (herased.insert hold).perm hafter.symm
  | updateIdle hkey => exact ⟨m, .updateAbsent (mt (hkeys _).mp hkey), hrep⟩
  | @removed old directory hbefore =>
    have hold : old.key ∉ directory.keys :=
      (List.nodup_cons.mp ((Directory.keys_perm hbefore).nodup_iff.mp hnodup)).1
    have hmem : old.key ∈ m := by
      rw [hkeys, (Directory.keys_perm hbefore).mem_iff]
      exact List.mem_cons_self
    exact ⟨_, .removePresent hmem, (hrep.perm hbefore).erase hold⟩
  | removeIdle hkey => exact ⟨m, .removeAbsent (mt (hkeys _).mp hkey), hrep⟩

/-- A point operation of an index nobody shares is one of the finite map. -/
theorem Settles.exists_answers {op : Operation} {settled : Settled Outcome}
    (h : index.Settles .vacant hash op settled) (hsound : index.Sound hash) (hrep : index.Represents m) :
    ∃ outcome m', settled.result = .ok outcome ∧ m.Answers op outcome m' ∧
      settled.index.Represents m' := by
  obtain ⟨outcome, next, rfl, htransition⟩ := h.exists_transition
  have heffect := htransition.effect hsound.directory hsound.keys_nodup
  obtain ⟨m', hanswers, hrep'⟩ := heffect.exists_answers hsound.keys_nodup hrep
  exact ⟨outcome, m', rfl, hanswers, hrep'⟩

/-- A series on an index nobody shares is one on the finite map. -/
theorem SettlesAll.exists_answersAll {task : SeriesTask} {entries : List Entry}
    {settled : Settled SeriesCount} (h : SettlesAll .vacant hash task index entries settled)
    (hsound : index.Sound hash) (hrep : index.Represents m) :
    ∃ count m', settled.result = .ok count ∧ Store.AnswersAll task m entries count m' ∧
      settled.index.Represents m' := by
  induction h generalizing m with
  | nil => exact ⟨_, m, rfl, .nil, hrep⟩
  | blocked hfirst =>
    obtain ⟨outcome, m', hresult, -⟩ := hfirst.exists_answers hsound hrep
    exact absurd hresult nofun
  | cons hfirst _ ih =>
    obtain ⟨outcome, m', hresult, hanswers, hrep'⟩ := hfirst.exists_answers hsound hrep
    obtain rfl := Except.ok.inj hresult
    obtain ⟨count, m'', hcount, hrest, hrep''⟩ := ih (hfirst.path.sound hsound) hrep'
    exact ⟨_, m'', by rw [hcount]; rfl, .cons hanswers hrest, hrep''⟩

end Index

/-- A request to an index nobody shares is one to the finite map. -/
theorem Request.Serves.exists_serves {request : Request} {reply : Reply}
    (h : request.Serves .vacant hash index reply next) (hsound : index.Sound hash)
    (hrep : index.Represents m) : ∃ m', m.Serves request reply m' ∧ next.Represents m' := by
  cases h with
  | operate hsettles =>
    obtain ⟨outcome, m', hresult, hanswers, hrep'⟩ := hsettles.exists_answers hsound hrep
    exact ⟨m', by rw [Settled.reply, hresult]; exact .operate hanswers, hrep'⟩
  | series hsettles =>
    obtain ⟨count, m', hresult, hanswers, hrep'⟩ := hsettles.exists_answersAll hsound hrep
    exact ⟨m', by rw [Settled.reply, hresult]; exact .series hanswers, hrep'⟩
  | read hreads hsize => exact ⟨m, .read hreads fun h => hrep.size_eq hsound ▸ hsize h, hrep⟩
  | blocked _ hshared => exact absurd hshared nofun

/-- Requests to an index nobody shares are a history of the finite map. -/
theorem exists_runAll_history (requests : List Request) (hsound : index.Sound hash)
    (hrep : index.Represents m) :
    ∃ answers next m', Step.runAll .vacant (.ok hash) (requests.map .request) index = .ok (answers, next) ∧
      Store.History m requests answers m' ∧ next.Represents m' := by
  induction requests generalizing index m with
  | nil => exact ⟨[], index, m, Step.runAll_nil .., .nil, hrep⟩
  | cons request rest ih =>
    obtain ⟨reply, later, events, hrun, hserves⟩ := request.exists_run hsound .vacant
    have hlater := hserves.path.sound hsound
    obtain ⟨m', hanswers, hrep'⟩ := hserves.exists_serves hsound hrep
    obtain ⟨answers, next, m'', hrest, hhistory, hrep''⟩ := ih hlater hrep'
    refine ⟨.request reply (later.status events) :: answers, next, m'', ?_,
      .cons hanswers (hrep'.size_eq hlater) hhistory, hrep''⟩
    exact Step.runAll_cons (Step.run_request hrun) hrest

/-- An index of a valid configuration behaves as a finite map that starts empty: whatever requests it
is sent, its answers are those of a history of the map, and it stores the bindings the map has in the
end. -/
theorem session_refines_finite_map (hash : HashFunction) {config : Config}
    (hvalid : config.validate = .ok ()) (requests : List Request) :
    ∃ start answers final m, Index.ofConfig config = .ok start ∧
      Step.runAll .vacant (.ok hash) (requests.map .request) start = .ok (answers, final) ∧
      Store.History ∅ requests answers m ∧ final.Represents m := by
  have hstart : Index.ofConfig config = .ok ⟨.ofDepth config.initialDepth, 0⟩ := by
    simp only [Index.ofConfig, hvalid, bind, Except.bind]
    rfl
  have hempty : (⟨.ofDepth config.initialDepth, 0⟩ : Index).Represents ∅ := by
    rw [Index.Represents, Directory.entries_ofDepth]
    exact .empty
  have hsound : Index.Sound hash ⟨.ofDepth config.initialDepth, 0⟩ := Index.sound_of_ofConfig hstart
  obtain ⟨answers, final, m, hrun, hhistory, hrep⟩ := exists_runAll_history requests hsound hempty
  exact ⟨_, answers, final, m, hstart, hrun, hhistory, hrep⟩

/-- A session in which all keys collide: the second value of a key is not taken, and a key that was only
updated is not stored. -/
theorem session_refines_finite_map_of_collisions :
    (⟨0⟩ : Config).validate = .ok () ∧
      ∃ requests answers start final m,
        requests = [.operate (.insert ⟨[1], [10]⟩), .operate (.insert ⟨[1], [20]⟩), .operate (.insert ⟨[2], [30]⟩),
          .operate (.update ⟨[3], [40]⟩), .operate (.get [1]), .size] ∧
        answers = [.request (.outcome .accepted) ⟨1, 0, []⟩, .request (.outcome .accepted) ⟨1, 0, []⟩,
          .request (.outcome .accepted) ⟨2, 0, []⟩, .request (.outcome .done) ⟨2, 0, []⟩,
          .request (.outcome (.found (some [10]))) ⟨2, 0, []⟩, .request (.number 2) ⟨2, 0, []⟩] ∧
        m = ((∅ : Store).insert [1] [10]).insert [2] [30] ∧
        Index.ofConfig ⟨0⟩ = .ok start ∧
        Step.runAll .vacant (.ok fun _ => 7) (requests.map .request) start = .ok (answers, final) ∧
        Store.History ∅ requests answers m ∧ final.Represents m := by
  have hvalid : (⟨0⟩ : Config).validate = .ok () := rfl
  obtain ⟨start, answers, final, m, hstart, hrun, hhistory, hrep⟩ :=
    session_refines_finite_map (fun _ => 7) hvalid [.operate (.insert ⟨[1], [10]⟩), .operate (.insert ⟨[1], [20]⟩),
      .operate (.insert ⟨[2], [30]⟩), .operate (.update ⟨[3], [40]⟩), .operate (.get [1]), .size]
  obtain rfl := Except.ok.inj (hstart.symm.trans Index.ofConfig_zero)
  obtain rfl : .single [⟨[1], [10]⟩, ⟨[2], [30]⟩] = final :=
    Except.ok.inj (congrArg (Except.map Prod.snd) hrun)
  have hlisted : Store.ListedBy [⟨[2], [30]⟩, ⟨[1], [10]⟩] (((∅ : Store).insert [1] [10]).insert [2] [30]) :=
    (Store.ListedBy.empty.insert List.not_mem_nil).insert (by decide)
  refine ⟨hvalid, _, answers, _, _, m, rfl, ?_, ?_, hstart, hrun, hhistory, hrep⟩
  · exact Except.ok.inj (congrArg (Except.map Prod.fst) hrun.symm)
  · exact hrep.unique (hlisted.perm (.swap ..))

end ExtendibleHashing
