import ExtendibleHashing.Proofs.Index.Transition

/-!
# What a point operation does to the stored entries

Seen from outside an index is the collection of its entries with their number. `Effect` says what
each operation answers and how it changes the two, without a word on buckets: an entry is added,
replaced or taken out, or all stays as it was. On a sound directory without repeated keys every
transition has such an effect. Splits and removals move entries around, so the entries are compared
up to order.
-/

namespace ExtendibleHashing

open scoped List

namespace Directory

variable {hash : HashFunction} {dir : Directory} {id : Nat} {b : Bucket}

/-- Where no key is stored twice, none is in any one bucket. -/
theorem Holds.keys_nodup (hb : dir.Holds id b) (hnodup : dir.keys.Nodup) : b.keys.Nodup := by
  have hperm := hb.entries_perm.map (·.key)
  rw [List.map_append] at hperm
  exact (hperm.nodup_iff.mp hnodup).of_append_left

/-- A bucket with one more entry at the end adds that entry. -/
theorem Holds.entries_push_perm (hb : dir.Holds id b) (entry : Entry) :
    (dir.store ⟨id, b.push entry⟩).entries ~ entry :: dir.entries :=
  calc
    (dir.store ⟨id, b.push entry⟩).entries ~ (b.entries ++ [entry]) ++ (dir.without id).entries :=
      entries_store_perm hb.lt _
    _ ~ (entry :: b.entries) ++ (dir.without id).entries :=
      (List.perm_append_singleton entry b.entries).append_right _
    _ ~ entry :: dir.entries := hb.entries_perm.symm.cons entry

/-- An update replaces the entry of its key. -/
theorem Holds.entries_update_perm (hb : dir.Holds id b) {entry : Entry} {c : Bucket}
    (hupdate : b.update? entry = some c) :
    ∃ old rest, old.key = entry.key ∧ dir.entries ~ old :: rest ∧
      (dir.store ⟨id, c⟩).entries ~ entry :: rest := by
  obtain ⟨before, old, after, hentries, hkey, rfl⟩ := Bucket.exists_split_of_update? hupdate
  refine ⟨old, before ++ after ++ (dir.without id).entries, hkey, ?_, ?_⟩
  · refine hb.entries_perm.trans ?_
    rw [hentries]
    exact List.perm_middle.append_right _
  · exact (entries_store_perm hb.lt _).trans (List.perm_middle.append_right _)

/-- A removal takes out the entry of its key. -/
theorem Holds.entries_remove_perm (hb : dir.Holds id b) {key : Bytes} {removed : Entry} {c : Bucket}
    (hremove : b.remove? key = some (removed, c)) :
    removed.key = key ∧ dir.entries ~ removed :: (dir.store ⟨id, c⟩).entries := by
  obtain ⟨hkey, rest, hperm, rfl⟩ := Bucket.exists_perm_of_remove? hremove
  refine ⟨hkey, hb.entries_perm.trans ?_⟩
  have hstore := entries_store_perm hb.lt { b with entries := rest }
  exact (hperm.append_right _).trans (hstore.symm.cons removed)

end Directory

namespace Index

/-- What an operation answers, and what becomes of the entries and their number. -/
inductive Effect (index : Index) : Operation → Outcome → Index → Prop
  | read {key : Bytes} {value? : Option Bytes}
      (hvalue : ∀ value, value? = some value ↔ ⟨key, value⟩ ∈ index.directory.entries) :
      Effect index (.get key) (.found value?) index
  | present {entry : Entry} (hkey : entry.key ∈ index.directory.keys) :
      Effect index (.insert entry) .accepted index
  | added {entry : Entry} {directory : Directory} (hkey : entry.key ∉ index.directory.keys)
      (hadded : directory.entries ~ entry :: index.directory.entries) :
      Effect index (.insert entry) .accepted ⟨directory, index.size + 1⟩
  | refused {entry : Entry} {error : IndexError} (hkey : entry.key ∉ index.directory.keys) :
      Effect index (.insert entry) (.refused error) index
  | replaced {entry old : Entry} {rest : List Entry} {directory : Directory}
      (hkey : old.key = entry.key) (hbefore : index.directory.entries ~ old :: rest)
      (hafter : directory.entries ~ entry :: rest) :
      Effect index (.update entry) .done { index with directory }
  | updateIdle {entry : Entry} (hkey : entry.key ∉ index.directory.keys) :
      Effect index (.update entry) .done index
  | removed {old : Entry} {directory : Directory}
      (hbefore : index.directory.entries ~ old :: directory.entries) :
      Effect index (.remove old.key) .done ⟨directory, index.size - 1⟩
  | removeIdle {key : Bytes} (hkey : key ∉ index.directory.keys) :
      Effect index (.remove key) .done index

variable {hash : HashFunction} {index next : Index} {op : Operation} {outcome : Outcome}

/-- On a sound directory without repeated keys every transition has the effect of its operation. -/
theorem Transition.effect (h : Transition hash index op outcome next)
    (hsound : index.directory.Sound hash) (hnodup : index.directory.keys.Nodup) :
    Effect index op outcome next := by
  cases h with
  | read hfound =>
    obtain ⟨hb, hcovers⟩ := hsound.of_lookUp hfound
    refine .read fun value => ?_
    rw [Bucket.get?_eq_some_iff (hb.keys_nodup hnodup)]
    exact (hsound.mem_entries_iff_of_covers hb hcovers).symm
  | present hfound hplace =>
    obtain ⟨hb, hcovers⟩ := hsound.of_lookUp hfound
    exact .present ((hsound.mem_keys_iff_of_covers hb hcovers).mpr (Bucket.place_eq_present_iff.mp hplace))
  | appended hfound hplace =>
    obtain ⟨hb, hcovers⟩ := hsound.of_lookUp hfound
    obtain ⟨hkey, -, rfl⟩ := Bucket.place_eq_appended_iff.mp hplace
    exact .added (mt (hsound.mem_keys_iff_of_covers hb hcovers).mp hkey) (hb.entries_push_perm _)
  | inseparable hfound hplace =>
    obtain ⟨hb, hcovers⟩ := hsound.of_lookUp hfound
    obtain ⟨hkey, -, -⟩ := Bucket.place_eq_inseparable_iff.mp hplace
    exact .refused (mt (hsound.mem_keys_iff_of_covers hb hcovers).mp hkey)
  | split hfound hplace hsplit hpublish =>
    obtain ⟨hb, hcovers⟩ := hsound.of_lookUp hfound
    obtain ⟨hkey, -, -⟩ := Bucket.place_eq_crowded_iff.mp hplace
    have hwithin := splitWithin_deepen hsound hfound (Bucket.splitsInto_of_splitRounds hsplit)
    have hadded := hwithin.entries_perm_of_publication (hwithin.publication_of_publishAll hpublish)
    rw [Directory.entries_deepen] at hadded
    exact .added (mt (hsound.mem_keys_iff_of_covers hb hcovers).mp hkey) hadded
  | updated hfound hupdate =>
    obtain ⟨hb, -⟩ := hsound.of_lookUp hfound
    obtain ⟨old, rest, hkey, hbefore, hafter⟩ := hb.entries_update_perm hupdate
    exact .replaced hkey hbefore hafter
  | updateIdle hfound hupdate =>
    obtain ⟨hb, hcovers⟩ := hsound.of_lookUp hfound
    have hkey := (Bucket.update?_eq_none_iff _ _).mp hupdate
    exact .updateIdle (mt (hsound.mem_keys_iff_of_covers hb hcovers).mp hkey)
  | removed hfound hremove =>
    obtain ⟨hb, -⟩ := hsound.of_lookUp hfound
    obtain ⟨rfl, hbefore⟩ := hb.entries_remove_perm hremove
    exact .removed hbefore
  | removeIdle hfound hremove =>
    obtain ⟨hb, hcovers⟩ := hsound.of_lookUp hfound
    have hkey := (Bucket.remove?_eq_none_iff _ _).mp hremove
    exact .removeIdle (mt (hsound.mem_keys_iff_of_covers hb hcovers).mp hkey)

/-- No effect stores a key twice. -/
theorem Effect.keys_nodup (h : Effect index op outcome next) (hnodup : index.directory.keys.Nodup) :
    next.directory.keys.Nodup := by
  cases h with
  | added hkey hadded =>
    rw [(Directory.keys_perm hadded).nodup_iff, List.map_cons, List.nodup_cons]
    exact ⟨hkey, hnodup⟩
  | replaced hkey hbefore hafter =>
    rw [(Directory.keys_perm hafter).nodup_iff, List.map_cons, ← hkey]
    exact (Directory.keys_perm hbefore).nodup_iff.mp hnodup
  | removed hbefore =>
    exact ((Directory.keys_perm hbefore).nodup_iff.mp hnodup).of_cons
  | read => exact hnodup
  | present => exact hnodup
  | refused => exact hnodup
  | updateIdle => exact hnodup
  | removeIdle => exact hnodup

end Index

end ExtendibleHashing
