import ExtendibleHashing.Bucket.Basic
import Mathlib.Data.List.Nodup

/-!
# Finding and changing the entries of a bucket

A key is found exactly when some entry has it, and each change of a bucket is described by the
entries before and after: one is added, one is replaced in place, or one is taken out. Depth and
origin stay as they are. Since a removal moves the last entry into the gap, the order of entries
is only known up to permutation there.
-/

namespace ExtendibleHashing.Bucket

/-- A bucket is full when it holds as many entries as it has room for. -/
theorem isFull_iff (b : Bucket) : b.isFull = true ↔ b.entries.length = bucketCapacity := by
  simp [isFull]

/-- A position is found for exactly the stored keys. -/
theorem position?_isSome_iff (key : Bytes) (b : Bucket) :
    (b.position? key).isSome = true ↔ key ∈ b.keys := by
  simp [position?, keys]

/-- No position is found for exactly the keys that are not stored. -/
theorem position?_eq_none_iff (key : Bytes) (b : Bucket) :
    b.position? key = none ↔ key ∉ b.keys := by
  rw [← position?_isSome_iff]
  simp

/-- The position of a key splits the entries around one with that key. -/
theorem exists_split_of_position? {key : Bytes} {b : Bucket} {i : Nat} (h : b.position? key = some i) :
    ∃ before old after, b.entries = before ++ old :: after ∧ before.length = i ∧ old.key = key := by
  obtain ⟨hlt, hkey, -⟩ := List.findIdx?_eq_some_iff_getElem.mp h
  refine ⟨b.entries.take i, b.entries[i], b.entries.drop (i + 1), ?_, ?_, by simpa using hkey⟩
  · rw [← List.drop_eq_getElem_cons hlt, List.take_append_drop]
  · rw [List.length_take, Nat.min_eq_left (Nat.le_of_lt hlt)]

/-- The value of a key is the one it is stored with. -/
theorem get?_eq_some_iff {b : Bucket} (hnodup : b.keys.Nodup) (key value : Bytes) :
    b.get? key = some value ↔ ⟨key, value⟩ ∈ b.entries := by
  unfold get?
  constructor
  · intro h
    obtain ⟨e, hfind, rfl⟩ := Option.map_eq_some_iff.mp h
    have hkey : e.key = key := by simpa using List.find?_some hfind
    exact hkey ▸ List.mem_of_find?_eq_some hfind
  · intro hmem
    cases hfind : b.entries.find? fun e => e.key == key with
    | none =>
      have := List.find?_eq_none.mp hfind _ hmem
      simp at this
    | some e =>
      have hkey : e.key = key := by simpa using List.find?_some hfind
      have he : e = ⟨key, value⟩ :=
        List.inj_on_of_nodup_map hnodup (List.mem_of_find?_eq_some hfind) hmem hkey
      simp [he]

/-- An update replaces the entry that has the key. -/
theorem exists_split_of_update? {entry : Entry} {b b' : Bucket} (h : b.update? entry = some b') :
    ∃ before old after, b.entries = before ++ old :: after ∧ old.key = entry.key ∧
      b' = { b with entries := before ++ entry :: after } := by
  obtain ⟨i, hposition, rfl⟩ := Option.map_eq_some_iff.mp h
  obtain ⟨before, old, after, hentries, rfl, hkey⟩ := exists_split_of_position? hposition
  exact ⟨before, old, after, hentries, hkey, by simp [hentries]⟩

/-- An update is idle for exactly the keys that are not stored. -/
theorem update?_eq_none_iff (entry : Entry) (b : Bucket) :
    b.update? entry = none ↔ entry.key ∉ b.keys := by
  rw [update?, Option.map_eq_none_iff, position?_eq_none_iff]

/-- Moving the last element into the place of another takes that other one out. -/
theorem cons_dropLast_set_perm {α : Type} (before after : List α) (old last : α)
    (hlast : (before ++ old :: after).getLast? = some last) :
    (old :: ((before ++ old :: after).set before.length last).dropLast).Perm
      (before ++ old :: after) := by
  rcases List.eq_nil_or_concat after with rfl | ⟨inner, x, rfl⟩
  · simpa using (List.perm_append_comm : ([old] ++ before).Perm (before ++ [old]))
  · rw [List.concat_eq_append] at hlast ⊢
    obtain rfl : x = last := by
      rw [← List.cons_append, ← List.append_assoc, List.getLast?_concat] at hlast
      exact Option.some.inj hlast
    have hset : ((before ++ old :: (inner ++ [x])).set before.length x).dropLast =
        before ++ x :: inner := by
      rw [List.set_append_right _ _ (Nat.le_refl _), Nat.sub_self, List.set_cons_zero,
        ← List.cons_append, ← List.append_assoc, List.dropLast_concat]
    rw [hset]
    have hinner : ([x] ++ inner).Perm (inner ++ [x]) := List.perm_append_comm
    exact List.perm_middle.symm.trans ((hinner.cons old).append_left before)

/-- A removal takes out the entry that has the key. -/
theorem exists_perm_of_remove? {key : Bytes} {b b' : Bucket} {removed : Entry}
    (h : b.remove? key = some (removed, b')) :
    removed.key = key ∧ ∃ rest, b.entries.Perm (removed :: rest) ∧
      b' = { b with entries := rest } := by
  unfold remove? at h
  obtain ⟨i, hposition, h⟩ := Option.bind_eq_some_iff.mp h
  obtain ⟨x, hx, h⟩ := Option.bind_eq_some_iff.mp h
  obtain ⟨last, hlast, h⟩ := Option.bind_eq_some_iff.mp h
  obtain ⟨rfl, rfl⟩ : x = removed ∧ _ = b' := by simpa using h
  obtain ⟨before, old, after, hentries, rfl, hkey⟩ := exists_split_of_position? hposition
  obtain rfl : old = x := by simpa [hentries] using hx
  rw [hentries] at hlast
  refine ⟨hkey, _, ?_, rfl⟩
  rw [hentries]
  exact (cons_dropLast_set_perm before after old last hlast).symm

/-- A removal is idle for exactly the keys that are not stored. -/
theorem remove?_eq_none_iff (key : Bytes) (b : Bucket) : b.remove? key = none ↔ key ∉ b.keys := by
  rw [← position?_eq_none_iff]
  constructor
  · intro h
    cases hposition : b.position? key with
    | none => rfl
    | some i =>
      obtain ⟨before, old, after, hentries, rfl, -⟩ := exists_split_of_position? hposition
      obtain ⟨last, hlast⟩ : ∃ last, (before ++ old :: after).getLast? = some last :=
        Option.isSome_iff_exists.mp (by simp)
      simp only [remove?, hposition, hentries, hlast, Option.bind_eq_bind, Option.bind_some] at h
      simp at h
  · intro h
    simp [remove?, h]

end ExtendibleHashing.Bucket
