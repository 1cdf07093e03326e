import ExtendibleHashing.Proofs.Snapshot
import Mathlib.Algebra.BigOperators.Group.Finset.Basic

/-!
# What the check of a snapshot amounts to

The check looks at every row by itself and then counts references, but only to buckets that have a row of
their own. It asks neither that all buckets have one nor which rows the references are in. For rows as a
snapshot lists them both follow: the check passes exactly when the buckets share out the slots by residue
classes and hold keys of their classes only. The rows that own their buckets then show every bucket once.
-/

namespace ExtendibleHashing

/-- The row that would show the same bucket at its own slot. -/
def SlotRow.home (row : SlotRow) : SlotRow := { row with slot := row.origin }

/-- A row that owns its bucket shows it at its own slot. -/
theorem SlotRow.home_eq_self {row : SlotRow} (h : row.slot = row.origin) : row.home = row := by
  cases row
  cases h
  rfl

namespace Snapshot

/-- The rows are those of slots `0`, `1` and so on, no more than hash values can address, and what they say
of one bucket is always the same. -/
structure Shaped (snapshot : Snapshot) : Prop where
  depth_le : snapshot.depth ≤ hashBits
  slots_eq : snapshot.rows.map SlotRow.slot = List.range snapshot.rows.length
  agree : ∀ row ∈ snapshot.rows, ∀ row' ∈ snapshot.rows, row'.origin = row.origin →
    row'.localDepth = row.localDepth ∧ row'.keys = row.keys

/-- The buckets share out the slots of a directory, and the keys that are stored. -/
structure Partitioned (hash : HashFunction) (snapshot : Snapshot) : Prop where
  length_rows : snapshot.rows.length = 2 ^ snapshot.depth
  localDepth_le : ∀ row ∈ snapshot.rows, row.localDepth ≤ snapshot.depth
  origin_lt : ∀ row ∈ snapshot.rows, row.origin < 2 ^ row.localDepth
  /-- A bucket shows in the rows of its class and in no others. -/
  origin_eq_iff : ∀ row ∈ snapshot.rows, ∀ row' ∈ snapshot.rows,
    row'.origin = row.origin ↔ row'.slot ≡ row.origin [MOD 2 ^ row.localDepth]
  key_modEq : ∀ row ∈ snapshot.rows, ∀ key ∈ row.keys, (hash key).toNat ≡ row.origin [MOD 2 ^ row.localDepth]

/-- What the check looks at. -/
structure Checked (hash : HashFunction) (snapshot : Snapshot) : Prop where
  length_rows : snapshot.rows.length = 2 ^ snapshot.depth
  localDepth_le : ∀ row ∈ snapshot.rows, row.localDepth ≤ snapshot.depth
  slot_mod_eq : ∀ row ∈ snapshot.rows, row.slot % 2 ^ row.localDepth = row.origin
  key_mod_eq : ∀ row ∈ snapshot.rows, ∀ key ∈ row.keys, (hash key).toNat % 2 ^ row.localDepth = row.origin
  /-- A bucket with a row of its own shows in as many rows as its class has slots. -/
  countP_eq : ∀ row ∈ snapshot.rows, row.slot = row.origin →
    snapshot.rows.countP (fun row' => row'.origin == row.origin) = 2 ^ (snapshot.depth - row.localDepth)

variable {hash : HashFunction} {snapshot : Snapshot} {row row' : SlotRow}

namespace Shaped

/-- Rows are in the places of their slots. -/
theorem slot_lt (h : snapshot.Shaped) (hrow : row ∈ snapshot.rows) : row.slot < snapshot.rows.length := by
  rw [← List.mem_range, ← h.slots_eq]
  exact List.mem_map_of_mem hrow

/-- Every slot has a row. -/
theorem exists_row (h : snapshot.Shaped) {slot : Nat} (hslot : slot < snapshot.rows.length) :
    ∃ row ∈ snapshot.rows, row.slot = slot := by
  rw [← List.mem_range, ← h.slots_eq] at hslot
  exact List.mem_map.mp hslot

/-- No row shows twice. -/
theorem nodup_rows (h : snapshot.Shaped) : snapshot.rows.Nodup :=
  (h.slots_eq ▸ List.nodup_range).of_map SlotRow.slot

/-- A residue class has as many rows as slots. -/
theorem countP_slot (h : snapshot.Shaped) (hlength : snapshot.rows.length = 2 ^ snapshot.depth) {origin d : Nat}
    (horigin : origin < 2 ^ d) (hd : d ≤ snapshot.depth) :
    snapshot.rows.countP (fun row => row.slot % 2 ^ d == origin) = 2 ^ (snapshot.depth - d) := by
  rw [← countP_range_mod_eq horigin hd, ← hlength, ← h.slots_eq, List.countP_map]
  rfl

/-- The check of a shaped snapshot reads in plain numbers. -/
theorem check_eq_ok_iff_checked (h : snapshot.Shaped) : snapshot.check (.ok hash) = .ok () ↔ snapshot.Checked hash := by
  have hwidth (hlength : snapshot.rows.length = 2 ^ snapshot.depth) :
      ∀ row ∈ snapshot.rows, row.slot < 2 ^ hashBits := fun row hrow =>
    (hlength ▸ h.slot_lt hrow).trans_le (Nat.pow_le_pow_right (by decide) h.depth_le)
  have hreferences (hlength : snapshot.rows.length = 2 ^ snapshot.depth) : ∀ row ∈ snapshot.rows,
      row.slot = row.origin → snapshot.references.getD row.origin 0 =
        snapshot.rows.countP fun row' => row'.origin == row.origin := fun row hrow howner =>
    references_getD snapshot (howner ▸ hlength ▸ h.slot_lt hrow)
  rw [check_eq_ok_iff]
  constructor
  · rintro ⟨hlength, hrows, howners⟩
    have hplain := fun row hrow => (SlotRow.violation?_eq_none_iff (hwidth hlength row hrow)).mp (hrows row hrow)
    refine ⟨hlength, fun row hrow => (hplain row hrow).1, fun row hrow => (hplain row hrow).2.1,
      fun row hrow => (hplain row hrow).2.2, fun row hrow howner => ?_⟩
    rw [← hreferences hlength row hrow howner]
    exact howners row (List.mem_filter.mpr ⟨hrow, beq_iff_eq.mpr howner⟩)
  · intro hchecked
    refine ⟨hchecked.length_rows, fun row hrow => ?_, fun row hrow => ?_⟩
    · exact (SlotRow.violation?_eq_none_iff (hwidth hchecked.length_rows row hrow)).mpr
        ⟨hchecked.localDepth_le row hrow, hchecked.slot_mod_eq row hrow, hchecked.key_mod_eq row hrow⟩
    · obtain ⟨hrow, howner⟩ := List.mem_filter.mp hrow
      rw [SlotRow.isOwner, beq_iff_eq] at howner
      rw [hreferences hchecked.length_rows row hrow howner]
      exact hchecked.countP_eq row hrow howner

end Shaped

/-- Of two conditions that are met equally often the weaker one is no weaker. -/
theorem of_countP_eq {α : Type} {p q : α → Bool} {l : List α} (himp : ∀ a ∈ l, p a = true → q a = true)
    (hcount : l.countP p = l.countP q) : ∀ a ∈ l, q a = true → p a = true := by
  have hlength : ((l.filter q).filter p).length = (l.filter q).length := by
    rw [List.filter_filter, ← List.countP_eq_length_filter, ← List.countP_eq_length_filter, ← hcount]
    refine List.countP_congr fun a ha => ?_
    rw [Bool.and_eq_true, and_iff_left_iff_imp]
    exact himp a ha
  intro a ha hq
  exact List.length_filter_eq_length_iff.mp hlength a (List.mem_filter.mpr ⟨ha, hq⟩)

namespace Checked

/-- Origins are the smallest slots of their classes. -/
theorem origin_lt (h : snapshot.Checked hash) (hrow : row ∈ snapshot.rows) : row.origin < 2 ^ row.localDepth :=
  h.slot_mod_eq row hrow ▸ Nat.mod_lt _ (Nat.two_pow_pos _)

/-- A bucket with a row of its own shows in all rows of its class. -/
theorem origin_eq_of_slot_mod_eq (h : snapshot.Checked hash) (hshaped : snapshot.Shaped) {owner : SlotRow}
    (hmem : owner ∈ snapshot.rows) (howner : owner.slot = owner.origin) (hrow : row ∈ snapshot.rows)
    (hslot : row.slot % 2 ^ owner.localDepth = owner.origin) : row.origin = owner.origin := by
  have himp : ∀ r ∈ snapshot.rows, (r.origin == owner.origin) = true →
      (r.slot % 2 ^ owner.localDepth == owner.origin) = true := by
    intro r hr hsame
    rw [beq_iff_eq] at hsame ⊢
    obtain ⟨hdepth, -⟩ := hshaped.agree owner hmem r hr hsame
    rw [← hdepth, ← hsame]
    exact h.slot_mod_eq r hr
  have hcount := (h.countP_eq owner hmem howner).trans
    (hshaped.countP_slot h.length_rows (h.origin_lt hmem) (h.localDepth_le owner hmem)).symm
  exact beq_iff_eq.mp (of_countP_eq himp hcount row hrow (beq_iff_eq.mpr hslot))

/-- Every bucket has a row of its own. -/
theorem exists_owner (h : snapshot.Checked hash) (hshaped : snapshot.Shaped) (hrow : row ∈ snapshot.rows) :
    ∃ owner ∈ snapshot.rows, owner.slot = row.origin ∧ owner.origin = row.origin := by
  induction horigin : row.origin using Nat.strong_induction_on generalizing row with
  | _ o ih =>
    subst horigin
    have hlt := h.origin_lt hrow
    have hplace : row.origin < snapshot.rows.length := by
      rw [h.length_rows]
      exact hlt.trans_le (Nat.pow_le_pow_right (by decide) (h.localDepth_le row hrow))
    -- the bucket that shows at the slot in question
    obtain ⟨other, hother, hslot⟩ := hshaped.exists_row hplace
    have hmod := h.slot_mod_eq other hother
    rw [hslot] at hmod
    rcases (hmod ▸ Nat.mod_le _ _ : other.origin ≤ row.origin).eq_or_lt with hsame | hsmaller
    · exact ⟨other, hother, hslot, hsame⟩
    · -- if it were another, it would have a row of its own, so it would show in all rows of its class
      obtain ⟨owner, howner, hownslot, hownorigin⟩ := ih other.origin hsmaller hother rfl
      obtain ⟨hdepth, -⟩ := hshaped.agree other hother owner howner hownorigin
      rcases Nat.lt_or_ge row.localDepth other.localDepth with hdeeper | hwider
      · -- if it is deeper, no smaller number than the slot is in its class
        rw [Nat.mod_eq_of_lt (hlt.trans_le (Nat.pow_le_pow_right (by decide) hdeeper.le))] at hmod
        exact absurd hmod.symm hsmaller.ne
      · -- else its class takes in the given row
        have hwithin : row.slot % 2 ^ owner.localDepth = owner.origin := by
          rw [hdepth, hownorigin, ← hmod, ← h.slot_mod_eq row hrow,
            Nat.mod_mod_of_dvd _ (Nat.pow_dvd_pow 2 hwider)]
        have hequal := h.origin_eq_of_slot_mod_eq hshaped howner (hownslot.trans hownorigin.symm) hrow hwithin
        exact absurd (hequal.trans hownorigin) hsmaller.ne'

/-- Counting the references to buckets that own a row is enough. -/
theorem partitioned (h : snapshot.Checked hash) (hshaped : snapshot.Shaped) : snapshot.Partitioned hash := by
  have hroot {row : SlotRow} (hrow : row ∈ snapshot.rows) : row.origin % 2 ^ row.localDepth = row.origin :=
    Nat.mod_eq_of_lt (h.origin_lt hrow)
  refine ⟨h.length_rows, h.localDepth_le, fun row hrow => h.origin_lt hrow, fun row hrow row' hrow' => ⟨?_, ?_⟩, ?_⟩
  · intro hsame
    obtain ⟨hdepth, -⟩ := hshaped.agree row hrow row' hrow' hsame
    rw [Nat.ModEq, hroot hrow, ← hdepth, ← hsame]
    exact h.slot_mod_eq row' hrow'
  · intro hmod
    rw [Nat.ModEq, hroot hrow] at hmod
    obtain ⟨owner, howner, hslot, horigin⟩ := h.exists_owner hshaped hrow
    obtain ⟨hdepth, -⟩ := hshaped.agree row hrow owner howner horigin
    rw [← hdepth, ← horigin] at hmod
    exact (h.origin_eq_of_slot_mod_eq hshaped howner (hslot.trans horigin.symm) hrow' hmod).trans horigin
  · intro row hrow key hkey
    rw [Nat.ModEq, hroot hrow]
    exact h.key_mod_eq row hrow key hkey

end Checked

namespace Partitioned

/-- A snapshot that is partitioned has all that the check looks at. -/
theorem checked (h : snapshot.Partitioned hash) (hshaped : snapshot.Shaped) : snapshot.Checked hash := by
  have hroot {row : SlotRow} (hrow : row ∈ snapshot.rows) : row.origin % 2 ^ row.localDepth = row.origin :=
    Nat.mod_eq_of_lt (h.origin_lt row hrow)
  refine ⟨h.length_rows, h.localDepth_le, fun row hrow => ?_, fun row hrow key hkey => ?_, fun row hrow _ => ?_⟩
  · exact Eq.trans ((h.origin_eq_iff row hrow row hrow).mp rfl) (hroot hrow)
  · exact Eq.trans (h.key_modEq row hrow key hkey) (hroot hrow)
  · rw [← hshaped.countP_slot h.length_rows (h.origin_lt row hrow) (h.localDepth_le row hrow)]
    refine List.countP_congr fun row' hrow' => ?_
    rw [beq_iff_eq, beq_iff_eq, h.origin_eq_iff row hrow row' hrow', Nat.ModEq, hroot hrow]

/-- The owning rows are the buckets at their own slots. -/
theorem toFinset_owners (h : snapshot.Partitioned hash) (hshaped : snapshot.Shaped) :
    snapshot.owners.toFinset = (snapshot.rows.map SlotRow.home).toFinset := by
  ext owner
  rw [List.mem_toFinset, List.mem_toFinset, owners, List.mem_filter, List.mem_map, SlotRow.isOwner, beq_iff_eq]
  constructor
  · rintro ⟨howner, hslot⟩
    exact ⟨owner, howner, SlotRow.home_eq_self hslot⟩
  · rintro ⟨row, hrow, rfl⟩
    have hplace : row.origin < snapshot.rows.length := by
      rw [h.length_rows]
      exact (h.origin_lt row hrow).trans_le (Nat.pow_le_pow_right (by decide) (h.localDepth_le row hrow))
    obtain ⟨owner, howner, hslot⟩ := hshaped.exists_row hplace
    have hsame : owner.origin = row.origin :=
      (h.origin_eq_iff row hrow owner howner).mpr (hslot ▸ Nat.ModEq.refl _)
    obtain ⟨hdepth, hkeys⟩ := hshaped.agree row hrow owner howner hsame
    have hhome : row.home = owner.home := by
      rw [SlotRow.home, SlotRow.home, hsame, hdepth, hkeys]
    rw [hhome, SlotRow.home_eq_self (hslot.trans hsame.symm)]
    exact ⟨howner, hslot.trans hsame.symm⟩

/-- The entry count adds up the keys of the distinct buckets. -/
theorem entryCount_eq_sum (h : snapshot.Partitioned hash) (hshaped : snapshot.Shaped) :
    snapshot.entryCount = ∑ bucket ∈ (snapshot.rows.map SlotRow.home).toFinset, bucket.keys.length := by
  have hnodup : snapshot.owners.Nodup := hshaped.nodup_rows.filter _
  rw [entryCount_eq, ← h.toFinset_owners hshaped, List.sum_toFinset _ hnodup]

end Partitioned

/-- The snapshot of a sound directory is shaped. -/
theorem shaped_view {dir : Directory} {bucketAt : Nat → Bucket} (hsound : dir.Sound hash)
    (hassigns : dir.Assigns bucketAt) : (dir.view bucketAt).Shaped := by
  refine ⟨hsound.depth_le, ?_, fun row hrow row' hrow' hsame => ?_⟩
  · rw [Directory.view, List.map_map, List.length_map, List.length_range]
    exact List.map_id _
  · obtain ⟨slot, hslot, rfl⟩ := List.mem_map.mp hrow
    obtain ⟨slot', hslot', rfl⟩ := List.mem_map.mp hrow'
    obtain ⟨id, hb, -⟩ := hassigns slot (List.mem_range.mp hslot)
    obtain ⟨id', hb', -⟩ := hassigns slot' (List.mem_range.mp hslot')
    obtain rfl : id' = id := (hsound.origin_eq hb').symm.trans (Eq.trans hsame (hsound.origin_eq hb))
    rw [hb.unique hb']
    exact ⟨rfl, rfl⟩

/-- The check is sound and complete for shaped snapshots: it passes exactly when the buckets share out the
slots by residue classes and hold keys of their classes only. The entry count is then the number of keys of
all distinct buckets together. -/
theorem check_eq_ok_iff_partitioned (h : snapshot.Shaped) (hash : HashFunction) :
    (snapshot.check (.ok hash) = .ok () ↔ snapshot.Partitioned hash) ∧
      (snapshot.check (.ok hash) = .ok () →
        snapshot.entryCount = ∑ bucket ∈ (snapshot.rows.map SlotRow.home).toFinset, bucket.keys.length) := by
  have hpartitioned : snapshot.check (.ok hash) = .ok () ↔ snapshot.Partitioned hash := by
    rw [h.check_eq_ok_iff_checked]
    exact ⟨fun hchecked => hchecked.partitioned h, fun hpartitioned => hpartitioned.checked h⟩
  exact ⟨hpartitioned, fun hpasses => (hpartitioned.mp hpasses).entryCount_eq_sum h⟩

/-- Four slots pass that three buckets share out, and the bucket that shows twice has its one key counted once.
When it shows in its own slot only, no row by itself gives that away, but a reference is missing. Keys are
hashed to their first byte. -/
theorem check_eq_ok_iff_partitioned_of_four_slots :
    Partitioned (fun key => (key.headD 0).toUInt32)
        ⟨2, [⟨0, 0, 1, [[2]]⟩, ⟨1, 1, 2, [[1], [5]]⟩, ⟨2, 0, 1, [[2]]⟩, ⟨3, 3, 2, []⟩]⟩ ∧
      entryCount ⟨2, [⟨0, 0, 1, [[2]]⟩, ⟨1, 1, 2, [[1], [5]]⟩, ⟨2, 0, 1, [[2]]⟩, ⟨3, 3, 2, []⟩]⟩ = 3 ∧
      ¬ Partitioned (fun key => (key.headD 0).toUInt32)
        ⟨2, [⟨0, 0, 1, [[2]]⟩, ⟨1, 1, 2, [[1], [5]]⟩, ⟨2, 2, 2, []⟩, ⟨3, 3, 2, []⟩]⟩ := by
  have hshaped : Shaped ⟨2, [⟨0, 0, 1, [[2]]⟩, ⟨1, 1, 2, [[1], [5]]⟩, ⟨2, 0, 1, [[2]]⟩, ⟨3, 3, 2, []⟩]⟩ :=
    ⟨by decide, rfl, by decide⟩
  have hpasses : check (.ok fun key => (key.headD 0).toUInt32)
      ⟨2, [⟨0, 0, 1, [[2]]⟩, ⟨1, 1, 2, [[1], [5]]⟩, ⟨2, 0, 1, [[2]]⟩, ⟨3, 3, 2, []⟩]⟩ = .ok () := by
    decide +kernel
  have hshaped' : Shaped ⟨2, [⟨0, 0, 1, [[2]]⟩, ⟨1, 1, 2, [[1], [5]]⟩, ⟨2, 2, 2, []⟩, ⟨3, 3, 2, []⟩]⟩ :=
    ⟨by decide, rfl, by decide⟩
  have hfails : check (.ok fun key => (key.headD 0).toUInt32)
      ⟨2, [⟨0, 0, 1, [[2]]⟩, ⟨1, 1, 2, [[1], [5]]⟩, ⟨2, 2, 2, []⟩, ⟨3, 3, 2, []⟩]⟩ =
      .error (.referenceCount 0 1 1 2) := by
    decide +kernel
  obtain ⟨hiff, hcount⟩ := check_eq_ok_iff_partitioned hshaped fun key => (key.headD 0).toUInt32
  obtain ⟨hiff', -⟩ := check_eq_ok_iff_partitioned hshaped' fun key => (key.headD 0).toUInt32
  refine ⟨hiff.mp hpasses, (hcount hpasses).trans (by decide), fun hpartitioned => ?_⟩
  rw [hiff'.mpr hpartitioned] at hfails
  cases hfails

end Snapshot

end ExtendibleHashing
