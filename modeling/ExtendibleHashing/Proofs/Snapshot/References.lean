import ExtendibleHashing.Proofs.Snapshot.Check

/-!
# How often a bucket shows in a snapshot that passes

The check compares the number of references with the depth in the rows that own their buckets, and in no
others. Where the rows of a bucket disagree on its depth this leaves a gap: a row may give another depth than
the one that was compared, and a bucket without a row of its own is not compared at all. It is the only gap,
since the showings of a bucket fit no two depths, and since rows that agree, stripped of their keys, make a
shaped snapshot that passes as well.
-/

namespace ExtendibleHashing

variable {hash : HashFunction}

/-- The row without the keys. -/
def SlotRow.keyless (row : SlotRow) : SlotRow := { row with keys := [] }

/-- A row that shows no violation shows none without its keys. -/
theorem SlotRow.violation?_keyless {row : SlotRow} {depth : Nat} (h : row.violation? (.ok hash) depth = none) :
    row.keyless.violation? (.ok hash) depth = none := by
  have hkeys : row.keyless.keyViolation? (.ok hash) = none :=
    keyViolation?_eq_none_iff.mpr fun key hkey => absurd hkey List.not_mem_nil
  rw [violation?] at h
  split_ifs at h with hdeep hplace
  exact (if_neg hdeep).trans ((if_neg hplace).trans hkeys)

/-- A row that shows no violation gives no depth beyond that of the directory. -/
theorem SlotRow.localDepth_le {row : SlotRow} {depth : Nat} (h : row.violation? (.ok hash) depth = none) :
    row.localDepth ≤ depth := by
  rw [violation?] at h
  split_ifs at h with hdeep
  all_goals exact Nat.le_of_not_lt hdeep

namespace Snapshot

/-- The rows are those of slots `0`, `1` and so on, no more than hash values can address. -/
structure Numbered (snapshot : Snapshot) : Prop where
  depth_le : snapshot.depth ≤ hashBits
  slots_eq : snapshot.rows.map SlotRow.slot = List.range snapshot.rows.length

/-- The rows give one depth for each bucket. -/
def DepthsAgree (snapshot : Snapshot) : Prop :=
  ∀ row ∈ snapshot.rows, ∀ row' ∈ snapshot.rows, row'.origin = row.origin → row'.localDepth = row.localDepth

/-- The number of rows in which a bucket shows. -/
def showings (origin : Nat) (snapshot : Snapshot) : Nat := snapshot.rows.countP fun row => row.origin == origin

/-- The snapshot without the keys. -/
def keyless (snapshot : Snapshot) : Snapshot := { snapshot with rows := snapshot.rows.map SlotRow.keyless }

variable {snapshot : Snapshot} {row : SlotRow}

/-- Keys have no part in the number of showings. -/
theorem showings_keyless (origin : Nat) (snapshot : Snapshot) :
    snapshot.keyless.showings origin = snapshot.showings origin :=
  List.countP_map

/-- Keys have no part in the references. -/
theorem references_keyless (snapshot : Snapshot) : snapshot.keyless.references = snapshot.references :=
  List.foldl_map

/-- A snapshot that passes its check passes it without the keys. -/
theorem check_keyless (h : snapshot.check (.ok hash) = .ok ()) : snapshot.keyless.check (.ok hash) = .ok () := by
  obtain ⟨hlength, hrows, howners⟩ := check_eq_ok_iff.mp h
  refine check_eq_ok_iff.mpr ⟨?_, fun row hrow => ?_, fun row hrow => ?_⟩
  · rw [keyless, List.length_map, hlength]
  · obtain ⟨full, hfull, rfl⟩ := List.mem_map.mp hrow
    exact SlotRow.violation?_keyless (hrows full hfull)
  · obtain ⟨hrow, howner⟩ := List.mem_filter.mp hrow
    obtain ⟨full, hfull, rfl⟩ := List.mem_map.mp hrow
    rw [references_keyless]
    exact howners full (List.mem_filter.mpr ⟨hfull, howner⟩)

namespace Numbered

/-- Rows are in the places of their slots. -/
theorem slot_lt (h : snapshot.Numbered) (hrow : row ∈ snapshot.rows) : row.slot < snapshot.rows.length := by
  rw [← List.mem_range, ← h.slots_eq]
  exact List.mem_map_of_mem hrow

/-- Rows that agree on depths have the shape of a directory but for their keys. -/
theorem shaped_keyless (h : snapshot.Numbered) (hagree : snapshot.DepthsAgree) : snapshot.keyless.Shaped := by
  refine ⟨h.depth_le, ?_, fun row hrow row' hrow' hsame => ?_⟩
  · rw [keyless, List.map_map, List.length_map, ← h.slots_eq]
    rfl
  · obtain ⟨full, hfull, rfl⟩ := List.mem_map.mp hrow
    obtain ⟨full', hfull', rfl⟩ := List.mem_map.mp hrow'
    exact ⟨hagree full hfull full' hfull' hsame, rfl⟩

/-- A bucket with a row of its own shows as often as this row asks for. -/
theorem showings_of_owner (h : snapshot.Numbered) (hpasses : snapshot.check (.ok hash) = .ok ())
    (hrow : row ∈ snapshot.rows) (howner : row.slot = row.origin) :
    snapshot.showings row.origin = 2 ^ (snapshot.depth - row.localDepth) := by
  obtain ⟨hlength, -, howners⟩ := check_eq_ok_iff.mp hpasses
  have hcounted := howners row (List.mem_filter.mpr ⟨hrow, beq_iff_eq.mpr howner⟩)
  rwa [references_getD snapshot (howner ▸ hlength ▸ h.slot_lt hrow)] at hcounted

end Numbered

/-- In a partition every bucket shows as often as its rows ask for. -/
theorem Partitioned.showings_eq (h : snapshot.Partitioned hash) (hshaped : snapshot.Shaped) (hrow : row ∈ snapshot.rows) :
    snapshot.showings row.origin = 2 ^ (snapshot.depth - row.localDepth) := by
  rw [← hshaped.countP_slot h.length_rows (h.origin_lt row hrow) (h.localDepth_le row hrow)]
  refine List.countP_congr fun row' hrow' => ?_
  rw [beq_iff_eq, beq_iff_eq, h.origin_eq_iff row hrow row' hrow', Nat.ModEq, Nat.mod_eq_of_lt (h.origin_lt row hrow)]

/-- In a numbered snapshot that passes, a bucket shows as often as its own row asks for. All rows ask for just
that number exactly when no two of them disagree on the depth of a bucket. -/
theorem showings_eq_iff_depthsAgree (h : snapshot.Numbered) (hpasses : snapshot.check (.ok hash) = .ok ()) :
    (∀ row ∈ snapshot.rows, row.slot = row.origin →
        snapshot.showings row.origin = 2 ^ (snapshot.depth - row.localDepth)) ∧
      ((∀ row ∈ snapshot.rows, snapshot.showings row.origin = 2 ^ (snapshot.depth - row.localDepth)) ↔
        snapshot.DepthsAgree) := by
  obtain ⟨-, hrows, -⟩ := check_eq_ok_iff.mp hpasses
  refine ⟨fun row hrow => h.showings_of_owner hpasses hrow, fun hall row hrow row' hrow' hsame => ?_,
    fun hagree row hrow => ?_⟩
  · -- the showings of a bucket fit one depth only
    have hpow := (hall row' hrow').symm.trans (hsame ▸ hall row hrow)
    have hsub : snapshot.depth - row'.localDepth = snapshot.depth - row.localDepth :=
      Nat.pow_right_injective (Nat.le_refl 2) hpow
    have hdepth := SlotRow.localDepth_le (hrows row hrow)
    have hdepth' := SlotRow.localDepth_le (hrows row' hrow')
    omega
  · have hshaped := h.shaped_keyless hagree
    have hpartitioned := (hshaped.check_eq_ok_iff_checked.mp (check_keyless hpasses)).partitioned hshaped
    have hkeyless : row.keyless ∈ snapshot.keyless.rows := List.mem_map_of_mem hrow
    have hcount := hpartitioned.showings_eq hshaped hkeyless
    rwa [showings_keyless] at hcount

/-- Two rows of a bucket that list different keys agree on its depth, so all rows ask for the right number. Keys
are hashed to their first byte. -/
theorem showings_eq_iff_depthsAgree_of_different_keys :
    Numbered ⟨1, [⟨0, 0, 0, [[2]]⟩, ⟨1, 0, 0, [[3], [5]]⟩]⟩ ∧
      check (.ok fun key => (key.headD 0).toUInt32) ⟨1, [⟨0, 0, 0, [[2]]⟩, ⟨1, 0, 0, [[3], [5]]⟩]⟩ = .ok () ∧
      ∀ row ∈ ([⟨0, 0, 0, [[2]]⟩, ⟨1, 0, 0, [[3], [5]]⟩] : List SlotRow),
        showings row.origin ⟨1, [⟨0, 0, 0, [[2]]⟩, ⟨1, 0, 0, [[3], [5]]⟩]⟩ = 2 ^ (1 - row.localDepth) := by
  have hnumbered : Numbered ⟨1, [⟨0, 0, 0, [[2]]⟩, ⟨1, 0, 0, [[3], [5]]⟩]⟩ := ⟨by decide, rfl⟩
  have hpasses : check (.ok fun key => (key.headD 0).toUInt32) ⟨1, [⟨0, 0, 0, [[2]]⟩, ⟨1, 0, 0, [[3], [5]]⟩]⟩ =
      .ok () := by
    decide +kernel
  have hagree : DepthsAgree ⟨1, [⟨0, 0, 0, [[2]]⟩, ⟨1, 0, 0, [[3], [5]]⟩]⟩ := by
    unfold DepthsAgree
    decide
  exact ⟨hnumbered, hpasses, (showings_eq_iff_depthsAgree hnumbered hpasses).2.mpr hagree⟩

/-- Four rows of one bucket, of which the third gives another depth than the bucket's own row. -/
def discordant : Snapshot := ⟨2, [⟨0, 0, 0, []⟩, ⟨1, 0, 0, []⟩, ⟨2, 0, 1, []⟩, ⟨3, 0, 0, []⟩]⟩

/-- The check does not notice that the third of these rows asks for two showings where there are four. -/
theorem check_overlooks_discordant :
    discordant.Numbered ∧ discordant.check (.ok fun _ => 0) = .ok () ∧
      ¬ ∀ row ∈ discordant.rows, discordant.showings row.origin = 2 ^ (discordant.depth - row.localDepth) :=
  ⟨⟨by decide, rfl⟩, by decide +kernel, by decide⟩

end Snapshot

end ExtendibleHashing
