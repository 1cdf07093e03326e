import ExtendibleHashing.Proofs.Directory.Sound

/-!
# Changes that keep a directory sound

A new directory is sound, and so is one after a bucket was replaced by another with the same class
and after it was doubled. Doubling as often as a depth asks for adds no bucket and moves none.
-/

namespace ExtendibleHashing.Directory

variable {hash : HashFunction} {dir : Directory}

/-- The cells of a new directory hold an empty bucket each. -/
theorem holds_ofDepth_iff {depth id : Nat} {b : Bucket} :
    (ofDepth depth).Holds id b ↔ id < 2 ^ depth ∧ b = .empty depth id := by
  rw [ofDepth, Nat.one_shiftLeft, Holds]
  by_cases h : id < 2 ^ depth
  · simp [h, eq_comm]
  · simp [h]

/-- The slots of a new directory refer to buckets of their own. -/
theorem slots_ofDepth {depth slot id : Nat} :
    (ofDepth depth).slots[slot]? = some id ↔ slot < 2 ^ depth ∧ id = slot := by
  rw [ofDepth, Nat.one_shiftLeft]
  by_cases h : slot < 2 ^ depth
  · simp [h, eq_comm]
  · simp [h]

/-- A new directory has no entries. -/
@[simp] theorem entries_ofDepth (depth : Nat) : (ofDepth depth).entries = [] := by
  rw [List.eq_nil_iff_forall_not_mem]
  intro e he
  obtain ⟨id, b, hb, he⟩ := mem_entries_iff.mp he
  obtain ⟨-, rfl⟩ := holds_ofDepth_iff.mp hb
  exact absurd he List.not_mem_nil

/-- A new directory is sound. -/
theorem sound_ofDepth {depth : Nat} (hdepth : depth ≤ hashBits) : (ofDepth depth).Sound hash where
  depth_le := hdepth
  slots_size := by simp [ofDepth, Nat.one_shiftLeft]
  cells_size := by simp [ofDepth, Nat.one_shiftLeft]
  origin_eq hb := by
    obtain ⟨-, rfl⟩ := holds_ofDepth_iff.mp hb
    rfl
  localDepth_le hb := by
    obtain ⟨-, rfl⟩ := holds_ofDepth_iff.mp hb
    exact Nat.le_refl depth
  bucket_sound hb := by
    obtain ⟨hlt, rfl⟩ := holds_ofDepth_iff.mp hb
    exact ⟨hlt, Nat.zero_le _, fun e he => absurd he List.not_mem_nil⟩
  slot_of_covers hb hslot hcovers := by
    obtain ⟨-, rfl⟩ := holds_ofDepth_iff.mp hb
    exact slots_ofDepth.mpr ⟨hslot, hcovers.symm.trans (Nat.mod_eq_of_lt hslot)⟩
  exists_of_slot h := by
    obtain ⟨hlt, rfl⟩ := slots_ofDepth.mp h
    exact ⟨_, holds_ofDepth_iff.mpr ⟨hlt, rfl⟩, Nat.mod_eq_of_lt hlt⟩

/-- A bucket can be replaced by a sound one with the same class. -/
theorem Sound.store (hsound : dir.Sound hash) {id : Nat} {b c : Bucket} (hb : dir.Holds id b)
    (hc : c.Sound hash) (horigin : c.origin = b.origin) (hdepth : c.localDepth = b.localDepth) :
    (dir.store ⟨id, c⟩).Sound hash := by
  have hclass (n : Nat) : c.Covers n ↔ b.Covers n := by
    rw [Bucket.Covers, Bucket.Covers, horigin, hdepth]
  have hcases {i : Nat} {x : Bucket} (hx : (dir.store ⟨id, c⟩).Holds i x) :
      (i = id ∧ x = c) ∨ (i ≠ id ∧ dir.Holds i x) := (holds_store_iff hb.lt).mp hx
  refine ⟨hsound.depth_le, hsound.slots_size, ?_, ?_, ?_, ?_, ?_, ?_⟩
  · rw [Directory.store, Array.size_setIfInBounds]
    exact hsound.cells_size
  · intro i x hx
    rcases hcases hx with ⟨rfl, rfl⟩ | ⟨-, hx⟩
    · exact horigin.trans (hsound.origin_eq hb)
    · exact hsound.origin_eq hx
  · intro i x hx
    rcases hcases hx with ⟨rfl, rfl⟩ | ⟨-, hx⟩
    · exact hdepth ▸ hsound.localDepth_le hb
    · exact hsound.localDepth_le hx
  · intro i x hx
    rcases hcases hx with ⟨rfl, rfl⟩ | ⟨-, hx⟩
    · exact hc
    · exact hsound.bucket_sound hx
  · intro i x slot hx hslot hcovers
    rcases hcases hx with ⟨rfl, rfl⟩ | ⟨-, hx⟩
    · exact hsound.slot_of_covers hb hslot ((hclass slot).mp hcovers)
    · exact hsound.slot_of_covers hx hslot hcovers
  · intro slot i hslot
    obtain ⟨x, hx, hcovers⟩ := hsound.exists_of_slot hslot
    by_cases hi : i = id
    · subst hi
      exact ⟨c, (holds_store_iff hb.lt).mpr (.inl ⟨rfl, rfl⟩), (hclass slot).mpr (hb.unique hx ▸ hcovers)⟩
    · exact ⟨x, (holds_store_iff hb.lt).mpr (.inr ⟨hi, hx⟩), hcovers⟩

/-- The slots of a doubled directory repeat the old ones. -/
theorem slots_double (hsize : dir.slots.size = 2 ^ dir.depth) {slot : Nat} (h : slot < 2 ^ (dir.depth + 1)) :
    dir.double.slots[slot]? = dir.slots[slot % 2 ^ dir.depth]? := by
  rw [double, Array.getElem?_append, hsize]
  rw [Nat.pow_succ] at h
  split
  next hlt => rw [Nat.mod_eq_of_lt hlt]
  next hge => rw [Nat.mod_eq_sub_mod (Nat.le_of_not_lt hge), Nat.mod_eq_of_lt (by omega)]

/-- A sound directory can be doubled as long as hashes have another bit. -/
theorem Sound.double (hsound : dir.Sound hash) (hdepth : dir.depth < hashBits) :
    dir.double.Sound hash := by
  have hslotLt {slot id : Nat} (h : dir.double.slots[slot]? = some id) : slot < 2 ^ (dir.depth + 1) := by
    have hlt := (Array.getElem?_eq_some_iff.mp h).1
    rw [Directory.double, Array.size_append, hsound.slots_size] at hlt
    rw [Nat.pow_succ]
    omega
  refine ⟨hdepth, ?_, ?_, ?_, ?_, ?_, ?_, ?_⟩
  · simp only [Directory.double, Array.size_append, hsound.slots_size]
    rw [Nat.pow_succ, Nat.mul_two]
  · simp only [Directory.double, Array.size_append, Array.size_replicate, hsound.slots_size, hsound.cells_size]
    rw [Nat.pow_succ, Nat.mul_two]
  · exact fun hb => hsound.origin_eq (holds_double_iff.mp hb)
  · exact fun hb => (hsound.localDepth_le (holds_double_iff.mp hb)).trans (Nat.le_succ _)
  · exact fun hb => hsound.bucket_sound (holds_double_iff.mp hb)
  · intro id b slot hb hslot hcovers
    have hb := holds_double_iff.mp hb
    rw [slots_double hsound.slots_size hslot]
    exact hsound.slot_mod_eq hb hcovers
  · intro slot id hslot
    rw [slots_double hsound.slots_size (hslotLt hslot)] at hslot
    obtain ⟨b, hb, hcovers⟩ := hsound.exists_of_slot hslot
    exact ⟨b, holds_double_iff.mpr hb, (Bucket.covers_mod (hsound.localDepth_le hb) slot).mp hcovers⟩

/-- A directory that is deep enough stays as it is. -/
theorem deepen_of_le {depth : Nat} (h : depth ≤ dir.depth) : dir.deepen depth = dir := by
  rw [deepen, Nat.sub_eq_zero_of_le h, Nat.repeat]

/-- What holds of a directory and outlasts doubling below a depth holds after deepening to it. -/
theorem deepen_induction {motive : Directory → Prop} {depth : Nat} (hdir : motive dir)
    (hdouble : ∀ d : Directory, d.depth < depth → motive d → motive d.double) :
    motive (dir.deepen depth) ∧ (dir.deepen depth).depth = max dir.depth depth := by
  have hrounds (n : Nat) (hn : n ≤ depth - dir.depth) :
      motive (Nat.repeat Directory.double n dir) ∧
        (Nat.repeat Directory.double n dir).depth = dir.depth + n := by
    induction n with
    | zero => exact ⟨hdir, rfl⟩
    | succ n ih =>
      obtain ⟨hmotive, hdepth⟩ := ih (Nat.le_of_succ_le hn)
      refine ⟨hdouble _ (by omega) hmotive, ?_⟩
      change (Nat.repeat Directory.double n dir).depth + 1 = _
      omega
  obtain ⟨hmotive, hdepth⟩ := hrounds (depth - dir.depth) (Nat.le_refl _)
  exact ⟨hmotive, by rw [deepen, hdepth]; omega⟩

/-- Deepening addresses the directory by the bits asked for, if it does not use more already. -/
theorem depth_deepen (depth : Nat) (dir : Directory) : (dir.deepen depth).depth = max dir.depth depth :=
  (deepen_induction (motive := fun _ => True) trivial fun _ _ _ => trivial).2

/-- Deepening leaves the buckets in their cells. -/
theorem holds_deepen_iff {depth id : Nat} {b : Bucket} :
    (dir.deepen depth).Holds id b ↔ dir.Holds id b :=
  (deepen_induction (motive := fun d => d.Holds id b ↔ dir.Holds id b) Iff.rfl
    fun _ _ h => holds_double_iff.trans h).1

/-- Deepening adds no bucket. -/
theorem buckets_deepen (depth : Nat) (dir : Directory) : (dir.deepen depth).buckets = dir.buckets :=
  (deepen_induction (motive := fun d => d.buckets = dir.buckets) rfl
    fun d _ h => (buckets_double d).trans h).1

/-- Deepening adds no entry. -/
theorem entries_deepen (depth : Nat) (dir : Directory) : (dir.deepen depth).entries = dir.entries := by
  rw [entries, buckets_deepen, entries]

/-- A sound directory can be deepened up to the width of hashes. -/
theorem Sound.deepen (hsound : dir.Sound hash) {depth : Nat} (hdepth : depth ≤ hashBits) :
    (dir.deepen depth).Sound hash :=
  (deepen_induction (motive := fun d => d.Sound hash) hsound
    fun _ hlt h => h.double (Nat.lt_of_lt_of_le hlt hdepth)).1

end ExtendibleHashing.Directory
