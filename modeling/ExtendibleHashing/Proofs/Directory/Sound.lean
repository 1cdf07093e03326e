import ExtendibleHashing.Proofs.Bucket.Partition
import ExtendibleHashing.Proofs.Directory.Contents

/-!
# Sound directories

The structure every directory keeps: as many slots and cells as its depth asks for, every bucket in
the cell of its origin and no deeper than the directory, and every slot referring to the bucket
whose class it is in. It follows that each number is in the class of exactly one bucket, so a hash
has one bucket to look in, and that an identity read earlier is never worse than reading the slot
again.
-/

namespace ExtendibleHashing.Directory

/-- The structure of a directory under a hash function. -/
structure Sound (hash : HashFunction) (dir : Directory) : Prop where
  depth_le : dir.depth ≤ hashBits
  slots_size : dir.slots.size = 2 ^ dir.depth
  cells_size : dir.cells.size = 2 ^ dir.depth
  origin_eq : ∀ {id b}, dir.Holds id b → b.origin = id
  localDepth_le : ∀ {id b}, dir.Holds id b → b.localDepth ≤ dir.depth
  bucket_sound : ∀ {id b}, dir.Holds id b → b.Sound hash
  slot_of_covers : ∀ {id b slot}, dir.Holds id b → slot < 2 ^ dir.depth → b.Covers slot →
    dir.slots[slot]? = some id
  exists_of_slot : ∀ {slot id}, dir.slots[slot]? = some id → ∃ b, dir.Holds id b ∧ b.Covers slot

namespace Sound

variable {hash : HashFunction} {dir : Directory}

/-- Slots are numbered below the size of the directory. -/
theorem slot_lt (hsound : dir.Sound hash) {slot id : Nat} (h : dir.slots[slot]? = some id) :
    slot < 2 ^ dir.depth :=
  hsound.slots_size ▸ (Array.getElem?_eq_some_iff.mp h).1

/-- The slots that refer to a bucket are exactly those in its class. -/
theorem slot_eq_iff (hsound : dir.Sound hash) {id slot : Nat} {b : Bucket} (hb : dir.Holds id b) :
    dir.slots[slot]? = some id ↔ slot < 2 ^ dir.depth ∧ b.Covers slot := by
  constructor
  · intro h
    obtain ⟨b', hb', hcovers⟩ := hsound.exists_of_slot h
    exact ⟨hsound.slot_lt h, hb.unique hb' ▸ hcovers⟩
  · rintro ⟨hlt, hcovers⟩
    exact hsound.slot_of_covers hb hlt hcovers

/-- Every number is in the class of a bucket, and its slot refers to that bucket. -/
theorem exists_covering (hsound : dir.Sound hash) (n : Nat) :
    ∃ id b, dir.slots[n % 2 ^ dir.depth]? = some id ∧ dir.Holds id b ∧ b.Covers n := by
  have hlt : n % 2 ^ dir.depth < dir.slots.size := by
    rw [hsound.slots_size]
    exact Nat.mod_lt _ (Nat.two_pow_pos _)
  have hslot := Array.getElem?_eq_getElem hlt
  obtain ⟨b, hb, hcovers⟩ := hsound.exists_of_slot hslot
  exact ⟨_, b, hslot, hb, (Bucket.covers_mod (hsound.localDepth_le hb) n).mp hcovers⟩

/-- A number in the class of a bucket has that bucket in its slot. -/
theorem slot_mod_eq (hsound : dir.Sound hash) {id n : Nat} {b : Bucket} (hb : dir.Holds id b)
    (hcovers : b.Covers n) : dir.slots[n % 2 ^ dir.depth]? = some id :=
  hsound.slot_of_covers hb (Nat.mod_lt _ (Nat.two_pow_pos _))
    ((Bucket.covers_mod (hsound.localDepth_le hb) n).mpr hcovers)

/-- No number is in the classes of two buckets. -/
theorem id_eq_of_covers (hsound : dir.Sound hash) {id id' n : Nat} {b b' : Bucket}
    (hb : dir.Holds id b) (hb' : dir.Holds id' b') (hcovers : b.Covers n) (hcovers' : b'.Covers n) :
    id = id' :=
  Option.some.inj ((hsound.slot_mod_eq hb hcovers).symm.trans (hsound.slot_mod_eq hb' hcovers'))

/-- The entry of a key can only be in the bucket that its hash belongs to. -/
theorem mem_entries_iff_of_covers (hsound : dir.Sound hash) {id : Nat} {b : Bucket} {e : Entry}
    (hb : dir.Holds id b) (hcovers : b.Covers (hash e.key).toNat) :
    e ∈ dir.entries ↔ e ∈ b.entries := by
  rw [mem_entries_iff]
  constructor
  · rintro ⟨id', b', hb', he⟩
    have hcovers' := (hsound.bucket_sound hb').covers_hash e he
    obtain rfl := hsound.id_eq_of_covers hb hb' hcovers hcovers'
    exact hb.unique hb' ▸ he
  · exact fun he => ⟨id, b, hb, he⟩

/-- A key is stored exactly when it is in the bucket that its hash belongs to. -/
theorem mem_keys_iff_of_covers (hsound : dir.Sound hash) {id : Nat} {b : Bucket} {key : Bytes}
    (hb : dir.Holds id b) (hcovers : b.Covers (hash key).toNat) : key ∈ dir.keys ↔ key ∈ b.keys := by
  simp only [keys, Bucket.keys, List.mem_map]
  refine exists_congr fun e => and_congr_left fun hkey => ?_
  exact hsound.mem_entries_iff_of_covers hb (hkey ▸ hcovers)

/-- Nothing outside the bucket of a hash has that hash. -/
theorem hash_ne_of_mem_without (hsound : dir.Sound hash) {id : Nat} {b : Bucket} {value : HashValue}
    (hb : dir.Holds id b) (hcovers : b.Covers value.toNat) {e : Entry}
    (he : e ∈ (dir.without id).entries) : hash e.key ≠ value := by
  rintro rfl
  obtain ⟨id', b', hb', he'⟩ := mem_entries_iff.mp he
  obtain ⟨hne, hb'⟩ := holds_without_iff.mp hb'
  exact hne (hsound.id_eq_of_covers hb' hb ((hsound.bucket_sound hb').covers_hash e he') hcovers)

/-- A look-up finds the bucket that the hash belongs to. -/
theorem lookUp_eq (hsound : dir.Sound hash) {id : Nat} {b : Bucket} {value : HashValue}
    (hb : dir.Holds id b) (hcovers : b.Covers value.toNat) : dir.lookUp value = .ok ⟨id, b⟩ := by
  have hid : dir.idOf value = .ok id := by
    rw [idOf, slotOf, HashValue.residue_eq, idAt, hsound.slot_mod_eq hb hcovers]
  rw [lookUp, hid]
  simp only [bind, Except.bind, fetch_eq_ok_iff.mpr hb, (Bucket.routes_iff_covers value b).mpr hcovers]
  rfl

/-- Every hash has a bucket to look in. -/
theorem exists_lookUp (hsound : dir.Sound hash) (value : HashValue) :
    ∃ id b, dir.idOf value = .ok id ∧ dir.lookUp value = .ok ⟨id, b⟩ ∧ dir.Holds id b ∧
      b.Covers value.toNat := by
  obtain ⟨id, b, hslot, hb, hcovers⟩ := hsound.exists_covering value.toNat
  refine ⟨id, b, ?_, hsound.lookUp_eq hb hcovers, hb, hcovers⟩
  rw [idOf, slotOf, HashValue.residue_eq, idAt, hslot]

/-- What a look-up finds is in its cell, and the hash belongs there. -/
theorem of_lookUp (hsound : dir.Sound hash) {id : Nat} {b : Bucket} {value : HashValue}
    (h : dir.lookUp value = .ok ⟨id, b⟩) : dir.Holds id b ∧ b.Covers value.toNat := by
  obtain ⟨id', b', -, hlookUp, hb, hcovers⟩ := hsound.exists_lookUp value
  obtain ⟨rfl, rfl⟩ : id' = id ∧ b' = b := by simpa [hlookUp] using h
  exact ⟨hb, hcovers⟩

/-- Whatever bucket is tried first, what is found is the bucket that a look-up finds. -/
theorem exists_locate (hsound : dir.Sound hash) {id stale : Nat} {b c : Bucket} {value : HashValue}
    (hstale : dir.Holds stale c) (h : dir.lookUp value = .ok ⟨id, b⟩) :
    ∃ events, dir.locate value stale = .ok ⟨⟨id, b⟩, events⟩ := by
  rw [locate, fetch_eq_ok_iff.mpr hstale]
  simp only [bind, Except.bind]
  split
  next hroutes =>
    have hcovers := (Bucket.routes_iff_covers value c).mp hroutes
    rw [hsound.lookUp_eq hstale hcovers] at h
    obtain ⟨rfl, rfl⟩ : stale = id ∧ c = b := by simpa using h
    exact ⟨[], rfl⟩
  next =>
    rw [h]
    exact ⟨[.reread stale], rfl⟩

end Sound

end ExtendibleHashing.Directory
