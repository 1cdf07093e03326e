import ExtendibleHashing.Proofs.Session.Path

/-!
# Identities read long ago

An operation reads the identity of its bucket from a slot and may come to the bucket much later. In
the meantime the bucket may have been split any number of times, its parts as well, and the directory
may have been doubled. Identities are never given up, so there still is a bucket to come to, and that
bucket tells by its own origin and local depth whether the slot of a hash refers to it by now: it takes
the hash exactly when that is so. Hence the slot is read again when the hash has moved away and only
then, and the second reading is always right.
-/

namespace ExtendibleHashing

namespace Directory

/-- Come to the bucket of a hash under an identity read earlier, and go back to the slot whenever the
bucket does not take the hash, giving up after a number of tries. -/
def seek (hash : HashValue) : Nat → Nat → Directory → Except Fault (Logged Located)
  | 0, id, _ => .error (.misrouted id)
  | tries + 1, id, dir => do
    let bucket ← dir.fetch id
    if bucket.routes hash then
      return ⟨⟨id, bucket⟩, []⟩
    else
      let fresh ← dir.idOf hash
      let ⟨found, events⟩ ← seek hash tries fresh dir
      return ⟨found, .reread id :: events⟩

namespace Sound

variable {hash : HashFunction} {dir : Directory} {id : Nat} {b : Bucket} {value : HashValue}

/-- The slot of a hash refers to a bucket exactly when that takes the hash. -/
theorem idOf_eq_ok_iff (hsound : dir.Sound hash) (hb : dir.Holds id b) (value : HashValue) :
    dir.idOf value = .ok id ↔ b.routes value = true := by
  have hslot : dir.idOf value = .ok id ↔ dir.slots[value.toNat % 2 ^ dir.depth]? = some id := by
    rw [idOf, slotOf, HashValue.residue_eq, idAt]
    cases dir.slots[value.toNat % 2 ^ dir.depth]? <;> simp
  have hlt : value.toNat % 2 ^ dir.depth < 2 ^ dir.depth := Nat.mod_lt _ (Nat.two_pow_pos _)
  rw [hslot, hsound.slot_eq_iff hb, and_iff_right hlt, Bucket.covers_mod (hsound.localDepth_le hb),
    Bucket.routes_iff_covers]

/-- The bucket that a look-up finds takes the hash, and the slot of the hash refers to it. -/
theorem routes_of_lookUp (hsound : dir.Sound hash) (hfound : dir.lookUp value = .ok ⟨id, b⟩) :
    dir.Holds id b ∧ b.routes value = true ∧ dir.idOf value = .ok id := by
  obtain ⟨hb, hcovers⟩ := hsound.of_lookUp hfound
  have hroutes := (Bucket.routes_iff_covers value b).mpr hcovers
  exact ⟨hb, hroutes, (hsound.idOf_eq_ok_iff hb value).mpr hroutes⟩

/-- From any bucket a hash is found with one rereading at most, which happens when the bucket does not
take the hash. -/
theorem locate_eq (hsound : dir.Sound hash) {found : Located} (hb : dir.Holds id b)
    (hfound : dir.lookUp value = .ok found) :
    dir.locate value id = .ok ⟨found, if b.routes value then [] else [.reread id]⟩ := by
  rw [locate, fetch_eq_ok_iff.mpr hb]
  simp only [bind, Except.bind]
  cases hroutes : b.routes value with
  | true =>
    rw [hsound.lookUp_eq hb ((Bucket.routes_iff_covers value b).mp hroutes)] at hfound
    obtain rfl := Except.ok.inj hfound
    rfl
  | false =>
    rw [hfound]
    rfl

/-- However many tries there are from two on, the second is the last. -/
theorem seek_eq (hsound : dir.Sound hash) {found : Located} (hb : dir.Holds id b)
    (hfound : dir.lookUp value = .ok found) (tries : Nat) :
    dir.seek value (tries + 2) id = .ok ⟨found, if b.routes value then [] else [.reread id]⟩ := by
  obtain ⟨fresh, c⟩ := found
  obtain ⟨hc, hroutes', hfresh⟩ := hsound.routes_of_lookUp hfound
  rw [seek, fetch_eq_ok_iff.mpr hb]
  simp only [bind, Except.bind]
  cases hroutes : b.routes value with
  | true =>
    obtain rfl : id = fresh :=
      Except.ok.inj (((hsound.idOf_eq_ok_iff hb value).mpr hroutes).symm.trans hfresh)
    obtain rfl := hb.unique hc
    rfl
  | false =>
    simp only [hfresh, seek, fetch_eq_ok_iff.mpr hc, hroutes', bind, Except.bind]
    rfl

end Sound

end Directory

variable {hash : HashFunction} {earlier later : Index}

/-- Steps of sessions lead from one index to the other, whoever shares the directory during each. -/
def Index.LeadsTo (hash : HashFunction) : Index → Index → Prop :=
  Relation.ReflTransGen fun index next => ∃ occupancy step answer,
    Step.run occupancy (.ok hash) step index = .ok (answer, next)

/-- Where steps lead, a path leads. -/
theorem Index.LeadsTo.path (h : earlier.LeadsTo hash later) (hsound : earlier.Sound hash) :
    earlier.Path hash later := by
  induction h with
  | refl => exact .refl
  | tail _ hlast ih =>
    obtain ⟨occupancy, step, answer, hrun⟩ := hlast
    exact ih.trans (Step.path_of_run (ih.sound hsound) hrun)

/-- An identity that the slot of a hash had at some time names a bucket ever after, and that bucket
takes the hash exactly when the slot refers to it by then. An operation that comes to it, with however
many tries, ends at the bucket that a fresh look-up finds, and reads the slot again once if the hash
has moved away, and not at all if it has not. -/
theorem outdated_identity_routes (h : Reachable hash earlier) (hleads : earlier.LeadsTo hash later)
    (value : HashValue) :
    ∃ id old found, earlier.directory.idOf value = .ok id ∧ later.directory.Holds id old ∧ old.origin = id ∧
      later.directory.lookUp value = .ok found ∧
      (old.routes value = true ↔ later.directory.idOf value = .ok id) ∧
      later.directory.locate value id = .ok ⟨found, if old.routes value then [] else [.reread id]⟩ ∧
      (∀ tries, later.directory.seek value (tries + 2) id =
        .ok ⟨found, if old.routes value then [] else [.reread id]⟩) ∧
      (Event.reread id).level = .trace := by
  have hpath := hleads.path h.sound
  have hlater := (hpath.sound h.sound).directory
  obtain ⟨id, b, hid, -, hb, -⟩ := h.sound.directory.exists_lookUp value
  obtain ⟨old, hold⟩ := hpath.retains h.sound hb
  obtain ⟨fresh, c, -, hfound, -, -⟩ := hlater.exists_lookUp value
  exact ⟨id, old, ⟨fresh, c⟩, hid, hold, hlater.origin_eq hold, hfound, (hlater.idOf_eq_ok_iff hold value).symm,
    hlater.locate_eq hold hfound, hlater.seek_eq hold hfound, rfl⟩

/-- When the only bucket is split, an odd hash moves to the new bucket and an even one stays. Keys are
hashed to their first byte. -/
theorem outdated_identity_after_doubling :
    ∃ later, Reachable (fun key => (key.headD 0).toUInt32)
        (.single [⟨[1], []⟩, ⟨[2], []⟩, ⟨[3], []⟩, ⟨[4], []⟩]) ∧
      Index.LeadsTo (fun key => (key.headD 0).toUInt32)
        (.single [⟨[1], []⟩, ⟨[2], []⟩, ⟨[3], []⟩, ⟨[4], []⟩]) later ∧
      later.directory.locate 5 0 = .ok ⟨⟨1, ⟨[⟨[1], []⟩, ⟨[3], []⟩], 1, 1⟩⟩, [.reread 0]⟩ ∧
      later.directory.locate 8 0 = .ok ⟨⟨0, ⟨[⟨[2], []⟩, ⟨[4], []⟩, ⟨[6], []⟩], 1, 0⟩⟩, []⟩ := by
  have hfull : Reachable (fun key => (key.headD 0).toUInt32)
      (.single [⟨[1], []⟩, ⟨[2], []⟩, ⟨[3], []⟩, ⟨[4], []⟩]) :=
    reachable_single _ (by decide) (by decide)
  have hrun : Step.run .vacant (.ok fun key => (key.headD 0).toUInt32) (.request (.operate (.insert ⟨[6], []⟩)))
      (.single [⟨[1], []⟩, ⟨[2], []⟩, ⟨[3], []⟩, ⟨[4], []⟩]) = .ok (_, _) := rfl
  have hleads : Index.LeadsTo (fun key => (key.headD 0).toUInt32)
      (.single [⟨[1], []⟩, ⟨[2], []⟩, ⟨[3], []⟩, ⟨[4], []⟩]) _ := .single ⟨_, _, _, hrun⟩
  obtain ⟨id, old, found, hid, hold, -, hfound, -, hmoved, -⟩ := outdated_identity_routes hfull hleads 5
  obtain ⟨id', old', found', hid', hold', -, hfound', -, hstayed, -⟩ := outdated_identity_routes hfull hleads 8
  obtain rfl : 0 = id := Except.ok.inj hid
  obtain rfl : 0 = id' := Except.ok.inj hid'
  obtain rfl := Option.some.inj (Option.some.inj hold)
  obtain rfl := Option.some.inj (Option.some.inj hold')
  obtain rfl := Except.ok.inj hfound
  obtain rfl := Except.ok.inj hfound'
  exact ⟨_, hfull, hleads, hmoved, hstayed⟩

end ExtendibleHashing
