import ExtendibleHashing.Bucket.Split
import ExtendibleHashing.Directory
import Mathlib.Data.Nat.ModEq

/-!
# Residue classes of buckets

Slots and hash values are numbers, and a bucket of local depth `d` stands for the numbers that
are congruent to its origin modulo `2 ^ d`. Routing, the alias range of a bucket and the two sides
of a split all read off this one class: a split halves the class by the next bit.
-/

namespace ExtendibleHashing

/-- The residue of a hash is taken modulo a power of two. -/
theorem HashValue.residue_eq (depth : Nat) (hash : HashValue) :
    hash.residue depth = hash.toNat % 2 ^ depth := by
  rw [residue, Nat.one_shiftLeft]

namespace Bucket

/-- A number, be it a slot or a hash value, lies in the residue class of a bucket. -/
def Covers (n : Nat) (b : Bucket) : Prop := n % 2 ^ b.localDepth = b.origin

instance (n : Nat) (b : Bucket) : Decidable (b.Covers n) := inferInstanceAs (Decidable (_ = _))

/-- The origin of a bucket is the smallest member of its class. -/
def Rooted (b : Bucket) : Prop := b.origin < 2 ^ b.localDepth

/-- A bucket routes the hash values in its class. -/
theorem routes_iff_covers (hash : HashValue) (b : Bucket) :
    b.routes hash = true ↔ b.Covers hash.toNat := by
  simp [routes, Covers, HashValue.residue_eq]

/-- The slots in the alias range of a bucket are those in its class. -/
theorem inAliasRange_iff_covers {b : Bucket} (hroot : b.Rooted) (slot : Nat) :
    Directory.inAliasRange b slot = true ↔ b.Covers slot := by
  have hmod : b.origin % 2 ^ b.localDepth = b.origin := Nat.mod_eq_of_lt hroot
  simp only [Directory.inAliasRange, Covers, Nat.one_shiftLeft, Bool.and_eq_true, decide_eq_true_eq, beq_iff_eq]
  constructor
  · rintro ⟨hle, hstep⟩
    have hmodEq : b.origin ≡ slot [MOD 2 ^ b.localDepth] :=
      (Nat.modEq_iff_dvd' hle).mpr (Nat.dvd_of_mod_eq_zero hstep)
    rw [← hmodEq, hmod]
  · intro hcovers
    have hle : b.origin ≤ slot := hcovers ▸ Nat.mod_le slot _
    refine ⟨hle, Nat.mod_eq_zero_of_dvd ?_⟩
    exact (Nat.modEq_iff_dvd' hle).mp (hmod.trans hcovers.symm)

/-- Bits above the local depth do not matter for membership. -/
theorem covers_mod {b : Bucket} {depth : Nat} (h : b.localDepth ≤ depth) (n : Nat) :
    b.Covers (n % 2 ^ depth) ↔ b.Covers n := by
  rw [Covers, Covers, Nat.mod_mod_of_dvd n (Nat.pow_dvd_pow 2 h)]

/-- A rooted bucket has its origin in its class. -/
theorem Rooted.covers_origin {b : Bucket} (hroot : b.Rooted) : b.Covers b.origin :=
  Nat.mod_eq_of_lt hroot

/-- Numbers of one class agree on every bit below the local depth. -/
theorem Covers.testBit_eq {b : Bucket} {m n : Nat} (hm : b.Covers m) (hn : b.Covers n) {i : Nat}
    (hi : i < b.localDepth) : m.testBit i = n.testBit i := by
  have hmod : m % 2 ^ b.localDepth = n % 2 ^ b.localDepth := hm.trans hn.symm
  simpa [Nat.testBit_mod_two_pow, hi] using congrArg (·.testBit i) hmod

/-- The side of a split on which the next hash bit has the given value. -/
def side (hash : HashFunction) (bit : Bool) (b : Bucket) : Bucket :=
  if bit then b.upper hash else b.lower hash

/-- Both sides of a split are one bit deeper. -/
@[simp] theorem side_localDepth (hash : HashFunction) (bit : Bool) (b : Bucket) :
    (b.side hash bit).localDepth = b.localDepth + 1 := by
  cases bit <;> rfl

/-- A side keeps, in stored order, the entries whose next hash bit is the side's. -/
theorem side_entries (hash : HashFunction) (bit : Bool) (b : Bucket) :
    (b.side hash bit).entries = b.entries.filter fun e => (hash e.key).bit b.localDepth == bit := by
  cases bit <;> simp [side, lower, upper]

/-- The origin of a side has the side's bit in front of the bits of the bucket. -/
theorem side_origin {b : Bucket} (hroot : b.Rooted) (hash : HashFunction) (bit : Bool) :
    (b.side hash bit).origin = b.origin + 2 ^ b.localDepth * bit.toNat := by
  cases bit with
  | false => simp [side, lower]
  | true =>
    have hor : 2 ^ b.localDepth + b.origin = 2 ^ b.localDepth ||| b.origin := by
      simpa using Nat.two_pow_add_eq_or_of_lt hroot 1
    change b.origin ||| 1 <<< b.localDepth = b.origin + 2 ^ b.localDepth * 1
    rw [Nat.one_shiftLeft, Nat.or_comm, ← hor, Nat.mul_one, Nat.add_comm]

/-- Sides of rooted buckets are rooted. -/
theorem Rooted.side {b : Bucket} (hroot : b.Rooted) (hash : HashFunction) (bit : Bool) :
    (b.side hash bit).Rooted := by
  have hlt : b.origin < 2 ^ b.localDepth := hroot
  rw [Rooted, side_origin hroot, side_localDepth, Nat.pow_succ]
  cases bit <;> simp <;> omega

/-- The class of a side consists of the members of the class that have the side's bit. -/
theorem covers_side_iff {b : Bucket} (hroot : b.Rooted) (hash : HashFunction) (bit : Bool) (n : Nat) :
    (b.side hash bit).Covers n ↔ b.Covers n ∧ n.testBit b.localDepth = bit := by
  have hlt : b.origin < 2 ^ b.localDepth := hroot
  have hmod : n % 2 ^ b.localDepth < 2 ^ b.localDepth := Nat.mod_lt _ (Nat.two_pow_pos _)
  rw [Covers, Covers, side_localDepth, side_origin hroot, Nat.mod_pow_succ, ← Nat.toNat_testBit]
  cases bit <;> cases n.testBit b.localDepth <;> simp <;> omega

/-- But for its last bit a side has the origin of the bucket. -/
theorem side_origin_above {b : Bucket} (hroot : b.Rooted) (hash : HashFunction) (bit : Bool) :
    (b.side hash bit).origin % 2 ^ ((b.side hash bit).localDepth - 1) = b.origin := by
  rw [side_localDepth, Nat.add_sub_cancel]
  exact ((covers_side_iff hroot hash bit _).mp (hroot.side hash bit).covers_origin).1

end Bucket

end ExtendibleHashing
