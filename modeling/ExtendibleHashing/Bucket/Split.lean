import ExtendibleHashing.Bucket.Basic
import ExtendibleHashing.Fault
import ExtendibleHashing.Hash.Hasher

/-!
# Splitting buckets

A split raises the local depth of a bucket by one. Entries whose hash has the newly
significant bit set move to a new bucket, whose origin has that bit set too; the others
stay. When all entries of a full bucket and a new one land on the same side, that side is
still full and splits again, so placing one entry can create a series of buckets.

`separatingDepth?` predicts from the hashes alone the depth at which such a series ends;
`splitFor` carries it out.
-/

namespace ExtendibleHashing.Bucket

/-- The side of a split that keeps the origin: the entries whose next hash bit is clear. -/
def lower (hash : HashFunction) (b : Bucket) : Bucket where
  entries := b.entries.filter fun e => !(hash e.key).bit b.localDepth
  localDepth := b.localDepth + 1
  origin := b.origin

/-- The side of a split that becomes a new bucket: the entries whose next hash bit is set. -/
def upper (hash : HashFunction) (b : Bucket) : Bucket where
  entries := b.entries.filter fun e => (hash e.key).bit b.localDepth
  localDepth := b.localDepth + 1
  origin := b.origin ||| 1 <<< b.localDepth

/-- The two sides share out the entries of the bucket. -/
theorem lower_append_upper_perm (hash : HashFunction) (b : Bucket) :
    ((b.lower hash).entries ++ (b.upper hash).entries).Perm b.entries := by
  simpa [lower, upper] using
    (List.filter_append_perm (fun e => !(hash e.key).bit b.localDepth) b.entries)

/-- Both sides of a bucket that is not overfull and has a hash bit left to split on. -/
def split (hash : HashFunction) (b : Bucket) : Except Fault (Bucket × Bucket) :=
  if hashBits ≤ b.localDepth then .error (.bitsExhausted b.origin)
  else if bucketCapacity < b.entries.length then .error (.overfull b.origin)
  else .ok (b.lower hash, b.upper hash)

/-- What comes of a split when keys may have no hash. -/
inductive SplitResult where
  /-- Both sides. -/
  | sides (lower upper : Bucket)
  /-- A stored key has no hash, and what is left of the bucket. -/
  | broken (error : HashError) (rest : Bucket)
deriving DecidableEq, Repr

/-- Split a bucket by a function that may be missing. By the time a hash is asked for, the
depth has been raised and the entries taken out; a missing one loses them. -/
def splitBy (hash : Except HashError HashFunction) (b : Bucket) : Except Fault SplitResult :=
  match hashOn b.keys hash with
  | .ok hash => do
    let (lower, upper) ← b.split hash
    return .sides lower upper
  | .error error => .ok (.broken error ⟨[], b.localDepth + 1, b.origin⟩)

/-- The bits on which some entry of the bucket differs from a new hash. -/
def differingBits (hash : HashFunction) (newHash : HashValue) (b : Bucket) : HashValue :=
  b.entries.foldl (fun bits e => bits ||| (hash e.key ^^^ newHash)) 0

/-- The least depth above the bucket's own at which its entries and a new hash no longer
agree on every bit; none exists when they agree to the full width. -/
def separatingDepth? (hash : HashFunction) (newHash : HashValue) (b : Bucket) : Option Nat :=
  (HashValue.lowestBit? (b.differingBits hash newHash &&& ~~~ HashValue.mask b.localDepth)).map
    (· + 1)

/-- Split at most `rounds` times, each time the side that the new hash belongs to, until that
side has room for the new entry. The first component is what became of the bucket itself,
the second lists the new buckets in the order of their creation. -/
def splitRounds (hash : HashFunction) (newHash : HashValue) (entry : Entry) :
    Nat → Bucket → Except Fault (Bucket × List Bucket)
  | 0, b => .error (.bitsExhausted b.origin)
  | rounds + 1, b => do
    let (lower, upper) ← b.split hash
    if newHash.bit b.localDepth then
      match upper.append entry with
      | .ok upper => return (lower, [upper])
      | .error _ =>
        let (upper, created) ← splitRounds hash newHash entry rounds upper
        return (lower, upper :: created)
    else
      match lower.append entry with
      | .ok lower => return (lower, [upper])
      | .error _ =>
        let (lower, created) ← splitRounds hash newHash entry rounds lower
        return (lower, upper :: created)

/-- Split a full bucket until a new entry fits; every round uses up one hash bit. -/
def splitFor (hash : HashFunction) (newHash : HashValue) (entry : Entry) (b : Bucket) :
    Except Fault (Bucket × List Bucket) :=
  splitRounds hash newHash entry (hashBits - b.localDepth) b

/-- What a bucket makes of an entry that is to be inserted. -/
inductive Placement where
  /-- The key is stored already. -/
  | present
  /-- The bucket had room for the entry. -/
  | appended (bucket : Bucket)
  /-- The bucket is full and has to be split to the given depth. -/
  | crowded (depth : Nat)
  /-- The bucket is full and no split separates its keys from the new one. -/
  | inseparable
deriving DecidableEq, Repr

/-- Decide what inserting an entry of the given hash takes. -/
def place (hash : HashFunction) (newHash : HashValue) (entry : Entry) (b : Bucket) : Placement :=
  if (b.position? entry.key).isSome then .present
  else match b.append entry with
    | .ok bucket => .appended bucket
    | .error _ =>
      match b.separatingDepth? hash newHash with
      | some depth => .crowded depth
      | none => .inseparable

end ExtendibleHashing.Bucket
