import ExtendibleHashing.Proofs.Bucket.Partition

/-!
# Splitting by position

The buckets that come of a split can be kept in one growing list, with the position of the one that has
all the entries and is split next. The position is handed over to the newest bucket when the new hash
belongs there, and stays otherwise, so it may point at any bucket created before. Carried out this way a
split can also fail where a position is out of range or where an entry is appended to a full bucket.
Neither happens: splitting by position comes to the same as splitting the bucket of the new hash itself.
-/

namespace ExtendibleHashing.Bucket

/-- A bucket can be split when it has a hash bit left to split on and is not overfull. -/
theorem split_eq_ok_iff {hash : HashFunction} {b : Bucket} {sides : Bucket × Bucket} :
    b.split hash = .ok sides ↔
      b.localDepth < hashBits ∧ b.entries.length ≤ bucketCapacity ∧ (b.lower hash, b.upper hash) = sides := by
  rw [split]
  split
  next hdepth => simp [Nat.not_lt.mpr hdepth]
  next hdepth =>
    split
    next hlength => simp [Nat.not_le.mpr hlength]
    next hlength => simp [Nat.lt_of_not_le hdepth, Nat.le_of_not_lt hlength]

/-- A bucket being split, the buckets created so far, and the position among these of the one that has
all the entries; without a position that is the bucket itself. -/
structure Chain where
  kept : Bucket
  created : List Bucket
  holder? : Option Nat
deriving DecidableEq, Repr

namespace Chain

/-- The bucket that has all the entries, if the position is in range. -/
def holder (chain : Chain) : Option Bucket :=
  match chain.holder? with
  | none => some chain.kept
  | some i => chain.created[i]?

/-- Put another bucket where the one with all the entries was. -/
def replace (b : Bucket) (chain : Chain) : Chain :=
  match chain.holder? with
  | none => { chain with kept := b }
  | some i => { chain with created := chain.created.set i b }

/-- Keep both sides of a split, and move on to the new bucket if the bit says so. -/
def advance (bit : Bool) (lower upper : Bucket) (chain : Chain) : Chain where
  kept := (chain.replace lower).kept
  created := (chain.replace lower).created ++ [upper]
  holder? := if bit then some chain.created.length else chain.holder?

/-- The bucket itself and the new ones. -/
def outcome (chain : Chain) : Bucket × List Bucket := (chain.kept, chain.created)

/-- Split at most `rounds` times, each time the bucket at the present position, until there is room for
the new entry. There is no outcome where a position is out of range, a bucket cannot be split, or the
entry does not go where there should be room. -/
def run (hash : HashFunction) (newHash : HashValue) (entry : Entry) :
    Nat → Chain → Option (Bucket × List Bucket)
  | 0, _ => none
  | rounds + 1, chain => do
    let splitting ← chain.holder
    let (lower, upper) ← (splitting.split hash).toOption
    let chain := chain.advance (newHash.bit splitting.localDepth) lower upper
    let target ← chain.holder
    if target.isFull then run hash newHash entry rounds chain
    else
      let target ← (target.append entry).toOption
      return (chain.replace target).outcome

/-- The chain as it stands when its holder came apart and the new buckets were added at the end. -/
def plug (rest : Bucket × List Bucket) (chain : Chain) : Bucket × List Bucket :=
  ((chain.replace rest.1).kept, (chain.replace rest.1).created ++ rest.2)

/-- Replacing the holder keeps the number of new buckets. -/
theorem length_replace (b : Bucket) (chain : Chain) :
    (chain.replace b).created.length = chain.created.length := by
  unfold replace
  cases chain.holder? with
  | none => rfl
  | some i => exact List.length_set

/-- After a round the holder is the side that the bit says. -/
theorem holder_advance {chain : Chain} {b : Bucket} (h : chain.holder = some b) (bit : Bool)
    (lower upper : Bucket) :
    (chain.advance bit lower upper).holder = some (if bit then upper else lower) := by
  unfold holder advance
  cases bit with
  | true =>
    simp only [if_true]
    rw [List.getElem?_append_right (length_replace lower chain).le, length_replace, Nat.sub_self]
    rfl
  | false =>
    unfold holder at h
    unfold replace
    cases hpos : chain.holder? with
    | none => simp
    | some i =>
      rw [hpos] at h
      obtain ⟨hlt, -⟩ := List.getElem?_eq_some_iff.mp h
      change (chain.created.set i lower ++ [upper])[i]? = some lower
      rw [List.getElem?_append_left (by simpa using hlt), List.getElem?_set_self hlt]

/-- What comes of the holder after a round is what comes of the holder before it. -/
theorem plug_advance {chain : Chain} {b : Bucket} (h : chain.holder = some b) (bit : Bool)
    (lower upper : Bucket) (rest : Bucket × List Bucket) :
    (chain.advance bit lower upper).plug rest =
      chain.plug (arrange bit (if bit then lower else upper) rest) := by
  unfold plug advance
  cases bit with
  | true =>
    have hset : ((chain.replace lower).created ++ [upper]).set chain.created.length rest.1 =
        (chain.replace lower).created ++ [rest.1] := by
      rw [List.set_append_right _ _ (length_replace lower chain).le, length_replace, Nat.sub_self]
      rfl
    simp only [replace, if_true, arrange]
    rw [← replace, hset, List.append_assoc]
    rfl
  | false =>
    unfold holder at h
    unfold replace
    cases hpos : chain.holder? with
    | none => simp [arrange]
    | some i =>
      rw [hpos] at h
      obtain ⟨hlt, -⟩ := List.getElem?_eq_some_iff.mp h
      simp [arrange, hlt]

/-- Splitting by position comes to the same as splitting the holder, with the new buckets added to the
list and the holder back in its place. -/
theorem run_eq {hash : HashFunction} {newHash : HashValue} {entry : Entry} {rounds : Nat} {chain : Chain}
    {b : Bucket} (h : chain.holder = some b) :
    chain.run hash newHash entry rounds =
      (splitRounds hash newHash entry rounds b).toOption.map fun rest => chain.plug rest := by
  induction rounds generalizing chain b with
  | zero => rfl
  | succ rounds ih =>
    cases hsplit : b.split hash with
    | error fault => simp [run, splitRounds, h, hsplit, Except.toOption, bind, Except.bind]
    | ok sides =>
      obtain ⟨hdepth, hlength, rfl⟩ := split_eq_ok_iff.mp hsplit
      have hholder : (chain.advance (newHash.bit b.localDepth) (b.lower hash) (b.upper hash)).holder =
          some (b.near hash newHash) := holder_advance h _ _ _
      have hplug (rest : Bucket × List Bucket) :
          (chain.advance (newHash.bit b.localDepth) (b.lower hash) (b.upper hash)).plug rest =
            chain.plug (arrange (newHash.bit b.localDepth) (b.far hash newHash) rest) := by
        rw [plug_advance h, far, side]
        cases newHash.bit b.localDepth <;> rfl
      rw [splitRounds_succ rounds hdepth hlength]
      simp only [run, h, hsplit, hholder, Except.toOption, Option.bind_eq_bind, Option.bind_some]
      split
      next hfull =>
        rw [ih hholder]
        cases hrest : splitRounds hash newHash entry rounds (b.near hash newHash) with
        | error fault => rfl
        | ok rest => exact congrArg some (hplug rest)
      next hroom =>
        have happend : (b.near hash newHash).append entry = .ok ((b.near hash newHash).push entry) := if_neg hroom
        rw [happend]
        refine congrArg some (Eq.trans ?_ (hplug _))
        simp [plug, outcome]

end Chain

/-- Split a full bucket until a new entry fits, keeping track of the bucket to be split by position. -/
def splitByPosition (hash : HashFunction) (newHash : HashValue) (entry : Entry) (b : Bucket) :
    Option (Bucket × List Bucket) :=
  Chain.run hash newHash entry (hashBits - b.localDepth) ⟨b, [], none⟩

/-- Splitting by position comes to the same as splitting for the new entry. -/
theorem splitByPosition_eq (hash : HashFunction) (newHash : HashValue) (entry : Entry) (b : Bucket) :
    b.splitByPosition hash newHash entry = (b.splitFor hash newHash entry).toOption := by
  rw [splitByPosition, Chain.run_eq rfl, splitFor]
  exact Option.map_id'

end ExtendibleHashing.Bucket
