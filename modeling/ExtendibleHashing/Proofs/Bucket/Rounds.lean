import ExtendibleHashing.Proofs.Bucket.Handover
import ExtendibleHashing.Proofs.Bucket.Placement
import ExtendibleHashing.Proofs.Directory.Growth
import Mathlib.Order.Bounds.Basic

/-!
# How many rounds a split takes

A split goes on round by round until the new entry fits, and what ends it is the entries, not a count of
rounds. `Loops` is this loop without any bound. Each round uses up one bit of the hash and leaves one more
bucket behind, created one bit deeper than the one before, so there are no more rounds than the bucket has
bits left. For a full bucket the hashes alone foretell the end: the loop takes as many rounds as lead to
the separating depth, and it runs out of bits exactly when the hashes do not separate.
-/

namespace ExtendibleHashing.Bucket

variable {hash : HashFunction} {newHash : HashValue} {entry : Entry} {b : Bucket}

namespace Chain

/-- The chain after one round, if the position is in range and the bucket there can be split. -/
def round (hash : HashFunction) (newHash : HashValue) (chain : Chain) : Option Chain := do
  let splitting ← chain.holder
  let sides ← (splitting.split hash).toOption
  return chain.advance (newHash.bit splitting.localDepth) sides.1 sides.2

/-- The loop of rounds from a chain on: the chains after each round, and what it comes to in the end,
which is nothing if the bits of the hash run out. -/
inductive Loops (hash : HashFunction) (newHash : HashValue) (entry : Entry) :
    Chain → List Chain → Option (Bucket × List Bucket) → Prop
  /-- The bucket to be split has used up every bit. -/
  | exhausted {chain : Chain} {b : Bucket} (hholder : chain.holder = some b)
      (hdepth : hashBits ≤ b.localDepth) : Loops hash newHash entry chain [] none
  /-- After a round there is room for the new entry. -/
  | room {chain next : Chain} {target filled : Bucket} (hround : chain.round hash newHash = some next)
      (htarget : next.holder = some target) (happend : target.append entry = .ok filled) :
      Loops hash newHash entry chain [next] (some (next.replace filled).outcome)
  /-- After a round the side of the new hash is as full as before. -/
  | full {chain next : Chain} {target : Bucket} {history : List Chain}
      {result : Option (Bucket × List Bucket)} (hround : chain.round hash newHash = some next)
      (htarget : next.holder = some target) (hfull : target.isFull = true)
      (hrest : Loops hash newHash entry next history result) :
      Loops hash newHash entry chain (next :: history) result

variable {chain next : Chain}

/-- A round splits the bucket at the present position and keeps both sides. -/
theorem round_eq_some_iff : chain.round hash newHash = some next ↔
    ∃ b, chain.holder = some b ∧ b.localDepth < hashBits ∧ b.entries.length ≤ bucketCapacity ∧
      chain.advance (newHash.bit b.localDepth) (b.lower hash) (b.upper hash) = next := by
  rw [round, Option.bind_eq_bind, Option.bind_eq_some_iff]
  refine exists_congr fun b => and_congr_right fun _ => ?_
  cases hsplit : b.split hash with
  | error fault =>
    have hnot : ¬ (b.localDepth < hashBits ∧ b.entries.length ≤ bucketCapacity) := by
      rintro ⟨hdepth, hlength⟩
      rw [split_eq_ok_iff.mpr ⟨hdepth, hlength, rfl⟩] at hsplit
      cases hsplit
    simp only [Except.toOption, Option.bind_eq_bind, Option.bind_none, reduceCtorEq, false_iff]
    exact fun h => hnot ⟨h.1, h.2.1⟩
  | ok sides =>
    obtain ⟨hdepth, hlength, rfl⟩ := split_eq_ok_iff.mp hsplit
    simp [Except.toOption, hdepth, hlength]

/-- Putting back a bucket of the same identity changes no identity. -/
theorem origins_replace {target : Bucket} (hholder : chain.holder = some b)
    (horigin : target.origin = b.origin) :
    (chain.replace target).created.map (·.origin) = chain.created.map (·.origin) := by
  unfold holder at hholder
  unfold replace
  cases hpos : chain.holder? with
  | none => rfl
  | some i =>
    rw [hpos] at hholder
    obtain ⟨hlt, rfl⟩ := List.getElem?_eq_some_iff.mp hholder
    have hlt' : i < (chain.created.map (·.origin)).length := by rwa [List.length_map]
    have hsame : target.origin = (chain.created.map (·.origin))[i] := by rw [List.getElem_map, horigin]
    change (chain.created.set i target).map (·.origin) = _
    rw [List.map_set, hsame, List.set_getElem_self]

/-- What a round does: it uses up one bit, hands over to the side of the new hash, and adds a bucket to
those created, which keep their identities. -/
theorem of_round (hholder : chain.holder = some b) (hround : chain.round hash newHash = some next) :
    b.localDepth < hashBits ∧ next.holder = some (b.near hash newHash) ∧
      next.created.length = chain.created.length + 1 ∧
      next.created[chain.created.length]? = some (b.upper hash) ∧
      chain.created.map (·.origin) <+: next.created.map (·.origin) := by
  obtain ⟨b', hholder', hdepth, -, rfl⟩ := round_eq_some_iff.mp hround
  obtain rfl : b = b' := Option.some.inj (hholder.symm.trans hholder')
  refine ⟨hdepth, holder_advance hholder _ _ _, ?_, ?_, ?_⟩
  · simp [advance, length_replace]
  · rw [advance, List.getElem?_append_right (length_replace _ chain).le, length_replace, Nat.sub_self]
    rfl
  · rw [advance, List.map_append, origins_replace hholder (rfl : (b.lower hash).origin = b.origin)]
    exact List.prefix_append _ _

/-- A bucket takes in an entry exactly when it is not full. -/
theorem append_eq_ok_iff {target filled : Bucket} :
    target.append entry = .ok filled ↔ target.isFull = false ∧ filled = target.push entry := by
  rw [append]
  cases target.isFull with
  | true => simp
  | false => simp [push, eq_comm]

/-- Splitting by position is the loop: a budget of one round for each bit left is never cut short. -/
theorem exists_loops (hash : HashFunction) (newHash : HashValue) (entry : Entry)
    (hholder : chain.holder = some b) (hlength : b.entries.length ≤ bucketCapacity) :
    ∃ history, Loops hash newHash entry chain history
      (chain.run hash newHash entry (hashBits - b.localDepth)) := by
  obtain ⟨rounds, hrounds⟩ : ∃ rounds, hashBits - b.localDepth = rounds := ⟨_, rfl⟩
  rw [hrounds]
  induction rounds generalizing chain b with
  | zero => exact ⟨[], .exhausted hholder (Nat.le_of_sub_eq_zero hrounds)⟩
  | succ rounds ih =>
    have hdepth : b.localDepth < hashBits := by omega
    have hround : chain.round hash newHash =
        some (chain.advance (newHash.bit b.localDepth) (b.lower hash) (b.upper hash)) :=
      round_eq_some_iff.mpr ⟨b, hholder, hdepth, hlength, rfl⟩
    obtain ⟨-, htarget, -⟩ := of_round hholder hround
    have hsplit : b.split hash = .ok (b.lower hash, b.upper hash) := split_eq_ok_iff.mpr ⟨hdepth, hlength, rfl⟩
    simp only [run, hholder, hsplit, htarget, Except.toOption, Option.bind_eq_bind, Option.bind_some]
    split
    next hfull =>
      have hnear : (b.near hash newHash).entries.length ≤ bucketCapacity := ((isFull_iff _).mp hfull).le
      obtain ⟨history, hrest⟩ := ih htarget hnear (by rw [near_localDepth]; omega)
      exact ⟨_, .full hround htarget hfull hrest⟩
    next hroom =>
      have happend : (b.near hash newHash).append entry = .ok ((b.near hash newHash).push entry) :=
        append_eq_ok_iff.mpr ⟨by simpa using hroom, rfl⟩
      rw [happend]
      exact ⟨_, .room hround htarget happend⟩

/-- A round never leaves its side both full and with room for the entry. -/
theorem isFull_eq_false_of_append {next' : Chain} {target target' filled : Bucket}
    (hround : chain.round hash newHash = some next) (htarget : next.holder = some target)
    (happend : target.append entry = .ok filled) (hround' : chain.round hash newHash = some next')
    (htarget' : next'.holder = some target') : target'.isFull = false := by
  obtain rfl := Option.some.inj (hround.symm.trans hround')
  obtain rfl := Option.some.inj (htarget.symm.trans htarget')
  exact (append_eq_ok_iff.mp happend).1

namespace Loops

variable {history : List Chain} {result : Option (Bucket × List Bucket)}

/-- The loop can go one way only. -/
theorem unique {history' : List Chain} {result' : Option (Bucket × List Bucket)}
    (h : Loops hash newHash entry chain history result)
    (h' : Loops hash newHash entry chain history' result') : history = history' ∧ result = result' := by
  induction h generalizing history' result' with
  | exhausted hholder hdepth =>
    cases h' with
    | exhausted => exact ⟨rfl, rfl⟩
    | room hround => exact absurd (of_round hholder hround).1 (Nat.not_lt.mpr hdepth)
    | full hround => exact absurd (of_round hholder hround).1 (Nat.not_lt.mpr hdepth)
  | room hround htarget happend =>
    cases h' with
    | exhausted hholder hdepth => exact absurd (of_round hholder hround).1 (Nat.not_lt.mpr hdepth)
    | room hround' htarget' happend' =>
      obtain rfl := Option.some.inj (hround.symm.trans hround')
      obtain rfl := Option.some.inj (htarget.symm.trans htarget')
      obtain rfl := Except.ok.inj (happend.symm.trans happend')
      exact ⟨rfl, rfl⟩
    | full hround' htarget' hfull =>
      rw [isFull_eq_false_of_append hround htarget happend hround' htarget'] at hfull
      cases hfull
  | full hround htarget hfull hrest ih =>
    cases h' with
    | exhausted hholder hdepth => exact absurd (of_round hholder hround).1 (Nat.not_lt.mpr hdepth)
    | room hround' htarget' happend =>
      rw [isFull_eq_false_of_append hround' htarget' happend hround htarget] at hfull
      cases hfull
    | full hround' _ _ hrest' =>
      obtain rfl := Option.some.inj (hround.symm.trans hround')
      obtain ⟨rfl, rfl⟩ := ih hrest'
      exact ⟨rfl, rfl⟩

/-- No bit of the hash is used twice. -/
theorem length_le (h : Loops hash newHash entry chain history result) (hholder : chain.holder = some b) :
    history.length ≤ hashBits - b.localDepth := by
  induction h generalizing b with
  | exhausted => exact Nat.zero_le _
  | room hround _ _ =>
    have hdepth := (of_round hholder hround).1
    rw [List.length_singleton]
    omega
  | full hround htarget _ _ ih =>
    obtain ⟨hdepth, hnear, -⟩ := of_round hholder hround
    have hrest := ih hnear
    rw [near_localDepth] at hrest
    rw [List.length_cons]
    omega

/-- Each round creates one bucket, one bit deeper than the last. -/
theorem created_at (h : Loops hash newHash entry chain history result) (hholder : chain.holder = some b)
    {j : Nat} (hj : history[j]? = some next) :
    next.created.length = chain.created.length + j + 1 ∧
      ∃ image, next.created[chain.created.length + j]? = some image ∧ image.localDepth = b.localDepth + j + 1 := by
  induction h generalizing b j with
  | exhausted => simp at hj
  | room hround _ _ =>
    obtain ⟨-, -, hlength, himage, -⟩ := of_round hholder hround
    cases j with
    | zero =>
      obtain rfl := Option.some.inj hj
      exact ⟨hlength, _, himage, rfl⟩
    | succ j => simp at hj
  | full hround _ _ _ ih =>
    obtain ⟨-, hnear, hlength, himage, -⟩ := of_round hholder hround
    cases j with
    | zero =>
      obtain rfl := Option.some.inj hj
      exact ⟨hlength, _, himage, rfl⟩
    | succ j =>
      obtain ⟨hlater, image, hget, hdepth⟩ := ih hnear hj
      rw [hlength, near_localDepth] at *
      exact ⟨by omega, image, by rwa [Nat.add_right_comm] at hget, by omega⟩

/-- The outcome has the buckets that the rounds created, under their identities. -/
theorem of_outcome {outcome : Bucket × List Bucket} (h : Loops hash newHash entry chain history result)
    (hholder : chain.holder = some b) (hresult : result = some outcome) :
    outcome.2.length = chain.created.length + history.length ∧
      ∀ c ∈ chain :: history, c.created.map (·.origin) <+: outcome.2.map (·.origin) := by
  induction h generalizing b with
  | exhausted => cases hresult
  | @room chain next target filled hround htarget happend =>
    obtain ⟨-, -, hlength, -, hkept⟩ := of_round hholder hround
    obtain ⟨-, rfl⟩ := append_eq_ok_iff.mp happend
    obtain rfl := Option.some.inj hresult
    have horigins : (next.replace (target.push entry)).created.map (·.origin) = next.created.map (·.origin) :=
      origins_replace htarget rfl
    refine ⟨?_, ?_⟩
    · rw [outcome, length_replace, hlength, List.length_singleton]
    · simp only [outcome, horigins, List.forall_mem_cons]
      exact ⟨hkept, List.prefix_rfl, by simp⟩
  | full hround _ _ _ ih =>
    obtain ⟨-, hnear, hlength, -, hkept⟩ := of_round hholder hround
    obtain ⟨hrest, hall⟩ := ih hnear hresult
    refine ⟨by rw [hrest, hlength, List.length_cons]; omega, List.forall_mem_cons.mpr ⟨?_, hall⟩⟩
    exact hkept.trans (hall _ List.mem_cons_self)

end Loops

end Chain

namespace SplitsInto

variable {outcome : Bucket × List Bucket}

/-- Every new bucket stands for one more bit in the deepest parts. -/
theorem requiredDepth_eq (h : SplitsInto hash newHash entry b outcome) :
    requiredDepth outcome = b.localDepth + outcome.2.length := by
  have hdeepest : (∀ c ∈ parts outcome, c.localDepth ≤ b.localDepth + outcome.2.length) ∧
      ∃ c ∈ parts outcome, c.localDepth = b.localDepth + outcome.2.length := by
    have harrange (bit : Bool) (far : Bucket) (near : Bucket × List Bucket) :
        (arrange bit far near).2.length = near.2.length + 1 := by
      cases bit <;> rfl
    induction h with
    | @room b hdepth hroom =>
      rw [forall_mem_parts_arrange, exists_mem_parts_arrange, harrange]
      simp [push]
    | @full b outcome hdepth hfull hrest ih =>
      rw [forall_mem_parts_arrange, exists_mem_parts_arrange, harrange]
      rw [near_localDepth] at ih
      obtain ⟨hall, c, hc, hdeepest⟩ := ih
      refine ⟨⟨?_, fun c hc => ?_⟩, .inr ⟨c, hc, ?_⟩⟩
      · rw [far_localDepth]
        omega
      · have hle := hall c hc
        omega
      · omega
  obtain ⟨hall, c, hc, hrequired⟩ := requiredDepth_spec outcome
  obtain ⟨hall', c', hc', hdeepest⟩ := hdeepest
  exact Nat.le_antisymm (hrequired ▸ hall' c hc) (hdeepest ▸ hall c' hc')

/-- A full bucket only comes apart where some entry and the new hash differ on a bit that is left. -/
theorem exists_not_agreesAt (h : SplitsInto hash newHash entry b outcome) (hfull : b.isFull = true) :
    ∃ i, b.localDepth ≤ i ∧ i < hashBits ∧ ¬ b.AgreesAt hash newHash i := by
  induction h with
  | @room b hdepth hroom =>
    refine ⟨b.localDepth, Nat.le_refl _, hdepth, fun hagrees => ?_⟩
    rw [isFull, near_entries_of_agreesAt hagrees, ← isFull, hfull] at hroom
    cases hroom
  | @full b outcome hdepth hnear hrest ih =>
    obtain ⟨i, hle, hlt, hdisagrees⟩ := ih hnear
    rw [near_localDepth] at hle
    rw [AgreesAt, near_entries_of_isFull hfull hnear] at hdisagrees
    exact ⟨i, by omega, hlt, hdisagrees⟩

end SplitsInto

/-- Hashes agree on the bits they do not have. -/
theorem agreesAt_of_le {i : Nat} (hi : hashBits ≤ i) : b.AgreesAt hash newHash i := by
  have hclear (value : HashValue) : value.bit i = false :=
    Nat.testBit_lt_two_pow (Nat.lt_of_lt_of_le value.toNat_lt (Nat.pow_le_pow_right (by decide) hi))
  intro e _
  rw [hclear, hclear]

/-- The separating depth is the least one above the depth of the bucket whose last bit is not the same in
all hashes. -/
theorem separatingDepth?_eq_some_iff_isLeast {depth : Nat} : b.separatingDepth? hash newHash = some depth ↔
    IsLeast {d | b.localDepth < d ∧ ¬ b.AgreesAt hash newHash (d - 1)} depth := by
  rw [separatingDepth?_eq_some_iff]
  constructor
  · rintro ⟨i, rfl, hle, -, hdisagrees, hagrees⟩
    refine ⟨⟨by omega, hdisagrees⟩, fun d ⟨hd, hdiffers⟩ => ?_⟩
    by_contra hlt
    exact hdiffers (hagrees (d - 1) (by omega) (by omega))
  · rintro ⟨⟨hlt, hdisagrees⟩, hleast⟩
    have hbits : depth - 1 < hashBits := Nat.lt_of_not_le (mt agreesAt_of_le hdisagrees)
    refine ⟨depth - 1, by omega, by omega, hbits, hdisagrees, fun j hj hjlt => ?_⟩
    by_contra hdiffers
    have hle : depth ≤ j + 1 := hleast ⟨by omega, hdiffers⟩
    omega

/-- A full bucket comes apart exactly when its hashes separate. -/
theorem separatingDepth?_eq_none_iff_error (hfull : b.isFull = true) :
    b.separatingDepth? hash newHash = none ↔ ∃ fault, b.splitFor hash newHash entry = .error fault := by
  constructor
  · intro hnone
    cases hsplit : b.splitFor hash newHash entry with
    | error fault => exact ⟨fault, rfl⟩
    | ok outcome =>
      obtain ⟨i, hle, hlt, hdisagrees⟩ := (splitsInto_of_splitRounds hsplit).exists_not_agreesAt hfull
      exact absurd (separatingDepth?_eq_none_iff.mp hnone i hle hlt) hdisagrees
  · rintro ⟨fault, hfault⟩
    cases hdepth : b.separatingDepth? hash newHash with
    | none => rfl
    | some depth =>
      obtain ⟨outcome, hsplit, -⟩ : ∃ outcome, b.splitFor hash newHash entry = .ok outcome ∧ _ :=
        exists_splitFor_of_separatingDepth? hfull hdepth
      cases hfault.symm.trans hsplit

/-- How a full bucket is split to a depth: one round for each bit on the way, with one new bucket each. -/
structure SplitTo (hash : HashFunction) (newHash : HashValue) (entry : Entry) (b : Bucket) (depth : Nat)
    (history : List Chain) (kept : Bucket) (created : List Bucket) : Prop where
  splitFor_eq : b.splitFor hash newHash entry = .ok (kept, created)
  length_created : created.length = depth - b.localDepth
  length_history : history.length = depth - b.localDepth
  /-- The rounds create one bucket each, every time one bit deeper, and it keeps its identity. -/
  created_at : ∀ j < created.length, ∃ chain image, history[j]? = some chain ∧
    chain.created.length = j + 1 ∧ chain.created[j]? = some image ∧ image.localDepth = b.localDepth + j + 1 ∧
    created[j]?.map (·.origin) = some image.origin
  /-- In the end some bucket is as deep as foretold, and none is deeper. -/
  deepest : IsGreatest {d | ∃ c ∈ kept :: created, c.localDepth = d} depth
  /-- So the directory is deep enough for the prediction exactly when it is for the buckets. -/
  deepen_eq_iff : ∀ dir : Directory, depth ≤ dir.depth ↔ dir.deepen (requiredDepth (kept, created)) = dir

/-- A full bucket that separates from a new hash is split round by round to the separating depth. -/
theorem Chain.Loops.splitTo {history : List Chain} {depth : Nat} (hfull : b.isFull = true)
    (h : Chain.Loops hash newHash entry ⟨b, [], none⟩ history (b.splitFor hash newHash entry).toOption)
    (hdepth : b.separatingDepth? hash newHash = some depth) :
    ∃ kept created, b.SplitTo hash newHash entry depth history kept created := by
  obtain ⟨⟨kept, created⟩, hsplit, hsplits, hrequired⟩ :
      ∃ outcome, b.splitFor hash newHash entry = .ok outcome ∧ _ :=
    exists_splitFor_of_separatingDepth? hfull hdepth
  rw [hsplit] at h
  obtain ⟨hlength, horigins⟩ := h.of_outcome rfl rfl
  rw [List.length_nil, Nat.zero_add] at hlength
  have hbits : created.length = depth - b.localDepth := by
    rw [← hrequired, hsplits.requiredDepth_eq, Nat.add_sub_cancel_left]
  obtain ⟨hall, c, hc, hdeepest⟩ := requiredDepth_spec (kept, created)
  refine ⟨kept, created, hsplit, hbits, hlength.symm.trans hbits, fun j hj => ?_, ⟨?_, ?_⟩, fun dir => ?_⟩
  · have hround : j < history.length := hlength ▸ hj
    obtain ⟨hcount, image, himage, hlocal⟩ := h.created_at rfl (List.getElem?_eq_getElem hround)
    rw [List.length_nil, Nat.zero_add] at hcount himage
    refine ⟨history[j], image, List.getElem?_eq_getElem hround, hcount, himage, hlocal, ?_⟩
    have hkept := horigins _ (List.mem_cons_of_mem _ (List.getElem_mem hround))
    obtain ⟨hlt, rfl⟩ := List.getElem?_eq_some_iff.mp himage
    have hsame := List.prefix_iff_getElem?.mp hkept j (by rwa [List.length_map])
    rwa [List.getElem?_map, List.getElem_map] at hsame
  · exact ⟨c, hc, hdeepest.trans hrequired⟩
  · rintro _ ⟨c, hc, rfl⟩
    exact hrequired ▸ hall c hc
  · rw [hrequired]
    constructor
    · exact Directory.deepen_of_le
    · intro hsame
      have hmax := Directory.depth_deepen depth dir
      rw [hsame] at hmax
      omega

/-- What the hashes of a full bucket foretell is what splitting it comes to. They separate at the least
depth above that of the bucket whose last bit is not the same in all of them. The loop of rounds always
ends, before the bits of a hash run out, and it fails exactly when they do not separate; otherwise it takes
just the rounds to the separating depth, which is the depth that the directory has to have. -/
theorem splitFor_reaches_separatingDepth (hash : HashFunction) (newHash : HashValue) (entry : Entry)
    (hfull : b.isFull = true) :
    (∀ depth, b.separatingDepth? hash newHash = some depth ↔
        IsLeast {d | b.localDepth < d ∧ ¬ b.AgreesAt hash newHash (d - 1)} depth) ∧
      (b.separatingDepth? hash newHash = none ↔ ∃ fault, b.splitFor hash newHash entry = .error fault) ∧
      ∃ history, history.length ≤ hashBits - b.localDepth ∧
        (∀ history' result, Chain.Loops hash newHash entry ⟨b, [], none⟩ history' result ↔
          history' = history ∧ result = (b.splitFor hash newHash entry).toOption) ∧
        ∀ depth, b.separatingDepth? hash newHash = some depth →
          ∃ kept created, b.SplitTo hash newHash entry depth history kept created := by
  have hlength : b.entries.length ≤ bucketCapacity := ((isFull_iff b).mp hfull).le
  have hholder : (⟨b, [], none⟩ : Chain).holder = some b := rfl
  obtain ⟨history, hloops⟩ := Chain.exists_loops hash newHash entry hholder hlength
  rw [← splitByPosition, splitByPosition_eq] at hloops
  refine ⟨fun depth => separatingDepth?_eq_some_iff_isLeast, separatingDepth?_eq_none_iff_error hfull, history,
    hloops.length_le hholder, fun history' result => ⟨fun h => h.unique hloops, ?_⟩,
    fun depth hdepth => hloops.splitTo hfull hdepth⟩
  rintro ⟨rfl, rfl⟩
  exact hloops

/-- At depth 30 two rounds tell hashes apart that differ in the top bit only, and at depth 32 nothing does.
Keys are hashed to their first byte, taken as the highest. -/
theorem splitFor_reaches_separatingDepth_of_top_bit :
    (∃ history, SplitTo (fun key => (key.headD 0).toUInt32 <<< 24) 0 ⟨[0], []⟩
        ⟨[⟨[128], []⟩, ⟨[0, 1], []⟩, ⟨[128, 1], []⟩, ⟨[0, 2], []⟩], 30, 0⟩ 32 history
        ⟨[⟨[0, 1], []⟩, ⟨[0, 2], []⟩, ⟨[0], []⟩], 32, 0⟩
        [⟨[], 31, 2 ^ 30⟩, ⟨[⟨[128], []⟩, ⟨[128, 1], []⟩], 32, 2 ^ 31⟩]) ∧
      ∃ fault, splitFor (fun key => (key.headD 0).toUInt32 <<< 24) 0 ⟨[0], []⟩
        ⟨[⟨[128], []⟩, ⟨[0, 1], []⟩, ⟨[128, 1], []⟩, ⟨[0, 2], []⟩], 32, 0⟩ = .error fault := by
  have hdepth : separatingDepth? (fun key => (key.headD 0).toUInt32 <<< 24) 0
      ⟨[⟨[128], []⟩, ⟨[0, 1], []⟩, ⟨[128, 1], []⟩, ⟨[0, 2], []⟩], 30, 0⟩ = some 32 := by decide
  have hnone : separatingDepth? (fun key => (key.headD 0).toUInt32 <<< 24) 0
      ⟨[⟨[128], []⟩, ⟨[0, 1], []⟩, ⟨[128, 1], []⟩, ⟨[0, 2], []⟩], 32, 0⟩ = none := by decide
  obtain ⟨-, -, history, -, -, hsplits⟩ :=
    splitFor_reaches_separatingDepth (fun key => (key.headD 0).toUInt32 <<< 24) 0 ⟨[0], []⟩
      (b := ⟨[⟨[128], []⟩, ⟨[0, 1], []⟩, ⟨[128, 1], []⟩, ⟨[0, 2], []⟩], 30, 0⟩) rfl
  obtain ⟨kept, created, hsplit⟩ := hsplits 32 hdepth
  obtain ⟨rfl, rfl⟩ := Prod.mk.inj (Except.ok.inj hsplit.splitFor_eq)
  obtain ⟨-, hfails, -⟩ :=
    splitFor_reaches_separatingDepth (fun key => (key.headD 0).toUInt32 <<< 24) 0 ⟨[0], []⟩
      (b := ⟨[⟨[128], []⟩, ⟨[0, 1], []⟩, ⟨[128, 1], []⟩, ⟨[0, 2], []⟩], 32, 0⟩) rfl
  exact ⟨⟨history, hsplit⟩, hfails.mp hnone⟩

end ExtendibleHashing.Bucket
