import ExtendibleHashing.Proofs.Hash.Murmur
import Mathlib.Data.Fintype.EquivFin

/-!
# Single differences under Murmur hashing

No step of the hash loses anything of the state it is given, whatever block it mixes in. So a key passes
differences of the state on: seeds are told apart by the hash of any key, and so are two keys that differ in
one block or in the tail only, since what is mixed in after the difference is the same for both.
-/

namespace ExtendibleHashing

/-- There are finitely many words. -/
theorem finite_word : Finite UInt32 :=
  .of_injective (fun word : UInt32 => (⟨word.toNat, word.toNat_lt⟩ : Fin (2 ^ 32))) fun _ _ h =>
    UInt32.toNat_inj.mp (Fin.mk.inj h)

namespace Murmur

/-- Two keys have the same bytes outside one aligned group of four. The last group may be incomplete. -/
def SameOutside (group : Nat) (a b : Bytes) : Prop := ∀ i, i / 4 ≠ group → a[i]? = b[i]?

/-- Only the positions that both keys have need to be compared. -/
theorem sameOutside_of_lt {group : Nat} {a b : Bytes} (hlength : a.length = b.length)
    (h : ∀ i < a.length, i / 4 ≠ group → a[i]? = b[i]?) : SameOutside group a b := by
  intro i hi
  rcases Nat.lt_or_ge i a.length with hlt | hge
  · exact h i hlt hi
  · rw [List.getElem?_eq_none hge, List.getElem?_eq_none (hlength ▸ hge)]

variable {front front' rest rest' : Bytes} {group : Nat} (hfront : front.length = 4) (hfront' : front'.length = 4)
include hfront hfront'

/-- The groups of a key are counted from its first block on. -/
theorem SameOutside.getElem?_rest (h : SameOutside group (front ++ rest) (front' ++ rest')) {i : Nat}
    (hi : i / 4 + 1 ≠ group) : rest[i]? = rest'[i]? := by
  have hbyte := h (4 + i) (by omega)
  rwa [List.getElem?_append_right (by omega), List.getElem?_append_right (by omega), hfront, hfront',
    Nat.add_sub_cancel_left] at hbyte

/-- Keys with the same bytes outside a later group begin alike. -/
theorem SameOutside.front_eq (h : SameOutside (group + 1) (front ++ rest) (front' ++ rest')) :
    front = front' := by
  refine List.ext_getElem (hfront.trans hfront'.symm) fun i hi hi' => ?_
  have hbyte := h i (by omega)
  rw [List.getElem?_append_left hi, List.getElem?_append_left hi', List.getElem?_eq_getElem hi,
    List.getElem?_eq_getElem hi'] at hbyte
  exact Option.some.inj hbyte

omit hfront hfront'

/-- A key is a tail, or it is a block followed by a key. -/
theorem block_induction {motive : Bytes → Prop} (tail : ∀ key, key.length < 4 → motive key)
    (block : ∀ front rest, front.length = 4 → motive rest → motive (front ++ rest)) (key : Bytes) : motive key := by
  induction hlength : key.length using Nat.strong_induction_on generalizing key with
  | _ n ih =>
    subst hlength
    rcases Nat.lt_or_ge key.length 4 with hshort | hlong
    · exact tail key hshort
    · have hless : (key.drop 4).length < key.length := by
        rw [List.length_drop]
        omega
      rw [← List.take_append_drop 4 key]
      exact block _ _ (List.length_take_of_le hlong) (ih _ hless _ rfl)

/-- Blocks do not hide which state they were mixed into. -/
theorem absorb_left_injective (block : UInt32) : Function.Injective fun state => absorb state block := by
  intro x y hxy
  exact (UInt32.xor_left_inj _).mp (xor_eq_of_absorb_eq hxy)

/-- Keys do not hide which state they were mixed into. -/
theorem absorbKey_left_injective (key : Bytes) : Function.Injective fun state => absorbKey state key := by
  induction key using block_induction with
  | tail key hshort =>
    intro x y hxy
    simp only [absorbKey_of_length_lt _ hshort] at hxy
    exact (UInt32.xor_left_inj _).mp hxy
  | block front rest hfront ih =>
    intro x y hxy
    simp only [absorbKey_append _ hfront] at hxy
    exact absorb_left_injective _ (ih hxy)

/-- States do not hide which key was mixed in, if all of its bytes but one group are given. -/
theorem eq_of_absorbKey_eq {state : UInt32} {a b : Bytes} {group : Nat} (hlength : a.length = b.length)
    (hsame : SameOutside group a b) (h : absorbKey state a = absorbKey state b) : a = b := by
  induction a using block_induction generalizing state b group with
  | tail a hshort =>
    rw [absorbKey_of_length_lt _ hshort, absorbKey_of_length_lt _ (hlength ▸ hshort), UInt32.xor_right_inj] at h
    exact word_injective (Nat.le_of_lt hshort) hlength (scramble_injective h)
  | block front rest hfront ih =>
    rw [List.length_append, hfront] at hlength
    obtain ⟨front', rest', hfront', rfl⟩ : ∃ front' rest', front'.length = 4 ∧ b = front' ++ rest' :=
      ⟨b.take 4, b.drop 4, List.length_take_of_le (by omega), (List.take_append_drop 4 b).symm⟩
    rw [absorbKey_append _ hfront, absorbKey_append _ hfront'] at h
    cases group with
    | zero =>
      -- the keys go on alike, so the states differ after the first block if the blocks do
      obtain rfl : rest = rest' := List.ext_getElem? fun i => hsame.getElem?_rest hfront hfront' (Nat.succ_ne_zero _)
      have hword := absorb_injective state (absorbKey_left_injective rest h)
      rw [word_injective (Nat.le_of_eq hfront) (hfront.trans hfront'.symm) hword]
    | succ group =>
      obtain rfl := hsame.front_eq hfront hfront'
      have hlater : SameOutside group rest rest' := fun i hi =>
        hsame.getElem?_rest hfront hfront' fun heq => hi (Nat.succ.inj heq)
      rw [List.length_append, hfront, Nat.add_left_cancel_iff] at hlength
      rw [ih hlength hlater h]

/-- Every key takes the seeds to the hash values one to one. Under any seed two keys of the same length that
differ in one aligned group of four bytes only, which may be what is left over at the end, have different
hashes. -/
theorem hash_tells_apart :
    (∀ key, Function.Bijective fun seed => hash seed key) ∧
      ∀ (seed : UInt32) (a b : Bytes) (group : Nat), a.length = b.length → SameOutside group a b → a ≠ b →
        hash seed a ≠ hash seed b := by
  have := finite_word
  refine ⟨fun key => Finite.injective_iff_bijective.mp fun x y hxy => ?_, fun seed a b group hlength hsame hne h => ?_⟩
  · have hmixed := avalanche_injective hxy
    exact absorbKey_left_injective key ((UInt32.xor_left_inj _).mp hmixed)
  · have hmixed := avalanche_injective h
    rw [hlength, UInt32.xor_left_inj] at hmixed
    exact hne (eq_of_absorbKey_eq hlength hsame hmixed)

/-- The keys `abcdefghij`, `abcdxfghij` and `abcdefghik` are told apart: the second differs from the first in a
block, and the third in the tail. -/
theorem hash_tells_apart_of_ten_bytes :
    hash 7 [97, 98, 99, 100, 101, 102, 103, 104, 105, 106] ≠ hash 7 [97, 98, 99, 100, 120, 102, 103, 104, 105, 106] ∧
      hash 7 [97, 98, 99, 100, 101, 102, 103, 104, 105, 106] ≠ hash 7 [97, 98, 99, 100, 101, 102, 103, 104, 105, 107] :=
  ⟨hash_tells_apart.2 7 _ _ 1 rfl (sameOutside_of_lt rfl (by decide)) (by decide),
    hash_tells_apart.2 7 _ _ 2 rfl (sameOutside_of_lt rfl (by decide)) (by decide)⟩

end Murmur

end ExtendibleHashing
