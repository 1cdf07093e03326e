import ExtendibleHashing.Hash.Murmur
import ExtendibleHashing.Proofs.Hash.Word
import Mathlib.Data.Finset.Card

/-!
# What Murmur hashing keeps

Scrambling, absorbing a block into a given state and the avalanche are injective, so keys that are read
as one word, of up to four bytes, are told apart by their hash if they have the same length. With
different lengths they may collide, but the empty key does not with any key of one byte. A hash is
therefore shared by at most four such keys.
-/

namespace ExtendibleHashing.Murmur

/-- Scrambling loses nothing. -/
theorem scramble_injective : Function.Injective scramble := by
  have hfirst : Function.Injective fun word : UInt32 => word * 0xcc9e2d51 := mul_injective 0xdee13bb1 (by decide)
  have hrotate : Function.Injective fun word => rotate32 word 15 := rotate32_injective 15 (by decide) (by decide)
  have hsecond : Function.Injective fun word : UInt32 => word * 0x1b873593 := mul_injective 0x56ed309b (by decide)
  exact hsecond.comp (hrotate.comp hfirst)

/-- Absorbing loses nothing but what is lost when the scrambled block is mixed in. -/
theorem xor_eq_of_absorb_eq {state state' block block' : UInt32}
    (h : absorb state block = absorb state' block') : state ^^^ scramble block = state' ^^^ scramble block' := by
  have hrotate : Function.Injective fun word => rotate32 word 13 := rotate32_injective 13 (by decide) (by decide)
  have hfactor : Function.Injective fun word : UInt32 => word * 5 := mul_injective 0xcccccccd (by decide)
  exact hrotate (hfactor ((UInt32.add_left_inj _).mp h))

/-- States do not hide which block was absorbed. -/
theorem absorb_injective (state : UInt32) : Function.Injective (absorb state) := by
  intro x y hxy
  exact scramble_injective ((UInt32.xor_right_inj state).mp (xor_eq_of_absorb_eq hxy))

/-- The avalanche loses nothing. -/
theorem avalanche_injective : Function.Injective avalanche := by
  have hhalf : Function.Injective fun word : UInt32 => word ^^^ (word >>> 16) :=
    xorShift_injective (by decide) (by decide)
  have hshift : Function.Injective fun word : UInt32 => word ^^^ (word >>> 13) :=
    xorShift_injective (by decide) (by decide)
  have hfirst : Function.Injective fun word : UInt32 => word * 0x85ebca6b := mul_injective 0xa5cb9243 (by decide)
  have hsecond : Function.Injective fun word : UInt32 => word * 0xc2b2ae35 := mul_injective 0x7ed1b41d (by decide)
  exact hhalf.comp (hsecond.comp (hshift.comp (hfirst.comp hhalf)))

/-- A tail is mixed in as one scrambled block. -/
theorem absorbKey_of_length_lt (state : UInt32) {tail : Bytes} (h : tail.length < 4) :
    absorbKey state tail = state ^^^ scramble (UInt32.ofNat (littleEndian tail)) := by
  match tail, h with
  | [], _ => rfl
  | [_], _ => rfl
  | [_, _], _ => rfl
  | [_, _, _], _ => rfl

/-- An empty tail changes nothing. -/
theorem absorbKey_nil (state : UInt32) : absorbKey state [] = state := by
  have hzero : scramble (UInt32.ofNat (littleEndian [])) = 0 := by decide
  rw [absorbKey_of_length_lt state (by simp), hzero, UInt32.xor_zero]

/-- Four bytes are absorbed as one block. -/
theorem absorbKey_append (state : UInt32) {block : Bytes} (h : block.length = 4) (rest : Bytes) :
    absorbKey state (block ++ rest) = absorbKey (absorb state (UInt32.ofNat (littleEndian block))) rest := by
  obtain ⟨a, b, c, d, rfl⟩ := List.length_eq_four.mp h
  simp only [List.cons_append, List.nil_append]
  conv_lhs => unfold absorbKey

/-- Keys of one length up to four bytes have different hashes. -/
theorem eq_of_hash_eq {seed : UInt32} {a b : Bytes} (ha : a.length ≤ 4) (hlength : a.length = b.length)
    (h : hash seed a = hash seed b) : a = b := by
  have hmixed := avalanche_injective h
  rw [hlength, UInt32.xor_left_inj] at hmixed
  rcases Nat.lt_or_eq_of_le ha with htail | hblock
  · rw [absorbKey_of_length_lt seed htail, absorbKey_of_length_lt seed (hlength ▸ htail),
      UInt32.xor_right_inj] at hmixed
    exact word_injective ha hlength (scramble_injective hmixed)
  · rw [← List.append_nil a, ← List.append_nil b, absorbKey_append seed hblock, absorbKey_nil,
      absorbKey_append seed (hlength ▸ hblock), absorbKey_nil] at hmixed
    exact word_injective ha hlength (absorb_injective seed hmixed)

/-- The empty key and a key of one byte have different hashes: their lengths differ in the lowest bit
only, and the one word that is scrambled to that bit is no byte. -/
theorem hash_ne_of_length {a b : Bytes} (seed : UInt32) (ha : a.length = 0) (hb : b.length = 1) :
    hash seed a ≠ hash seed b := by
  intro h
  have hmixed := avalanche_injective h
  rw [ha, hb, List.eq_nil_of_length_eq_zero ha, absorbKey_nil, absorbKey_of_length_lt seed (by omega),
    UInt32.xor_assoc, UInt32.xor_right_inj] at hmixed
  have hdifference : scramble (UInt32.ofNat (littleEndian b)) ^^^ 1 = 0 := hmixed.symm
  have hone : scramble 0xa97971ba = 1 := by decide
  have hword : UInt32.ofNat (littleEndian b) = 0xa97971ba :=
    scramble_injective ((UInt32.xor_eq_zero_iff.mp hdifference).trans hone.symm)
  have hsmall : littleEndian b < 256 := by
    simpa [hb] using littleEndian_lt b
  have hnumber : littleEndian b = 0xa97971ba := by
    rw [← UInt32.toNat_ofNat_of_lt' (Nat.lt_trans hsmall (by decide)), hword]
    rfl
  omega

/-- Of the keys of up to four bytes at most four have the same hash. -/
theorem card_le_of_hash_eq {seed : UInt32} {value : HashValue} {keys : Finset Bytes}
    (hshort : ∀ key ∈ keys, key.length ≤ 4) (hhash : ∀ key ∈ keys, hash seed key = value) : keys.card ≤ 4 := by
  -- one key of each length, except that none and one byte do not occur together
  have hmaps : ∀ key ∈ keys, key.length - 1 ∈ Finset.range 4 := by
    intro key hkey
    have hlength := hshort key hkey
    rw [Finset.mem_range]
    omega
  have hinjective : ∀ a ∈ keys, ∀ b ∈ keys, a.length - 1 = b.length - 1 → a = b := by
    intro a ha b hb hclass
    have hhashes := (hhash a ha).trans (hhash b hb).symm
    by_cases hlength : a.length = b.length
    · exact eq_of_hash_eq (hshort a ha) hlength hhashes
    · rcases Nat.lt_or_gt_of_ne hlength with hless | hmore
      · exact absurd hhashes (hash_ne_of_length seed (by omega) (by omega))
      · exact absurd hhashes.symm (hash_ne_of_length seed (by omega) (by omega))
  calc
    keys.card ≤ (Finset.range 4).card := Finset.card_le_card_of_injOn _ hmaps hinjective
    _ = 4 := Finset.card_range 4

end ExtendibleHashing.Murmur
