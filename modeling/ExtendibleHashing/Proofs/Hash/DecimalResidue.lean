import ExtendibleHashing.Hash.Hasher
import ExtendibleHashing.Text.Numeral
import Mathlib.Data.List.Induction
import Mathlib.Data.List.TakeWhile
import Mathlib.Data.Nat.Digits.Defs

/-!
# What decimal residue hashing reads

Blanks and digits are taken as far as they go, so a key is cut into blanks, a sign, digits and a rest in one way
only. The digits are counted modulo `2 ^ 32` one after the other, and a minus is taken modulo `2 ^ 32` too, which
comes to the same as reducing the number that they denote. A key whose number is reduced to zero cannot be told
from a key without a number and counts as its length, except for `"0"`.
-/

namespace ExtendibleHashing

namespace DecimalResidue

/-- Space, tab, line feed, carriage return, vertical tab and form feed. -/
def whitespace : Bytes := [0x20, 0x09, 0x0a, 0x0d, 0x0b, 0x0c]

/-- The digits from `0` to `9`. -/
def decimals : Bytes := [0x30, 0x31, 0x32, 0x33, 0x34, 0x35, 0x36, 0x37, 0x38, 0x39]

/-- A byte string begins with a run of bytes of one kind, and the run is as long as it can be. -/
structure LongestRun (kind bytes run rest : Bytes) : Prop where
  append_eq : run ++ rest = bytes
  subset : run ⊆ kind
  stops : ∀ byte ∈ rest.head?, byte ∉ kind

/-- A byte string begins with a plus or a minus, or without a sign if its first byte is neither. -/
structure OptionalSign (bytes sign rest : Bytes) : Prop where
  append_eq : sign ++ rest = bytes
  sign_eq : sign = [] ∨ sign = [0x2b] ∨ sign = [0x2d]
  unsigned : sign = [] → ∀ byte ∈ rest.head?, byte ≠ 0x2b ∧ byte ≠ 0x2d

/-- The parts that a key is cut into. -/
@[ext]
structure Reading where
  blanks : Bytes
  sign : Bytes
  digits : Bytes
  rest : Bytes
deriving DecidableEq, Repr

/-- A key is cut into blanks, an optional sign, digits and a rest. -/
structure Reads (key : Bytes) (reading : Reading) : Prop where
  blanks : LongestRun whitespace key reading.blanks (reading.sign ++ (reading.digits ++ reading.rest))
  sign : OptionalSign (reading.sign ++ (reading.digits ++ reading.rest)) reading.sign
    (reading.digits ++ reading.rest)
  digits : LongestRun decimals (reading.digits ++ reading.rest) reading.digits reading.rest

/-- The number that digits denote, the most significant one first. -/
def magnitude (digits : Bytes) : ℕ := Nat.ofDigits 10 (digits.reverse.map fun digit => digit.toNat - 0x30)

/-- The signed number that a key begins with. -/
def Reading.number (reading : Reading) : ℤ :=
  if reading.sign = [0x2d] then -(magnitude reading.digits : ℤ) else magnitude reading.digits

/-- The number that a key counts as, before it is reduced by the modulus: the one that it begins with, or its length if
that is zero in a word and the key is not `"0"`. -/
def Reading.counted (key : Bytes) (reading : Reading) : ℤ :=
  if reading.number % 2 ^ 32 ≠ 0 ∨ key = [0x30] then reading.number % 2 ^ 32 else (key.length : ℤ) % 2 ^ 32

/-- Blanks are whitespace. -/
theorem isBlank_iff (byte : UInt8) : isBlank byte ↔ byte ∈ whitespace := by
  simp only [isBlank, whitespace, Bool.or_eq_true, beq_iff_eq, Bool.and_eq_true, decide_eq_true_eq, List.mem_cons,
    List.not_mem_nil, or_false, UInt8.le_iff_toNat_le, ← UInt8.toNat_inj, UInt8.reduceToNat]
  omega

/-- The digits are ten bytes in a row. -/
theorem mem_decimals_iff (byte : UInt8) : byte ∈ decimals ↔ 0x30 ≤ byte.toNat ∧ byte.toNat ≤ 0x39 := by
  simp only [decimals, List.mem_cons, List.not_mem_nil, or_false, ← UInt8.toNat_inj, UInt8.reduceToNat]
  omega

/-- Digits are recognised by their bounds. -/
theorem isDigit_iff (byte : UInt8) : isDigit byte ↔ byte ∈ decimals := by
  rw [mem_decimals_iff, isDigit, Bool.and_eq_true, decide_eq_true_eq, decide_eq_true_eq]
  exact Iff.rfl

/-- The longest run is what is taken while bytes are of its kind. -/
theorem longestRun_iff {kind bytes run rest : Bytes} {test : UInt8 → Bool}
    (htest : ∀ byte, test byte ↔ byte ∈ kind) :
    LongestRun kind bytes run rest ↔ run = bytes.takeWhile test ∧ rest = bytes.dropWhile test := by
  constructor
  · rintro ⟨rfl, hrun, hstops⟩
    have hall : ∀ byte ∈ run, test byte := fun byte hbyte => (htest byte).mpr (hrun hbyte)
    rw [List.takeWhile_append_of_pos hall, List.dropWhile_append_of_pos hall]
    cases rest with
    | nil => exact ⟨(List.append_nil run).symm, rfl⟩
    | cons byte rest =>
      have hbyte : ¬ test byte := fun h => hstops byte rfl ((htest byte).mp h)
      rw [List.takeWhile_cons_of_neg hbyte, List.dropWhile_cons_of_neg hbyte, List.append_nil]
      exact ⟨rfl, rfl⟩
  · rintro ⟨rfl, rfl⟩
    refine ⟨List.takeWhile_append_dropWhile, fun byte hbyte => (htest byte).mp (List.mem_takeWhile_imp hbyte), ?_⟩
    intro byte hbyte hkind
    have hstops := List.head?_dropWhile_not test bytes
    rw [hbyte] at hstops
    exact absurd ((htest byte).mpr hkind) (Bool.not_eq_true _ ▸ hstops)

/-- The sign is the first byte if that is one. -/
theorem OptionalSign.sign_eq_filter {bytes sign rest : Bytes} (h : OptionalSign bytes sign rest) :
    sign = bytes.head?.toList.filter fun byte => byte = 0x2b ∨ byte = 0x2d := by
  obtain ⟨rfl, hsign, hunsigned⟩ := h
  rcases hsign with rfl | rfl | rfl
  · cases rest with
    | nil => rfl
    | cons byte rest => simpa using hunsigned rfl byte rfl
  · rfl
  · rfl

/-- Every byte string begins with a sign or without one. -/
theorem exists_optionalSign (bytes : Bytes) : ∃ sign rest, OptionalSign bytes sign rest := by
  by_cases hsigned : ∃ sign rest, (sign = [0x2b] ∨ sign = [0x2d]) ∧ sign ++ rest = bytes
  · obtain ⟨sign, rest, hsign, happend⟩ := hsigned
    refine ⟨sign, rest, happend, .inr hsign, ?_⟩
    rintro rfl
    simp at hsign
  · refine ⟨[], bytes, rfl, .inl rfl, fun _ byte hbyte => ⟨?_, ?_⟩⟩
    all_goals
      rintro rfl
      obtain ⟨rest, rfl⟩ := List.head?_eq_some_iff.mp hbyte
      exact hsigned ⟨[_], rest, by simp, rfl⟩

/-- There is only one way to cut a key. -/
theorem Reads.unique {key : Bytes} {reading reading' : Reading} (h : Reads key reading) (h' : Reads key reading') :
    reading = reading' := by
  obtain ⟨hblanks, hunblanked⟩ := (longestRun_iff isBlank_iff).mp h.blanks
  obtain ⟨hblanks', hunblanked'⟩ := (longestRun_iff isBlank_iff).mp h'.blanks
  have hsign : reading.sign = reading'.sign := by
    rw [h.sign.sign_eq_filter, h'.sign.sign_eq_filter, hunblanked, hunblanked']
  have hunsigned : reading.digits ++ reading.rest = reading'.digits ++ reading'.rest :=
    List.append_cancel_left (hunblanked.trans (hsign ▸ hunblanked'.symm))
  obtain ⟨hdigits, hrest⟩ := (longestRun_iff isDigit_iff).mp h.digits
  obtain ⟨hdigits', hrest'⟩ := (longestRun_iff isDigit_iff).mp h'.digits
  rw [hunsigned] at hdigits hrest
  exact Reading.ext (hblanks.trans hblanks'.symm) hsign (hdigits.trans hdigits'.symm) (hrest.trans hrest'.symm)

/-- Every key can be cut. -/
theorem exists_reads (key : Bytes) : ∃ reading, Reads key reading := by
  obtain ⟨sign, unsigned, hsign⟩ := exists_optionalSign (key.dropWhile isBlank)
  have hdigits : LongestRun decimals unsigned (unsigned.takeWhile isDigit) (unsigned.dropWhile isDigit) :=
    (longestRun_iff isDigit_iff).mpr ⟨rfl, rfl⟩
  refine ⟨⟨key.takeWhile isBlank, sign, unsigned.takeWhile isDigit, unsigned.dropWhile isDigit⟩, ?_, ?_, ?_⟩
  · rw [hdigits.append_eq, hsign.append_eq]
    exact (longestRun_iff isBlank_iff).mpr ⟨rfl, rfl⟩
  · rw [hdigits.append_eq, hsign.append_eq]
    exact hsign
  · rw [hdigits.append_eq]
    exact hdigits

/-- A minus is taken modulo `2 ^ 32`. -/
theorem OptionalSign.signedNumber_eq {bytes sign rest : Bytes} (h : OptionalSign bytes sign rest) :
    signedNumber bytes = if sign = [0x2d] then -leadingNumber rest else leadingNumber rest := by
  obtain ⟨rfl, hsign, hunsigned⟩ := h
  rcases hsign with rfl | rfl | rfl
  · cases rest with
    | nil => rfl
    | cons byte rest =>
      obtain ⟨hplus, hminus⟩ := hunsigned rfl byte rfl
      simp [signedNumber, hplus, hminus]
  · rfl
  · rfl

/-- One more digit shifts the number and is added to it. -/
theorem magnitude_concat (digits : Bytes) (digit : UInt8) :
    magnitude (digits ++ [digit]) = magnitude digits * 10 + (digit.toNat - 0x30) := by
  rw [magnitude, List.reverse_append, List.reverse_singleton, List.singleton_append, List.map_cons,
    Nat.ofDigits_cons, Nat.add_comm, Nat.mul_comm]
  rfl

/-- One more digit does the same to words. -/
theorem toNat_mul_add_digit (number : UInt32) {digit : UInt8} (h : digit ∈ decimals) :
    (number * 10 + (digit.toUInt32 - 0x30)).toNat = (number.toNat * 10 + (digit.toNat - 0x30)) % 2 ^ 32 := by
  have hle : (0x30 : UInt32) ≤ digit.toUInt32 := by
    rw [UInt32.le_iff_toNat_le, UInt8.toNat_toUInt32]
    exact ((mem_decimals_iff digit).mp h).1
  rw [UInt32.toNat_add, UInt32.toNat_mul, UInt32.toNat_sub_of_le _ _ hle, UInt8.toNat_toUInt32, Nat.mod_add_mod]
  rfl

/-- The leading number is that of the longest run of digits, modulo `2 ^ 32`. -/
theorem toNat_leadingNumber {bytes digits rest : Bytes} (h : LongestRun decimals bytes digits rest) :
    (leadingNumber bytes).toNat = magnitude digits % 2 ^ 32 := by
  have hsubset := h.subset
  rw [leadingNumber, ← ((longestRun_iff isDigit_iff).mp h).1]
  clear h
  -- the fold takes the digits in from the left, so the last one is split off
  induction digits using List.reverseRecOn with
  | nil => rfl
  | append_singleton digits digit ih =>
    obtain ⟨hdigits, hdigit⟩ := List.append_subset.mp hsubset
    rw [List.foldl_append, List.foldl_cons, List.foldl_nil, toNat_mul_add_digit _ (hdigit List.mem_cons_self),
      ih hdigits, magnitude_concat]
    omega

/-- The signed number is that of the reading, modulo `2 ^ 32`. -/
theorem Reads.toNat_signedNumber {key : Bytes} {reading : Reading} (h : Reads key reading) :
    ((signedNumber (key.dropWhile isBlank)).toNat : ℤ) = reading.number % 2 ^ 32 := by
  rw [← ((longestRun_iff isBlank_iff).mp h.blanks).2, h.sign.signedNumber_eq, Reading.number]
  split
  · rw [UInt32.toNat_neg, toNat_leadingNumber h.digits]
    simp only [UInt32.size]
    omega
  · rw [toNat_leadingNumber h.digits]
    omega

/-- A key without a number in a word counts as its length, unless it is `"0"`. -/
theorem Reads.toNat_keyNumber {key : Bytes} {reading : Reading} (h : Reads key reading) :
    ((keyNumber key).toNat : ℤ) = reading.counted key := by
  have hzero : signedNumber (key.dropWhile isBlank) = 0 ↔ reading.number % 2 ^ 32 = 0 := by
    rw [← h.toNat_signedNumber, ← UInt32.toNat_inj]
    exact Int.natCast_eq_zero.symm
  rw [keyNumber, Reading.counted]
  by_cases hlength : reading.number % 2 ^ 32 = 0 ∧ key ≠ [0x30]
  · rw [if_pos ⟨hzero.mpr hlength.1, hlength.2⟩, if_neg (by tauto), UInt32.toNat_ofNat', Int.natCast_mod]
    rfl
  · rw [if_neg (fun h => hlength ⟨hzero.mp h.1, h.2⟩), if_pos (by tauto), h.toNat_signedNumber]

/-- The hash is what the key counts as, reduced by the modulus. -/
theorem Reads.toNat_hash {key : Bytes} {reading : Reading} (h : Reads key reading) (modulus : UInt32) :
    ((hash modulus key).toNat : ℤ) = reading.counted key % modulus.toNat := by
  rw [hash, UInt32.toNat_mod, Int.natCast_mod, h.toNat_keyNumber]

/-- The bytes of a numeral are digits with the values that they were made from. -/
theorem toNat_digit {d : ℕ} (h : d < 10) : (UInt8.ofNat (0x30 + d)).toNat = 0x30 + d :=
  UInt8.toNat_ofNat_of_lt' (by simp only [UInt8.size]; omega)

/-- Numerals consist of digits. -/
theorem numeral_subset (n : ℕ) : numeral n ⊆ decimals := by
  have hdigit {d : ℕ} (h : d < 10) : [UInt8.ofNat (0x30 + d)] ⊆ decimals := by
    rw [List.cons_subset, mem_decimals_iff, toNat_digit h]
    exact ⟨by omega, List.nil_subset _⟩
  induction n using numeral.induct with
  | case1 n hn =>
    rw [numeral, if_pos hn]
    exact hdigit hn
  | case2 n hn ih =>
    rw [numeral, if_neg hn]
    exact List.append_subset.mpr ⟨ih, hdigit (Nat.mod_lt n (by decide))⟩

/-- Numerals denote the numbers they are made for. -/
theorem magnitude_numeral (n : ℕ) : magnitude (numeral n) = n := by
  induction n using numeral.induct with
  | case1 n hn =>
    rw [numeral, if_pos hn, magnitude, List.reverse_singleton, List.map_singleton, Nat.ofDigits_singleton,
      toNat_digit hn, Nat.add_sub_cancel_left]
  | case2 n hn ih =>
    rw [numeral, if_neg hn, magnitude_concat, ih, toNat_digit (Nat.mod_lt n (by decide)), Nat.add_sub_cancel_left]
    omega

/-- Numerals are read as digits only. -/
theorem reads_numeral (n : ℕ) : Reads (numeral n) ⟨[], [], numeral n, []⟩ := by
  -- a numeral begins with a digit, which is neither whitespace nor a sign
  have hhead : ∀ byte ∈ (numeral n ++ []).head?, byte ∈ decimals := by
    intro byte hbyte
    rw [List.append_nil] at hbyte
    exact numeral_subset n (List.mem_of_head? hbyte)
  refine ⟨⟨List.append_nil _, List.nil_subset _, fun byte hbyte => ?_⟩,
    ⟨rfl, .inl rfl, fun _ byte hbyte => ⟨?_, ?_⟩⟩, ⟨rfl, numeral_subset n, by rintro byte ⟨⟩⟩⟩
  · have hdisjoint : ∀ byte ∈ decimals, byte ∉ whitespace := by simp [decimals, whitespace]
    exact hdisjoint byte (hhead byte hbyte)
  · rintro rfl
    exact absurd (hhead _ hbyte) (by decide)
  · rintro rfl
    exact absurd (hhead _ hbyte) (by decide)

/-- Numerals of numbers that fit a word count as these numbers. -/
theorem counted_numeral {n : ℕ} (hn : n < 2 ^ 32) : Reading.counted (numeral n) ⟨[], [], numeral n, []⟩ = n := by
  have hnumber : Reading.number ⟨[], [], numeral n, []⟩ % 2 ^ 32 = n := by
    rw [Reading.number, if_neg (List.cons_ne_nil _ _).symm, magnitude_numeral]
    omega
  have hcounts : (n : ℤ) ≠ 0 ∨ numeral n = [0x30] := by
    rcases Nat.eq_zero_or_pos n with rfl | hpos
    · exact .inr (by rw [numeral]; rfl)
    · exact .inl (Int.natCast_ne_zero.mpr (Nat.ne_of_gt hpos))
  rw [Reading.counted, hnumber, if_pos hcounts]

/-- Under any modulus but zero every key has a hash. There is one way to cut a key into blanks, an optional sign,
digits and a rest, and the hash is what the key counts as, reduced by the modulus. In particular numerals hash to
the residues of their numbers, up to the largest that fits a word. -/
theorem hash_of_reading (modulus : UInt32) (hmodulus : modulus ≠ 0) :
    (Hasher.decimalResidue modulus).function = .ok (hash modulus) ∧
      (∀ key, (∃! reading, Reads key reading) ∧
        ∀ reading, Reads key reading → ((hash modulus key).toNat : ℤ) = reading.counted key % modulus.toNat) ∧
      ∀ n < 2 ^ 32, (hash modulus (numeral n)).toNat = n % modulus.toNat := by
  refine ⟨if_neg hmodulus, fun key => ⟨?_, fun reading h => h.toNat_hash modulus⟩, fun n hn => ?_⟩
  · obtain ⟨reading, hreading⟩ := exists_reads key
    exact ⟨reading, hreading, fun other hother => hother.unique hreading⟩
  · have hresidue := (reads_numeral n).toNat_hash modulus
    rw [counted_numeral hn] at hresidue
    exact_mod_cast hresidue

/-- The key `-4294967295x` after a tab counts as 1, since the minus wraps around. The digits of `4294967296` wrap around
to zero, so this key counts as its length. The numeral `3000000000` denotes a number above the modulus. -/
theorem hash_of_reading_of_large_numbers :
    (0x80000000 : UInt32) ≠ 0 ∧
      Reads [9, 45, 52, 50, 57, 52, 57, 54, 55, 50, 57, 53, 120]
        ⟨[9], [45], [52, 50, 57, 52, 57, 54, 55, 50, 57, 53], [120]⟩ ∧
      (hash 0x80000000 [9, 45, 52, 50, 57, 52, 57, 54, 55, 50, 57, 53, 120]).toNat = 1 ∧
      Reads [52, 50, 57, 52, 57, 54, 55, 50, 57, 54] ⟨[], [], [52, 50, 57, 52, 57, 54, 55, 50, 57, 54], []⟩ ∧
      (hash 0x80000000 [52, 50, 57, 52, 57, 54, 55, 50, 57, 54]).toNat = 10 ∧
      3000000000 < 2 ^ 32 ∧ (hash 0x80000000 (numeral 3000000000)).toNat = 852516352 := by
  have hwrapped : Reads [9, 45, 52, 50, 57, 52, 57, 54, 55, 50, 57, 53, 120]
      ⟨[9], [45], [52, 50, 57, 52, 57, 54, 55, 50, 57, 53], [120]⟩ :=
    ⟨⟨rfl, by simp [whitespace], by simp [whitespace]⟩, ⟨rfl, by simp, by simp⟩,
      ⟨rfl, by simp [decimals], by simp [decimals]⟩⟩
  have hzero : Reads [52, 50, 57, 52, 57, 54, 55, 50, 57, 54]
      ⟨[], [], [52, 50, 57, 52, 57, 54, 55, 50, 57, 54], []⟩ :=
    ⟨⟨rfl, by simp, by simp [whitespace]⟩, ⟨rfl, by simp, by simp⟩,
      ⟨rfl, by simp [decimals], by simp⟩⟩
  obtain ⟨-, hkeys, hnumerals⟩ := hash_of_reading 0x80000000 (by decide)
  refine ⟨by decide, hwrapped, ?_, hzero, ?_, by decide, hnumerals 3000000000 (by decide)⟩
  · exact Int.ofNat_inj.mp (((hkeys _).2 _ hwrapped).trans (by decide))
  · exact Int.ofNat_inj.mp (((hkeys _).2 _ hzero).trans (by decide))

end DecimalResidue

end ExtendibleHashing
