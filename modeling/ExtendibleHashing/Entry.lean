/-!
# Entries

An entry is a key with its value, both byte strings. Byte strings are ordered
lexicographically by unsigned byte, and entries by key first and then by value. This is
the order in which scans deliver them.
-/

namespace ExtendibleHashing

/-- A byte string, used for keys, values and the bounds of key ranges. -/
abbrev Bytes := List UInt8

/-- A key together with the value stored under it. -/
structure Entry where
  key : Bytes
  value : Bytes
deriving DecidableEq, Repr, Inhabited

namespace Entry

/-- Keys decide the order; equal keys leave it to the values. -/
instance : LT Entry := ⟨fun a b => a.key < b.key ∨ a.key = b.key ∧ a.value < b.value⟩

/-- The reflexive order of entries. -/
instance : LE Entry := ⟨fun a b => a.key < b.key ∨ a.key = b.key ∧ a.value ≤ b.value⟩

theorem lt_def {a b : Entry} :
    a < b ↔ a.key < b.key ∨ a.key = b.key ∧ a.value < b.value := Iff.rfl

theorem le_def {a b : Entry} :
    a ≤ b ↔ a.key < b.key ∨ a.key = b.key ∧ a.value ≤ b.value := Iff.rfl

instance (a b : Entry) : Decidable (a < b) := decidable_of_iff' _ lt_def

instance (a b : Entry) : Decidable (a ≤ b) := decidable_of_iff' _ le_def

/-- Three-way comparison of two entries. -/
instance : Ord Entry := ⟨fun a b => compareOfLessAndEq a b⟩

end Entry

end ExtendibleHashing
