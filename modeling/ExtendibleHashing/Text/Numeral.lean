import ExtendibleHashing.Entry

/-!
# Numerals

Decimal numerals as byte strings, for keys and values that count.
-/

namespace ExtendibleHashing

/-- The decimal numeral of a number, most significant digit first and without leading zeros. -/
def numeral (n : Nat) : Bytes :=
  if n < 10 then [UInt8.ofNat (0x30 + n)] else numeral (n / 10) ++ [UInt8.ofNat (0x30 + n % 10)]

end ExtendibleHashing
