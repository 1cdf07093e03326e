import ExtendibleHashing.Hash.Value

/-!
# Decimal residue hashing

A key is read as a decimal number: blanks, an optional sign, then digits up to the first
byte that is none. The number is taken modulo `2 ^ 32` and then modulo the chosen modulus.
A key that reads as zero without being `"0"` itself counts as its length instead, so keys
without a number spread too.
-/

namespace ExtendibleHashing.DecimalResidue

/-- Space, and the control characters from tab to carriage return. -/
def isBlank (byte : UInt8) : Bool := byte == 0x20 || (0x09 ≤ byte && byte ≤ 0x0d)

/-- The digits `0` to `9`. -/
def isDigit (byte : UInt8) : Bool := 0x30 ≤ byte && byte ≤ 0x39

/-- The number that the leading digits denote, modulo `2 ^ 32`. -/
def leadingNumber (bytes : Bytes) : UInt32 :=
  (bytes.takeWhile isDigit).foldl (fun number digit => number * 10 + (digit.toUInt32 - 0x30)) 0

/-- The signed number at the start of a byte string, modulo `2 ^ 32`. -/
def signedNumber : Bytes → UInt32
  | 0x2d :: rest => -leadingNumber rest
  | 0x2b :: rest => leadingNumber rest
  | bytes => leadingNumber bytes

/-- The number a key stands for before it is reduced. -/
def keyNumber (key : Bytes) : UInt32 :=
  let number := signedNumber (key.dropWhile isBlank)
  if number = 0 ∧ key ≠ [0x30] then UInt32.ofNat key.length else number

/-- The hash of a key for a modulus other than zero. -/
def hash (modulus : UInt32) (key : Bytes) : HashValue := keyNumber key % modulus

end ExtendibleHashing.DecimalResidue
