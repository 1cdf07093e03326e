/-!
# Columns

Text padded on the left to a least width, and hexadecimal numerals of a fixed width.
-/

namespace ExtendibleHashing

/-- A text with copies of a character in front until it has the given length. -/
def padStart (width : Nat) (fill : Char) (text : String) : String :=
  String.ofList (text.toList.leftpad width fill)

/-- The lower case hexadecimal numeral of a number. -/
def hexNumeral (n : Nat) : String := String.ofList (Nat.toDigits 16 n)

end ExtendibleHashing
