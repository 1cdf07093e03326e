import ExtendibleHashing.Text.Column
import ExtendibleHashing.Text.Grapheme
import ExtendibleHashing.Text.Ignorable
import ExtendibleHashing.Text.Printable

/-!
# Quoted text

Text between double quotes, in which every character that would not show as itself is
written as an escape.
-/

namespace ExtendibleHashing

/-- A character by its code point in hexadecimal. -/
def codePointEscape (c : Char) : String := "\\u\x7b" ++ hexNumeral c.toNat ++ "\x7d"

/-- The way a character is written between double quotes. -/
def quotedChar (c : Char) : String :=
  if c = '"' then "\\\""
  else if c = '\\' then "\\\\"
  else if c = '\n' then "\\n"
  else if c = '\r' then "\\r"
  else if c = '\t' then "\\t"
  else if c = '\x00' then "\\0"
  else if isPrintable c && !isExtendingMark c && !isIgnorable c then c.toString
  else codePointEscape c

/-- A text in double quotes. -/
def quoted (text : String) : String := "\"" ++ String.join (text.toList.map quotedChar) ++ "\""

end ExtendibleHashing
