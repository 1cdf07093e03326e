import ExtendibleHashing.Entry

/-!
# Bytes as text

Byte strings are shown as text by decoding them as UTF-8. Where the bytes are no valid
encoding, each maximal part that could have begun one is shown as a single replacement
character.
-/

namespace ExtendibleHashing.Utf8

/-- Stands for bytes that encode no character. -/
def replacement : Char := '\uFFFD'

/-- A character whose encoding has begun: the bits read so far, the number of bytes still to
come, and the range the next one has to lie in. -/
structure Pending where
  bits : Nat
  missing : Nat
  lowest : UInt8
  highest : UInt8
deriving DecidableEq, Repr

/-- The effect of a first byte: a whole character, the beginning of one, or neither. The
narrower ranges after some of them exclude overlong forms, surrogates and code points past
the last one. -/
def start (byte : UInt8) : List Char × Option Pending :=
  let opens (lead missing : Nat) (lowest highest : UInt8) : List Char × Option Pending :=
    ([], some ⟨byte.toNat - lead, missing, lowest, highest⟩)
  if byte < 0x80 then ([Char.ofNat byte.toNat], none)
  else if byte < 0xc2 then ([replacement], none)
  else if byte < 0xe0 then opens 0xc0 1 0x80 0xbf
  else if byte = 0xe0 then opens 0xe0 2 0xa0 0xbf
  else if byte = 0xed then opens 0xe0 2 0x80 0x9f
  else if byte < 0xf0 then opens 0xe0 2 0x80 0xbf
  else if byte = 0xf0 then opens 0xf0 3 0x90 0xbf
  else if byte < 0xf4 then opens 0xf0 3 0x80 0xbf
  else if byte = 0xf4 then opens 0xf0 3 0x80 0x8f
  else ([replacement], none)

/-- Take one byte: the characters it settles, and the character it leaves begun. A byte that
does not continue the character begun replaces that and starts anew. -/
def step (pending? : Option Pending) (byte : UInt8) : List Char × Option Pending :=
  match pending? with
  | none => start byte
  | some p =>
    if p.lowest ≤ byte ∧ byte ≤ p.highest then
      let bits := p.bits * 64 + byte.toNat % 64
      if p.missing = 1 then ([Char.ofNat bits], none)
      else ([], some ⟨bits, p.missing - 1, 0x80, 0xbf⟩)
    else
      let (settled, next?) := start byte
      (replacement :: settled, next?)

/-- Decode the rest of a byte string after a character begun. -/
def decodeFrom (pending? : Option Pending) : Bytes → List Char
  | [] => if pending?.isSome then [replacement] else []
  | byte :: rest =>
    let (settled, next?) := step pending? byte
    settled ++ decodeFrom next? rest

/-- The text of a byte string. -/
def decode (bytes : Bytes) : String := String.ofList (decodeFrom none bytes)

end ExtendibleHashing.Utf8
