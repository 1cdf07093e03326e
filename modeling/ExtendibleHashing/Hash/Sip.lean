import ExtendibleHashing.Hash.Value
import ExtendibleHashing.Hash.Word

/-!
# Sip hashing

SipHash with one round per block and three closing rounds, under the zero key. A block is
eight bytes in little-endian order; the last one carries the tail of the key and, in its
highest byte, the length of the key. `hash` folds the 64-bit result to the width of a hash
value.
-/

namespace ExtendibleHashing.Sip

/-- The four words that the rounds mix. -/
structure State where
  v0 : UInt64
  v1 : UInt64
  v2 : UInt64
  v3 : UInt64
deriving DecidableEq, Repr

/-- The state before the first block under the zero key. -/
def State.initial : State :=
  ⟨0x736f6d6570736575, 0x646f72616e646f6d, 0x6c7967656e657261, 0x7465646279746573⟩

/-- One round of additions, rotations and exclusive ors. -/
def State.round (s : State) : State :=
  let v0 := s.v0 + s.v1
  let v1 := rotate64 s.v1 13 ^^^ v0
  let v0 := rotate64 v0 32
  let v2 := s.v2 + s.v3
  let v3 := rotate64 s.v3 16 ^^^ v2
  let v0 := v0 + v3
  let v3 := rotate64 v3 21 ^^^ v0
  let v2 := v2 + v1
  let v1 := rotate64 v1 17 ^^^ v2
  let v2 := rotate64 v2 32
  ⟨v0, v1, v2, v3⟩

/-- Mix one block into the state. -/
def State.absorb (s : State) (block : UInt64) : State :=
  let mixed := State.round { s with v3 := s.v3 ^^^ block }
  { mixed with v0 := mixed.v0 ^^^ block }

/-- Mix all blocks of a key into the state, the last one with the length in its high byte. -/
def absorbKey (length : Nat) (s : State) : Bytes → State
  | a :: b :: c :: d :: e :: f :: g :: h :: rest =>
      absorbKey length (s.absorb (UInt64.ofNat (littleEndian [a, b, c, d, e, f, g, h]))) rest
  | tail => s.absorb (UInt64.ofNat (littleEndian tail) ||| (UInt64.ofNat length <<< 56))

/-- The 64-bit hash of a key. -/
def hash64 (key : Bytes) : UInt64 :=
  let s := absorbKey key.length .initial key
  let s := State.round (State.round (State.round { s with v2 := s.v2 ^^^ 0xff }))
  s.v0 ^^^ s.v1 ^^^ s.v2 ^^^ s.v3

/-- The 64-bit hash with its halves combined by exclusive or. -/
def hash (key : Bytes) : HashValue :=
  let wide := hash64 key
  (wide ^^^ (wide >>> 32)).toUInt32

end ExtendibleHashing.Sip
