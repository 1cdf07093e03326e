import ExtendibleHashing.Error

/-!
# Point operations

The operations on a single key and their answers. None of them fails but an insertion, and
that only when its key cannot be told from others by its hash.
-/

namespace ExtendibleHashing

/-- The operations on a single key. -/
inductive Operation where
  /-- Read the value of a key. -/
  | get (key : Bytes)
  /-- Store an entry, unless its key is stored already. -/
  | insert (entry : Entry)
  /-- Replace the value of a key, if that is stored. -/
  | update (entry : Entry)
  /-- Take out the entry of a key, if that is stored. -/
  | remove (key : Bytes)
deriving DecidableEq, Repr

/-- The key an operation is about. -/
def Operation.key : Operation → Bytes
  | .get key => key
  | .insert entry => entry.key
  | .update entry => entry.key
  | .remove key => key

/-- The answer to a point operation. -/
inductive Outcome where
  /-- The value read, if there is one. -/
  | found (value? : Option Bytes)
  /-- The key to be inserted is stored now, or was before. -/
  | accepted
  /-- The entry cannot be inserted and the index is as before. -/
  | refused (error : IndexError)
  /-- The key to be updated or removed was dealt with, if it was stored at all. -/
  | done
deriving DecidableEq, Repr

end ExtendibleHashing
