import ExtendibleHashing.Entry
import ExtendibleHashing.Hash.Value
import ExtendibleHashing.Hash.Word
import ExtendibleHashing.Hash.DecimalResidue
import ExtendibleHashing.Hash.Murmur
import ExtendibleHashing.Hash.MultiplyShift
import ExtendibleHashing.Hash.Sip
import ExtendibleHashing.Hash.Hasher
import ExtendibleHashing.Text.Column
import ExtendibleHashing.Text.Grapheme
import ExtendibleHashing.Text.Ignorable
import ExtendibleHashing.Text.Numeral
import ExtendibleHashing.Text.Printable
import ExtendibleHashing.Text.Quoted
import ExtendibleHashing.Text.Utf8
import ExtendibleHashing.Error
import ExtendibleHashing.Event
import ExtendibleHashing.Fault
import ExtendibleHashing.Config
import ExtendibleHashing.Operation
import ExtendibleHashing.Sink
import ExtendibleHashing.Sweep
import ExtendibleHashing.Bucket.Basic
import ExtendibleHashing.Bucket.Split
import ExtendibleHashing.Directory
import ExtendibleHashing.Index.Basic
import ExtendibleHashing.Index.Insertion
import ExtendibleHashing.Index.Perform
import ExtendibleHashing.Index.Scan
import ExtendibleHashing.Snapshot.Basic
import ExtendibleHashing.Snapshot.Check
import ExtendibleHashing.Snapshot.Table
import ExtendibleHashing.Session.Request
import ExtendibleHashing.Session.Interleaving
import ExtendibleHashing.Proofs.Bucket.ResidueClass
import ExtendibleHashing.Proofs.Bucket.Entries
import ExtendibleHashing.Proofs.Bucket.Separation
import ExtendibleHashing.Proofs.Bucket.Partition
import ExtendibleHashing.Proofs.Bucket.Placement
import ExtendibleHashing.Proofs.Bucket.Handover
import ExtendibleHashing.Proofs.Bucket.Rounds
import ExtendibleHashing.Proofs.Bucket.Siblings
import ExtendibleHashing.Proofs.Directory.Contents
import ExtendibleHashing.Proofs.Directory.Sound
import ExtendibleHashing.Proofs.Directory.Growth
import ExtendibleHashing.Proofs.Directory.Publication
import ExtendibleHashing.Proofs.Directory.Confinement
import ExtendibleHashing.Proofs.Directory.Halfway
import ExtendibleHashing.Proofs.Index.Transition
import ExtendibleHashing.Proofs.Index.Sound
import ExtendibleHashing.Proofs.Index.Effect
import ExtendibleHashing.Proofs.Hash.Word
import ExtendibleHashing.Proofs.Hash.Murmur
import ExtendibleHashing.Proofs.Snapshot
import ExtendibleHashing.Proofs.Snapshot.Check
import ExtendibleHashing.Proofs.Sweep
import ExtendibleHashing.Proofs.Session.Path
import ExtendibleHashing.Proofs.Session.FiniteMap
import ExtendibleHashing.Proofs.Session.Consistency
import ExtendibleHashing.Proofs.Session.Refusal
import ExtendibleHashing.Proofs.Session.Linearizability
import ExtendibleHashing.Proofs.Session.Serial
import ExtendibleHashing.Proofs.Session.Sharing
import ExtendibleHashing.Proofs.Session.Rereading
import ExtendibleHashing.Proofs.Session.Faultless
import ExtendibleHashing.Proofs.Session.RangeScan
import ExtendibleHashing.Proofs.Session.InterleavedSweep
import ExtendibleHashing.Proofs.Session.Confinement
import ExtendibleHashing.Proofs.Session.Course
import ExtendibleHashing.Proofs.Session.Escalation
import ExtendibleHashing.Proofs.Session.SplitInPlace
import ExtendibleHashing.Proofs.Session.ShortKeys
import ExtendibleHashing.Proofs.Session.HighWater
import ExtendibleHashing.Proofs.Hash.MurmurLocality
import ExtendibleHashing.Proofs.Hash.DecimalResidue
import ExtendibleHashing.Proofs.Snapshot.References
import ExtendibleHashing.Proofs.Sweep.Repetition
import ExtendibleHashing.Proofs.Sweep.Limit
import ExtendibleHashing.Proofs.Session.Journal
