import OmenDb.Btree.Node
import OmenDb.Db.MaintenanceBatch
import OmenDb.Db.PackedRange
import OmenDb.Lib.Buffer
import OmenDb.Lib.Codec
import OmenDb.Lib.Decimal
import OmenDb.Lib.Digits
import OmenDb.Lib.Distinct
import OmenDb.Lib.Fallible
import OmenDb.Lib.Fields
import OmenDb.Lib.FrameLog
import OmenDb.Lib.FrameParse
import OmenDb.Lib.GroupFold
import OmenDb.Lib.KeyRange
import OmenDb.Lib.Keyed
import OmenDb.Lib.Linked
import OmenDb.Lib.Loop
import OmenDb.Lib.Machine
import OmenDb.Lib.OrdMap
import OmenDb.Lib.Search
import OmenDb.Lib.StableSort
import OmenDb.Lib.Sweep
import OmenDb.Lib.Threads
import OmenDb.Lib.Trap
import OmenDb.Lib.VersionChain
import OmenDb.Mvcc.Chain
import OmenDb.Mvcc.Records
import OmenDb.Mvcc.Retention
import OmenDb.Mvcc.VersionStore
import OmenDb.Rel.Key
import OmenDb.Rel.RowCodec
import OmenDb.Rel.ScanOrder
import OmenDb.Runtime.Governor
import OmenDb.Runtime.Overload
import OmenDb.Session.Accounting
import OmenDb.Session.Admission
import OmenDb.Sql.Aggregate
import OmenDb.Sql.Binding
import OmenDb.Sql.Calendar
import OmenDb.Sql.Case
import OmenDb.Sql.Coerce
import OmenDb.Sql.Distinct
import OmenDb.Sql.Expr
import OmenDb.Sql.JoinPredicate
import OmenDb.Sql.Morsel
import OmenDb.Sql.Numeric
import OmenDb.Sql.Ordering
import OmenDb.Sql.Plan
import OmenDb.Sql.Script
import OmenDb.Sql.Subqueries
import OmenDb.Sql.Value
import OmenDb.Txn.BeforeImages
import OmenDb.Txn.Cells
import OmenDb.Txn.ChangeStream
import OmenDb.Txn.Collect
import OmenDb.Txn.CollectSteps
import OmenDb.Txn.CursorRun
import OmenDb.Txn.DropLaw
import OmenDb.Txn.Effects
import OmenDb.Txn.Engine
import OmenDb.Txn.Fence
import OmenDb.Txn.Follow
import OmenDb.Txn.History
import OmenDb.Txn.Identities
import OmenDb.Txn.Invariant
import OmenDb.Txn.Isolation
import OmenDb.Txn.Lifecycled
import OmenDb.Txn.Local
import OmenDb.Txn.Maintenance
import OmenDb.Txn.Publication
import OmenDb.Txn.Publish
import OmenDb.Txn.PublishSteps
import OmenDb.Txn.Queueing
import OmenDb.Txn.Reachable
import OmenDb.Txn.Reads
import OmenDb.Txn.References
import OmenDb.Txn.Reservation
import OmenDb.Txn.Restart
import OmenDb.Txn.Runtime
import OmenDb.Txn.Serializability
import OmenDb.Txn.SnapshotReads
import OmenDb.Txn.SnapshotSpec
import OmenDb.Txn.Stage
import OmenDb.Txn.State
import OmenDb.Txn.Storage
import OmenDb.Txn.Validation
import OmenDb.Txn.Wave
import OmenDb.Vnext.Assembler
import OmenDb.Vnext.CommitAppend
import OmenDb.Vnext.FinalEffects
import OmenDb.Vnext.Frontier
import OmenDb.Vnext.LeafWrites
import OmenDb.Vnext.Levels
import OmenDb.Vnext.LogCodec
import OmenDb.Vnext.Oversized
import OmenDb.Vnext.Page
import OmenDb.Vnext.Preflight
import OmenDb.Vnext.RangeCursor
import OmenDb.Vnext.Record
import OmenDb.Vnext.RecordCodec
import OmenDb.Vnext.Refusals
import OmenDb.Vnext.RuntimeAdmission
import OmenDb.Vnext.Slotted
import OmenDb.Vnext.SlottedSearch
import OmenDb.Vnext.Spine
import OmenDb.Vnext.Split
import OmenDb.Vnext.Tree
import OmenDb.Vnext.TreeMap
import OmenDb.Vnext.TreeRuns
import OmenDb.Vnext.WriteIntent
import OmenDb.Vnext.WriteSet
import OmenDb.Wire.Numeric
import OmenDb.Wire.Parameter
