import NodeDB.StepRuns
import NodeDB.ContiguousList
import NodeDB.KeyedFold
import NodeDB.Ranking
import NodeDB.WriteBatch
import NodeDB.RaftMessage
import NodeDB.RaftLog
import NodeDB.RaftLogIndex
import NodeDB.RaftLogShape
import NodeDB.GroupDisk
import NodeDB.GroupDiskDurability
import NodeDB.LogImage
import NodeDB.GroupDiskStable
import NodeDB.StableIndexSoundness
import NodeDB.LockEntry
import NodeDB.LockEntryInvariant
import NodeDB.LockManager
import NodeDB.LockRequests
import NodeDB.LockGrants
import NodeDB.RaftState
import NodeDB.LeaderLease
import NodeDB.RaftNode
import NodeDB.RaftNodeRpc
import NodeDB.ConfChange
import NodeDB.LeaderHint
import NodeDB.LeaseEvidence
import NodeDB.RaftDurability
import NodeDB.CommittedDelivery
import NodeDB.MajorityQuorum
import NodeDB.RaftNodeFrame
import NodeDB.MembershipSafety
import NodeDB.LockTable
import NodeDB.LockTableInvariant
import NodeDB.PendingRequests
import NodeDB.TryAcquire
import NodeDB.LockOrder
import NodeDB.SerialOrder
import NodeDB.Scheduler
import NodeDB.DeadlockFreedom
import NodeDB.KeySets
import NodeDB.ConflictMirror
import NodeDB.CycleBreaking
import NodeDB.CycleVictims
import NodeDB.ConflictIndex
import NodeDB.ConflictEdges
import NodeDB.BatchValidator
import NodeDB.RejectedCycles
import NodeDB.ReleaseReap
import NodeDB.SequencerMachine
import NodeDB.Redelivery
import NodeDB.SequencerReplay
import NodeDB.OpenTransactions
import NodeDB.CompletionRegistry
import NodeDB.VerdictAgreement
import NodeDB.CoordinatorOutcome
import NodeDB.AppliedGate
import NodeDB.ByteFrame
import NodeDB.CodecBounds
import NodeDB.Fsst
import NodeDB.FsstRoundTrip
import NodeDB.NumeralCoder
import NodeDB.Rans
import NodeDB.RansRoundTrip
import NodeDB.ArrayCells
import NodeDB.ArrayStore
import NodeDB.SparseTileRows
import NodeDB.CellVersions
import NodeDB.CeilingReads
import NodeDB.IntervalSet
import NodeDB.AppliedPrefix
import NodeDB.ArrayOps
import NodeDB.ArrayFanout
import NodeDB.ArrayOpLog
import NodeDB.ColumnData
import NodeDB.ColumnCells
import NodeDB.MutationEngine
import NodeDB.MemtableRows
import NodeDB.RowIndex
import NodeDB.LiveRows
import NodeDB.ColumnarUpdate
import NodeDB.RobinHood
import NodeDB.SlabAllocator
import NodeDB.KvTable
import NodeDB.KvProbing
import NodeDB.KvContents
import NodeDB.KvRehash
import NodeDB.KvTableMap
import NodeDB.KvTableRuns
import NodeDB.LogRetention
import NodeDB.ReplicaConvergence
import NodeDB.UpdateUndo
import NodeDB.SimultaneousUpdate
import NodeDB.DrainOrder
import NodeDB.SubscriberCursor
import NodeDB.SwimMembership
import NodeDB.LogMirror
import NodeDB.CompactionFloor
import NodeDB.LsnTimeMap
import NodeDB.BoundingBox
