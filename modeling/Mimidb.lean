import Mimidb.LWLatchWakeup
import Mimidb.TransactionSound
import Mimidb.HandlerSound
import Mimidb.ExtendSound
import Mimidb.HeapTableScanSound
import Mimidb.HeapLayout
import Mimidb.BufferTransparent
import Mimidb.BufferPin
import Mimidb.CommitDurability
import Mimidb.EvictionDurability
import Mimidb.OwnWrites
import Mimidb.HeapSlots
import Mimidb.ScanItems
import Mimidb.PageLatches
import Mimidb.WorkerSessions
import Mimidb.Rollback
import Mimidb.VersionRun
import Mimidb.LaterPages
import Mimidb.LWLatchExclusion
import Mimidb.TransactionLatch
import Mimidb.FreeStack
import Mimidb.WalSound
import Mimidb.FlushedPages
import Mimidb.TupleCodec
import Mimidb.UndoLogFile
import Mimidb.BufferFailure
import Mimidb.RowRun
import Mimidb.RowStacks
import Mimidb.RowWrites
import Mimidb.RowInvariant
import Mimidb.LostUpdates
import Mimidb.MovedRows
import Mimidb.PoolLockOrder
import Mimidb.PoolEviction
import Mimidb.PacketStream
import Mimidb.TransactionWait
import Mimidb.SessionState
import Mimidb.QueryReplies
import Mimidb.PageInsert
import Mimidb.TableInsert
import Mimidb.InsertDone
import Mimidb.UndoPointers
import Mimidb.UndoRestart
import Mimidb.RelFile
import Mimidb.GhostHit
import Mimidb.DirtyState
import Mimidb.LWLatchGrants
import Mimidb.LWLatchChecks
import Mimidb.ListRuns
import Mimidb.UndoInverse
import Mimidb.IoHandover
import Mimidb.HitRace
import Mimidb.BufferAvailable
import Mimidb.LatchPins
import Mimidb.LWLatchTokens
import Mimidb.WalFile
import Mimidb.LogAppends
import Mimidb.UndoParse
import Mimidb.TupleImages
import Mimidb.AttrLoops
import Mimidb.PacketDecoding
import Mimidb.Expressions
import Mimidb.StoredValues
import Mimidb.WakeupLists
import Mimidb.UpdateScanSound
import Mimidb.BoolExpression
import Mimidb.BufferLock
import Mimidb.PlanNames
import Mimidb.RowWaits
import Mimidb.RowDeadlocks
import Mimidb.CommitOrder
import Mimidb.SnapshotStore
import Mimidb.RowSnapshots
import Mimidb.SnapshotRefinement
import Mimidb.ByteRefinement
import Mimidb.RepeatedReads
import Mimidb.ConnectionLockstep
