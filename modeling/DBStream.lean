import DBStream.ForStd.BinaryHeap
import DBStream.ForStd.BinarySearch
import DBStream.ForStd.BitFields
import DBStream.ForStd.Bytes
import DBStream.ForStd.Codec
import DBStream.ForStd.Decimal
import DBStream.ForStd.DiskImage
import DBStream.ForStd.Except
import DBStream.ForStd.Fifo
import DBStream.ForStd.Grouping
import DBStream.ForStd.JsonText
import DBStream.ForStd.LinkedCells
import DBStream.ForStd.LinkedRing
import DBStream.ForStd.ListEdit
import DBStream.ForStd.Loops
import DBStream.ForStd.Moves
import DBStream.ForStd.Option
import DBStream.ForStd.RawMemory
import DBStream.ForStd.SortedMap
import DBStream.ForStd.ThreeWay
import DBStream.Native.AppendingBlock
import DBStream.Native.AppendingIndex
import DBStream.Native.BinlogFile
import DBStream.Native.Block
import DBStream.Native.BlockIndex
import DBStream.Native.Charset
import DBStream.Native.ClusterLog
import DBStream.Native.ClusterLogFile
import DBStream.Native.ClusterLogIterator
import DBStream.Native.ClusterLogLoad
import DBStream.Native.ClusterRef
import DBStream.Native.ColumnParser
import DBStream.Native.Constraint
import DBStream.Native.DDLRecord
import DBStream.Native.DMLRecord
import DBStream.Native.Database
import DBStream.Native.DatabaseIterator
import DBStream.Native.DatabasePurge
import DBStream.Native.IndexKey
import DBStream.Native.IndexStatements
import DBStream.Native.JsonColumn
import DBStream.Native.KVRow
import DBStream.Native.KWaySortIterator
import DBStream.Native.KeyMeta
import DBStream.Native.Load
import DBStream.Native.MemChannel
import DBStream.Native.MetaData
import DBStream.Native.MetaTimeline
import DBStream.Native.PageReader
import DBStream.Native.PageTable
import DBStream.Native.Record
import DBStream.Native.RecordIterator
import DBStream.Native.RecordRow
import DBStream.Native.Recovery
import DBStream.Native.Redo
import DBStream.Native.Ref
import DBStream.Native.RingFixedQueue
import DBStream.Native.RowEventParser
import DBStream.Native.SolidBlock
import DBStream.Native.SolidFile
import DBStream.Native.SolidIndex
import DBStream.Native.SolidIterator
import DBStream.Native.SqlLiterals
import DBStream.Native.SqlLoader
import DBStream.Native.SqlParser
import DBStream.Native.SqlWord
import DBStream.Native.TableCreation
import DBStream.Native.TableIdTree
import DBStream.Native.TableRenames
import DBStream.Native.TimeTypes
import DBStream.Native.UnionKeyBytes
import DBStream.Spec.Addressing
import DBStream.Spec.AlterFailure
import DBStream.Spec.AppendSteps
import DBStream.Spec.BinaryOrder
import DBStream.Spec.BinlogPosition
import DBStream.Spec.BinlogReplay
import DBStream.Spec.BinlogWriter
import DBStream.Spec.BlockContents
import DBStream.Spec.BlockForms
import DBStream.Spec.BlockIndexes
import DBStream.Spec.BlockLayout
import DBStream.Spec.BlockRefs
import DBStream.Spec.BlockSummary
import DBStream.Spec.CheckpointForms
import DBStream.Spec.CheckpointSeek
import DBStream.Spec.ClusterLogClosed
import DBStream.Spec.ClusterLogCommits
import DBStream.Spec.ClusterLogFiles
import DBStream.Spec.ClusterLogFind
import DBStream.Spec.ClusterLogLayout
import DBStream.Spec.ClusterLogMark
import DBStream.Spec.ClusterLogReading
import DBStream.Spec.ClusterLogReopen
import DBStream.Spec.ClusterLogRestart
import DBStream.Spec.ClusterLogReturns
import DBStream.Spec.ClusterLogRollback
import DBStream.Spec.ClusterLogRuns
import DBStream.Spec.ClusterLogSeek
import DBStream.Spec.ClusterRefSound
import DBStream.Spec.ColumnLayout
import DBStream.Spec.ColumnPlacement
import DBStream.Spec.ColumnSlots
import DBStream.Spec.ConflictChains
import DBStream.Spec.DDLRoundTrip
import DBStream.Spec.DMLOldValues
import DBStream.Spec.DMLRecordRoom
import DBStream.Spec.DMLRoundTrip
import DBStream.Spec.DatabaseRuns
import DBStream.Spec.DecimalText
import DBStream.Spec.EqualMetas
import DBStream.Spec.FinishedBlocks
import DBStream.Spec.FixedIndexCorrect
import DBStream.Spec.HeapCorrect
import DBStream.Spec.HeapQueue
import DBStream.Spec.IndexAdding
import DBStream.Spec.IndexEntries
import DBStream.Spec.IndexFind
import DBStream.Spec.IndexKeys
import DBStream.Spec.IndexNulls
import DBStream.Spec.IndexPage
import DBStream.Spec.IndexRoom
import DBStream.Spec.IndexStatementEquiv
import DBStream.Spec.InsertTermination
import DBStream.Spec.ItoaCorrect
import DBStream.Spec.JsonCorrect
import DBStream.Spec.JsonEncoding
import DBStream.Spec.JsonRendered
import DBStream.Spec.JsonWritten
import DBStream.Spec.KVRollback
import DBStream.Spec.KVRowCommit
import DBStream.Spec.KVRowLock
import DBStream.Spec.KVRowRuns
import DBStream.Spec.KVRowSteps
import DBStream.Spec.KVRowTwin
import DBStream.Spec.KWayMerge
import DBStream.Spec.KeyCalls
import DBStream.Spec.KeyDrops
import DBStream.Spec.KeyEdits
import DBStream.Spec.KeySummary
import DBStream.Spec.KeysFollow
import DBStream.Spec.LoadCorrect
import DBStream.Spec.MemChannelFifo
import DBStream.Spec.MetaPurge
import DBStream.Spec.MetaTimelineCorrect
import DBStream.Spec.PageAccounting
import DBStream.Spec.PageBytes
import DBStream.Spec.PageRefs
import DBStream.Spec.PageTableMap
import DBStream.Spec.PurgePrefix
import DBStream.Spec.RecordIds
import DBStream.Spec.RecordIteration
import DBStream.Spec.RecoveryCorrect
import DBStream.Spec.RedoFaults
import DBStream.Spec.RedoFile
import DBStream.Spec.Refusal
import DBStream.Spec.RingQueueFifo
import DBStream.Spec.RowEventDecode
import DBStream.Spec.RowEventImage
import DBStream.Spec.RowEventRecords
import DBStream.Spec.RowEventRoom
import DBStream.Spec.ScanCorrect
import DBStream.Spec.SharedPages
import DBStream.Spec.SolidCorrect
import DBStream.Spec.SolidFileCorrect
import DBStream.Spec.SolidImage
import DBStream.Spec.SolidSearch
import DBStream.Spec.SqlLiterals
import DBStream.Spec.SqlLoads
import DBStream.Spec.SqlMatch
import DBStream.Spec.SqlParse
import DBStream.Spec.SqlReturns
import DBStream.Spec.TableCreationCorrect
import DBStream.Spec.TableEdits
import DBStream.Spec.TableIdNodes
import DBStream.Spec.TableIdTreeCorrect
import DBStream.Spec.TableRenamesCorrect
import DBStream.Spec.TableSummaries
import DBStream.Spec.TimeColumns
import DBStream.Spec.TimeOrder
import DBStream.Spec.TimeText
import DBStream.Spec.TimestampSeek
import DBStream.Spec.TruthfulKeys
import DBStream.Spec.UnionKeyOrder
import DBStream.Spec.UnionKeyRoom
import DBStream.Spec.VarIndexCorrect
