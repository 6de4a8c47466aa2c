import LevelDbSurf.Format
import LevelDbSurf.FilterBlock
import LevelDbSurf.FilterBlockProofs
import LevelDbSurf.FilterBlockContract
import LevelDbSurf.SurfFilter
import LevelDbSurf.SurfContract
import LevelDbSurf.Lib.Cursor
import LevelDbSurf.Lib.Merge
import LevelDbSurf.Lib.Search
import LevelDbSurf.TwoLevelIterator
import LevelDbSurf.Table
import LevelDbSurf.TableCache
import LevelDbSurf.Version
import LevelDbSurf.VersionIterators
import LevelDbSurf.OneBlockTable
import LevelDbSurf.RangeScan
import LevelDbSurf.DBImpl
import LevelDbSurf.RangeFilterContract
import LevelDbSurf.Snapshot
import LevelDbSurf.Resurrection
import LevelDbSurf.VersionGet
import LevelDbSurf.FileSearch
import LevelDbSurf.VersionEdit
import LevelDbSurf.FileLookup
import LevelDbSurf.PointReads
import LevelDbSurf.Compaction
import LevelDbSurf.CompactionInputs
import LevelDbSurf.Recovery
import LevelDbSurf.CompactionClosure
import LevelDbSurf.CompactionWork
import LevelDbSurf.CompactionWorkProofs
import LevelDbSurf.CompactionView
import LevelDbSurf.BackgroundWork
import LevelDbSurf.LevelInvariants
import LevelDbSurf.LevelRuns
import LevelDbSurf.LevelOrder
import LevelDbSurf.FilterMetrics
import LevelDbSurf.QueryEvents
import LevelDbSurf.FalsePositives
import LevelDbSurf.RangeScanEvents
import LevelDbSurf.BenchmarkRun
import LevelDbSurf.GroupCommit
import LevelDbSurf.GroupCommitOrder
import LevelDbSurf.ForcedFlush
import LevelDbSurf.FileCollection
import LevelDbSurf.FileRemovals
import LevelDbSurf.OverlapClosure
import LevelDbSurf.CompactionStart
import LevelDbSurf.TwoLevelCalls
import LevelDbSurf.Lib.Numeral
import LevelDbSurf.BenchmarkKeys
import LevelDbSurf.OriginalFilterBlock
import LevelDbSurf.DashboardEvents
import LevelDbSurf.DashboardSummary
import LevelDbSurf.SummaryLoop
import LevelDbSurf.SummarySources
import LevelDbSurf.Lib.Json
import LevelDbSurf.MetricsFile
import LevelDbSurf.MetricsPipeline
import LevelDbSurf.Lib.Lending
import LevelDbSurf.OwningIterator
import LevelDbSurf.TableHandles
import LevelDbSurf.HandleOwners
import LevelDbSurf.ScanBounds
import LevelDbSurf.ApproximateSizes
import LevelDbSurf.SeekCharges
import LevelDbSurf.FilterTypeStats
import LevelDbSurf.Lib.Versions
import LevelDbSurf.StoredVersions
import LevelDbSurf.StoreSteps
import LevelDbSurf.DatabaseReads
import LevelDbSurf.SharedDatabase
import LevelDbSurf.MapRefinement
import LevelDbSurf.SnapshotReads
import LevelDbSurf.OpenDatabase
import LevelDbSurf.DurableDatabase
import LevelDbSurf.DescriptorRecords
import LevelDbSurf.RecoveredTables
import LevelDbSurf.LoggedEdits
import LevelDbSurf.StoredTables
import LevelDbSurf.LogFiles
import LevelDbSurf.DurableSteps
import LevelDbSurf.DurableWork
import LevelDbSurf.ReopenedDatabase
import LevelDbSurf.CrashRecovery
import LevelDbSurf.SyncedWrites
import LevelDbSurf.BackgroundScheduling
import LevelDbSurf.BackgroundWakes
