import LevelDbSurf.FilterMetrics
import LevelDbSurf.PointReads
import LevelDbSurf.Resurrection

/-!
# Reads and the events they record

| here | there |
| --- | --- |
| `memTableGet`, `DBImpl.get` | `MemTable::Get`, `DBImpl::Get` (`db_impl.cc:1125`) |
| `QueryEvent`, `queryEvent`  | the line `Benchmark::RecordQueryEvent` builds (`db_bench.cc:652`), field by field |
| `MetricsLog.recordQueryEvent` | `RecordQueryEvent`: nothing without a writer |
| `pointGet`                  | a read of `ReadRandom`, `ReadMissing` and `ReadHot` (`:1107`) |

The clock is read before and after; the counters are new for each read. The memtable is not part of the
repository: a lookup in it finds the newest entry the snapshot may see.
-/

namespace LevelDbSurf

variable {α : Type} [LinearOrder α]

/-! ## `DBImpl::Get` -/

/-- `MemTable::Get`: `none` if it has no entry of the key, else the value, if there is one. -/
def memTableGet (mem : List (InternalKey α × Bytes)) (key : α) (snapshot : Nat) : Option (Option Bytes) :=
  (newest snapshot key mem).map liveValue

/-- What `Get` leaves behind: status, `*value` and the counters. -/
structure ReadResult where
  status : Status
  value : Bytes
  metrics : Option MetricsCounters
deriving DecidableEq

namespace DBImpl

/-- The memtables' answer: `mem_` first, then `imm_`. -/
def memtablesGet (db : DBImpl α) (key : α) (snapshot : Nat) : Option (Option Bytes) :=
  (memTableGet db.mem key snapshot).or (db.imm.bind fun imm => memTableGet imm key snapshot)

variable [Slice α] [Coding] [TableFormat]

/-- `Get`. -/
def get (db : DBImpl α) (options : ReadOptions α) (key : α) (value : Bytes)
    (metrics : Option MetricsCounters) : ReadResult :=
  let snapshot := db.snapshotOf options
  match db.memtablesGet key snapshot with
  | some (some v) => { status := .ok, value := v, metrics }
  | some none => { status := .notFound "", value, metrics }
  | none =>
    let r := db.current.get db.tableCache options key snapshot value metrics
    { status := r.status, value := r.value, metrics := r.metrics }

end DBImpl

/-! ## `RecordQueryEvent` -/

/-- A line of the metrics file. The latency is a `double` of whole microseconds. -/
structure QueryEvent where
  queryId : UInt64
  benchmarkName : String
  filterType : String
  queryType : String
  latencyUs : Int
  timestampUs : Int
  queryLo : Option Bytes
  queryHi : Option Bytes
  actualMatch : Bool
  filterMayMatch : Option Bool := none
  falsePositive : Option Bool := none
  /-- `sstables_considered`, `sstables_pruned`, `sstables_opened`. -/
  sstables : Option MetricsCounters := none
deriving DecidableEq

/-- The line for a call of `RecordQueryEvent`; `filterType` is `FLAGS_filter`. -/
def queryEvent (queryId : UInt64) (filterType benchmarkName queryType : String) (lo hi : Option Bytes)
    (actualMatch : Bool) (latencyUs timestampUs : Int) (counters : Option MetricsCounters) : QueryEvent :=
  let line : QueryEvent :=
    { queryId, benchmarkName, filterType, queryType, latencyUs, timestampUs, queryLo := lo, queryHi := hi, actualMatch }
  match counters with
  | none => line
  | some counters =>
    let line :=
      if queryType = "range_scan" then { line with filterMayMatch := some (decide (counters.opened > 0)) }
      else if queryType = "point_get" then
        { line with
          filterMayMatch := some (decide (counters.opened > 0))
          falsePositive := some (decide (counters.opened > 0) && !actualMatch) }
      else line
    { line with sstables := some counters }

/-- What the benchmark has written: `metrics_writer_` (absent without `--metrics_out`) and `next_query_id_`. -/
structure MetricsLog where
  writer : Option (List QueryEvent) := none
  nextQueryId : UInt64 := 0

/-- `RecordQueryEvent`. -/
def MetricsLog.recordQueryEvent (log : MetricsLog) (filterType benchmarkName queryType : String)
    (lo hi : Option Bytes) (actualMatch : Bool) (latencyUs timestampUs : Int) (counters : Option MetricsCounters) :
    MetricsLog :=
  match log.writer with
  | none => log
  | some lines =>
    let line := queryEvent log.nextQueryId filterType benchmarkName queryType lo hi actualMatch latencyUs timestampUs
      counters
    { writer := some (lines ++ [line]), nextQueryId := log.nextQueryId + 1 }

/-- A measured read that finds something says that a filter said it might. -/
def QueryEvent.NoFalseNegative (e : QueryEvent) : Prop :=
  (e.queryType = "point_get" ∨ e.queryType = "range_scan") → e.actualMatch = true → e.filterMayMatch = some true

instance (e : QueryEvent) : Decidable e.NoFalseNegative := inferInstanceAs (Decidable (_ → _ → _))

theorem queryEvent_noFalseNegative_iff {queryType : String} (h : queryType = "point_get" ∨ queryType = "range_scan")
    (queryId : UInt64) (filterType benchmarkName : String) (lo hi : Option Bytes) (actualMatch : Bool)
    (latencyUs timestampUs : Int) (counters : MetricsCounters) :
    (queryEvent queryId filterType benchmarkName queryType lo hi actualMatch latencyUs timestampUs
        (some counters)).NoFalseNegative ↔ (actualMatch = true → 0 < counters.opened) := by
  rcases h with rfl | rfl <;> simp [QueryEvent.NoFalseNegative, queryEvent]

/-! ## Point reads -/

section Reads
variable [Slice α] [Coding] [TableFormat]

/-- One read of `ReadRandom` and its like, at these times of the clock: whether the key was found, and the
counters. -/
def DBImpl.pointGet (db : DBImpl α) (key : α) (value : Bytes) : Bool × MetricsCounters :=
  let r := db.get {} key value (some {})
  (r.status.isOk, r.metrics.getD {})

/-- The event of such a read. -/
def DBImpl.pointGetEvent (db : DBImpl α) (queryId : UInt64) (filterType benchmarkName : String) (key : α)
    (value : Bytes) (start finish : Int) : QueryEvent :=
  let (ok, counters) := db.pointGet key value
  queryEvent queryId filterType benchmarkName "point_get" none none ok (finish - start) finish (some counters)

end Reads

end LevelDbSurf
