import LevelDbSurf.DashboardEvents
import LevelDbSurf.Lib.PlainObject

/-!
# The dashboard's summaries (`dashboard-server/src/summary-calculator.js`, `routes.js:117`)

| here | there |
| --- | --- |
| `percentile`               | the same (`summary-calculator.js:4`) |
| `Accumulators`             | the variables of the loop of `computeSummary` |
| `Accumulators.addEvent`    | one turn of it (`:49`) |
| `computeSummary`           | the same (`:14`) |
| `increment`, `pushTo`      | `counts[key] = (counts[key] \|\| 0) + 1`, and the push of a latency |
| `getSummary`               | `GET /api/summary` (`routes.js:117`) |

Numbers are exact. The objects that count are plain ones, keyed by the strings of the events: under the name of
something every object inherits a count starts with that, and a push fails.
-/

namespace LevelDbSurf.Dashboard

open PlainObjects

/-! ## The objects that count -/

/-- What an entry of `count_by_..` holds: a number, or the string that comes of adding one to something else. -/
inductive Count where
  | number (n : Nat)
  | text (s : String)
deriving DecidableEq

/-- `(.. || 0) + 1`. -/
def plusOne : Option (Property Count) → Count
  | none => .number 1
  | some (.own (.number n)) => .number (n + 1)
  | some (.own (.text s)) => if s = "" then .number 1 else .text (s ++ "1")
  | some (.inherited what) => .text (what.text ++ "1")

/-- `counts[key] = (counts[key] || 0) + 1`. -/
def increment (counts : PlainObject Count) (key : String) : PlainObject Count :=
  counts.set key (plusOne (counts.get key))

/-- A call of what is no function. -/
structure TypeError where
  message : String
deriving DecidableEq

/-- `if (!lists[key]) lists[key] = []; .. lists[key].push(value)`. -/
def pushTo (callee : String) (lists : PlainObject (List ℚ)) (entry : String × ℚ) :
    Except TypeError (PlainObject (List ℚ)) :=
  match lists.get entry.1 with
  | none => .ok (lists.set entry.1 [entry.2])
  | some (.own values) => .ok (lists.set entry.1 (values ++ [entry.2]))
  | some (.inherited _) => .error ⟨callee ++ ".push is not a function"⟩

/-! ## `computeSummary` -/

/-- `Math.round`. -/
def mathRound (x : ℚ) : Int := ⌊x + 1 / 2⌋

/-- `percentile`. -/
def percentile (data : List ℚ) (p : ℚ) : Option ℚ :=
  if data.length = 0 then none
  else
    let sorted := data.mergeSort fun a b => decide (a ≤ b)
    let index := ⌈(sorted.length : ℚ) * p / 100⌉ - 1
    sorted[(max 0 index).toNat]?

/-- `Math.round(lats.reduce((a, b) => a + b, 0) / lats.length)`. -/
def average (lats : List ℚ) : Int := mathRound (lats.sum / lats.length)

/-- A rate, to four places. -/
def rate (count total : Nat) : ℚ := mathRound ((count : ℚ) / total * 10000) / 10000

/-- `Math.round(..)` of the lists that are not empty. -/
def averages (lists : PlainObject (List ℚ)) : PlainObject Int :=
  lists.own.foldl (fun o entry => if entry.2.length > 0 then o.set entry.1 (average entry.2) else o) {}

/-- A summary. -/
structure Summary where
  totalEvents : Nat
  avgLatencyUs : Int
  p95LatencyUs : Option ℚ
  falsePositiveRate : Option ℚ
  actualMatchRate : ℚ
  filterMayMatchRate : ℚ
  totalConsidered : ℚ
  totalPruned : ℚ
  totalOpened : ℚ
  countByFilterType : PlainObject Count
  countByQueryType : PlainObject Count
  countByBenchmarkName : PlainObject Count
  avgLatencyByFilterType : PlainObject Int
  avgLatencyByQueryType : PlainObject Int
  minTimestampUs : Option ℚ
  maxTimestampUs : Option ℚ

/-- `getDefaultSummary`. -/
def getDefaultSummary : Summary where
  totalEvents := 0
  avgLatencyUs := 0
  p95LatencyUs := none
  falsePositiveRate := none
  actualMatchRate := 0
  filterMayMatchRate := 0
  totalConsidered := 0
  totalPruned := 0
  totalOpened := 0
  countByFilterType := {}
  countByQueryType := {}
  countByBenchmarkName := {}
  avgLatencyByFilterType := {}
  avgLatencyByQueryType := {}
  minTimestampUs := none
  maxTimestampUs := none

/-- The variables of the loop; no timestamp is `Infinity` or `-Infinity`. -/
structure Accumulators where
  latencies : List ℚ := []
  falsePositives : Nat := 0
  falsePositiveCount : Nat := 0
  actualMatches : Nat := 0
  filterMayMatches : Nat := 0
  latenciesByFilterType : PlainObject (List ℚ) := {}
  latenciesByQueryType : PlainObject (List ℚ) := {}
  countsByFilterType : PlainObject Count := {}
  countsByQueryType : PlainObject Count := {}
  countByBenchmarkName : PlainObject Count := {}
  totalConsidered : ℚ := 0
  totalPruned : ℚ := 0
  totalOpened : ℚ := 0
  minTimestamp : Option ℚ := none
  maxTimestamp : Option ℚ := none

namespace Event

/-- `event.filter_type || 'unknown'` and its like. -/
def nameOr (name : Option String) : String := (truthy name).getD "unknown"

def filterTypeName (event : Event ℚ) : String := nameOr event.filterType
def queryTypeName (event : Event ℚ) : String := nameOr event.queryType
def benchmarkNameName (event : Event ℚ) : String := nameOr event.benchmarkName

end Event

namespace Accumulators

/-- The latency statistics. -/
def addLatency (t : Accumulators) (event : Event ℚ) : Except TypeError Accumulators :=
  match event.latencyUs with
  | none => .ok t
  | some latency => do
    let byFilterType ← pushTo "latenciesByFilterType[ft]" t.latenciesByFilterType (event.filterTypeName, latency)
    let byQueryType ← pushTo "latenciesByQueryType[qt]" t.latenciesByQueryType (event.queryTypeName, latency)
    return { t with
      latencies := t.latencies ++ [latency], latenciesByFilterType := byFilterType, latenciesByQueryType := byQueryType }

/-- The rest of the loop's body. -/
def addCounts (t : Accumulators) (event : Event ℚ) : Accumulators :=
  { t with
    countsByFilterType := increment t.countsByFilterType event.filterTypeName
    countsByQueryType := increment t.countsByQueryType event.queryTypeName
    countByBenchmarkName := increment t.countByBenchmarkName event.benchmarkNameName
    actualMatches := t.actualMatches + if event.actualMatch = some true then 1 else 0
    filterMayMatches := t.filterMayMatches + if event.filterMayMatch = some true then 1 else 0
    falsePositiveCount := t.falsePositiveCount + if event.falsePositive.isSome then 1 else 0
    falsePositives := t.falsePositives + if event.falsePositive = some true then 1 else 0
    totalConsidered := t.totalConsidered + event.sstablesConsidered.getD 0
    totalPruned := t.totalPruned + event.sstablesPruned.getD 0
    totalOpened := t.totalOpened + event.sstablesOpened.getD 0
    minTimestamp := event.timestampUs.elim t.minTimestamp fun time => some (t.minTimestamp.elim time (min · time))
    maxTimestamp := event.timestampUs.elim t.maxTimestamp fun time => some (t.maxTimestamp.elim time (max · time)) }

/-- One event. -/
def addEvent (t : Accumulators) (event : Event ℚ) : Except TypeError Accumulators := do
  let t ← t.addLatency event
  return t.addCounts event

/-- What is made of the variables after the loop. -/
def summary (t : Accumulators) (totalEvents : Nat) : Summary where
  totalEvents := totalEvents
  avgLatencyUs := if 0 < t.latencies.length then average t.latencies else 0
  p95LatencyUs := if 0 < t.latencies.length then percentile t.latencies 95 else none
  falsePositiveRate := if 0 < t.falsePositiveCount then some (rate t.falsePositives t.falsePositiveCount) else none
  actualMatchRate := if 0 < totalEvents then rate t.actualMatches totalEvents else 0
  filterMayMatchRate := if 0 < totalEvents then rate t.filterMayMatches totalEvents else 0
  totalConsidered := t.totalConsidered
  totalPruned := t.totalPruned
  totalOpened := t.totalOpened
  countByFilterType := t.countsByFilterType
  countByQueryType := t.countsByQueryType
  countByBenchmarkName := t.countByBenchmarkName
  avgLatencyByFilterType := averages t.latenciesByFilterType
  avgLatencyByQueryType := averages t.latenciesByQueryType
  minTimestampUs := t.minTimestamp
  maxTimestampUs := t.maxTimestamp

end Accumulators

/-- `computeSummary`. -/
def computeSummary (events : List (Event ℚ)) : Except TypeError Summary :=
  if events.length = 0 then .ok getDefaultSummary
  else do
    let t ← events.foldlM Accumulators.addEvent {}
    return t.summary events.length

/-- The answer of `GET /api/summary`: `overall` and one summary under each source's name, or a single one. -/
inductive SummaryResponse where
  | all (overall : Summary) (sources : List (String × Summary))
  | one (summary : Summary)

/-- `response[sourceName] = computeSummary(..)`. -/
def sourceSummary (state : State ℚ) (sourceName : String) : Except TypeError (String × Summary) := do
  return (sourceName, ← computeSummary (getEventsForSource state sourceName))

/-- `GET /api/summary`. -/
def getSummary (state : State ℚ) (source : Option String) : Except TypeError SummaryResponse :=
  let source := (truthy source).getD "all"
  if source = "all" then do
    let overall ← computeSummary (getEventsForSource state "all")
    let names := (state.sources.map Prod.fst).mergeSort fun a b => decide (a ≤ b)
    let sources ← names.mapM (sourceSummary state)
    return .all overall sources
  else return .one (← computeSummary (getEventsForSource state source))

end LevelDbSurf.Dashboard
