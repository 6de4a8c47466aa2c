import LevelDbSurf.Lib.Double
import LevelDbSurf.Lib.StableSort

/-!
# The dashboard's events (`dashboard-server/src/server.js`, `routes.js`)

| here | there |
| --- | --- |
| `Event`                        | a line of a metrics file; a field is absent where it is missing or of another type |
| `loadMetrics`                  | `loadMetrics` (`server.js:24`) |
| `compareEventsByTimestamp`     | the same (`routes.js:7`); no result is `NaN` |
| `getEventsForSource`           | the same (`:18`), without its messages |
| `EventsQuery.getEvents`        | `GET /api/events` (`:147`) |
| `sort`                         | `Array.prototype.sort`, which is stable and takes `NaN` for zero |
| `slice`, `parseInt`            | `Array.prototype.slice` with one argument, `parseInt` in base ten |

The numbers are a parameter: doubles here, exact ones where the numbers are added up.
-/

namespace LevelDbSurf.Dashboard

open Doubles StableSort

/-! ## The state -/

/-- An event, with the source `loadMetrics` adds. -/
structure Event (ν : Type) where
  source : String
  queryId : Option ν := none
  benchmarkName : Option String := none
  filterType : Option String := none
  queryType : Option String := none
  latencyUs : Option ν := none
  timestampUs : Option ν := none
  queryLo : Option String := none
  queryHi : Option String := none
  actualMatch : Option Bool := none
  filterMayMatch : Option Bool := none
  falsePositive : Option Bool := none
  sstablesConsidered : Option ν := none
  sstablesPruned : Option ν := none
  sstablesOpened : Option ν := none
deriving DecidableEq

/-- An entry of `state.sources`. -/
structure Source (ν : Type) where
  filePath : String
  events : List (Event ν)
  totalLines : Nat
  malformedLines : Nat

/-- `state.sources`, in the order of its keys. -/
structure State (ν : Type) where
  sources : List (String × Source ν) := []

/-- The variables of the environment; `METRICS_FILE` has a default. -/
structure Environment where
  metricsFileBloom : Option String := none
  metricsFileSurf : Option String := none
  metricsFile : String

/-- A string that is there and not empty. -/
def truthy (value : Option String) : Option String := value.filter fun s => s ≠ ""

/-- `sourcesToLoad`. -/
def Environment.sourcesToLoad (env : Environment) : List (String × String) :=
  let bloom := (truthy env.metricsFileBloom).toList.map fun file => ("bloom", file)
  let surf := (truthy env.metricsFileSurf).toList.map fun file => ("surf", file)
  let default :=
    if truthy env.metricsFileBloom = none ∧ truthy env.metricsFileSurf = none ∧ env.metricsFile ≠ "" then
      [("default", env.metricsFile)]
    else []
  bloom ++ surf ++ default

/-- `loadMetrics`, for what `parseJsonlFile` makes of the files. -/
def loadMetrics {ν : Type} (parseJsonlFile : String → Source ν) (env : Environment) : State ν where
  sources := env.sourcesToLoad.map fun (name, filePath) =>
    let result := parseJsonlFile filePath
    (name, { result with filePath, events := result.events.map fun event => { event with source := name } })

/-- A source is there under one name, and none is called `overall` or `all`. -/
theorem loadMetrics_names {ν : Type} (parseJsonlFile : String → Source ν) (env : Environment) :
    ((loadMetrics parseJsonlFile env).sources.map Prod.fst).Sublist ["bloom", "surf", "default"] := by
  have hnames : (loadMetrics parseJsonlFile env).sources.map Prod.fst = env.sourcesToLoad.map Prod.fst := by
    simp [loadMetrics, Function.comp_def]
  rw [hnames, Environment.sourcesToLoad]
  cases truthy env.metricsFileBloom <;> cases truthy env.metricsFileSurf <;> by_cases h : env.metricsFile = "" <;>
    simp [h]

section Source
variable {ν : Type}

/-- `getEventsForSource`. -/
def getEventsForSource (state : State ν) (source : String) : List (Event ν) :=
  if source = "all" then state.sources.flatMap fun entry => entry.2.events
  else
    match state.sources.find? fun entry => entry.1 = source with
    | some (_, sourceEntry) => sourceEntry.events
    | none => []

end Source

/-! ## The order of the events -/

/-- `compareEventsByTimestamp`. -/
def compareEventsByTimestamp (a b : Event Number) : Option Number :=
  let aTime := a.timestampUs.getD .posInfinity
  let bTime := b.timestampUs.getD .posInfinity
  if aTime ≠ bTime then aTime.sub bTime
  else
    let aId := a.queryId.getD 0
    let bId := b.queryId.getD 0
    aId.sub bId

/-- What a comparator's result says: not the other way around. -/
def notAfter : Option Number → Bool
  | some v => decide (v ≤ 0)
  | none => true

/-- `sort`. -/
def sort {α : Type} (compare : α → α → Option Number) (l : List α) : List α :=
  l.mergeSort fun a b => notAfter (compare a b)

theorem notAfter_sub_iff {a b : Number} (h : a ≠ b) : notAfter (a.sub b) = true ↔ a ≤ b := by
  obtain ⟨d, hd, hpos, -⟩ := Number.sub_of_ne h
  rw [hd, notAfter, decide_eq_true_eq, ← not_lt, hpos, not_lt]

theorem notAfter_sub_self (a : Number) : notAfter (a.sub a) = true := by
  rcases Number.sub_self a with h | h <;> simp [h, notAfter]

/-- The time, and the id where times are equal. -/
def timeAndId (e : Event Number) : Number ×ₗ Number := toLex (e.timestampUs.getD .posInfinity, e.queryId.getD 0)

/-- **`compareEventsByTimestamp`** compares by time and then by id. -/
theorem compareEventsByTimestamp_iff (a b : Event Number) :
    notAfter (compareEventsByTimestamp a b) = true ↔ timeAndId a ≤ timeAndId b := by
  simp only [compareEventsByTimestamp, timeAndId, Prod.Lex.toLex_le_toLex]
  by_cases htime : a.timestampUs.getD .posInfinity = b.timestampUs.getD .posInfinity
  · simp only [htime, ne_eq, not_true, if_false, lt_irrefl, true_and, false_or]
    by_cases hid : a.queryId.getD 0 = b.queryId.getD 0
    · simp [hid, notAfter_sub_self]
    · exact notAfter_sub_iff hid
  · simp only [htime, ne_eq, not_false_iff, if_true, false_and, or_false, notAfter_sub_iff htime]
    exact ⟨fun h => lt_of_le_of_ne h htime, le_of_lt⟩

/-- A comparator `sort` may be given: it orders, and exchanging its arguments turns the sign. -/
structure ConsistentComparator {α : Type} (compare : α → α → Option Number) : Prop where
  order : Consistent fun a b => notAfter (compare a b)
  symm : ∀ a b, (∃ v, compare a b = some v ∧ v < 0) ↔ notAfter (compare b a) = false

theorem sub_neg_iff (a b : Number) : (∃ v, a.sub b = some v ∧ v < 0) ↔ notAfter (b.sub a) = false := by
  rw [← Bool.not_eq_true]
  by_cases h : a = b
  · subst h
    rcases Number.sub_self a with hs | hs <;> simp [hs, notAfter]
  · obtain ⟨d, hd, -, hneg⟩ := Number.sub_of_ne h
    rw [notAfter_sub_iff (Ne.symm h), not_le, ← hneg, hd]
    simp

theorem compareEventsByTimestamp_consistent : ConsistentComparator compareEventsByTimestamp where
  order := Consistent.of_key timeAndId compareEventsByTimestamp_iff
  symm a b := by
    by_cases htime : a.timestampUs.getD .posInfinity = b.timestampUs.getD .posInfinity
    · simpa [compareEventsByTimestamp, htime] using sub_neg_iff _ _
    · simpa [compareEventsByTimestamp, htime, Ne.symm htime] using sub_neg_iff _ _

/-! ## `GET /api/events` -/

/-- The white space `parseInt` skips. -/
def whiteSpace : List Nat :=
  [9, 10, 11, 12, 13, 32, 160, 5760, 8192, 8193, 8194, 8195, 8196, 8197, 8198, 8199, 8200, 8201, 8202, 8232, 8233,
    8239, 8287, 12288, 65279]

/-- `parseInt`; none is `NaN`. -/
def parseInt (text : List Char) : Option Int :=
  let text := text.dropWhile fun c => whiteSpace.contains c.toNat
  let (sign, text) : Int × List Char :=
    match text with
    | '-' :: text => (-1, text)
    | '+' :: text => (1, text)
    | text => (1, text)
  let digits := text.takeWhile Char.isDigit
  if digits = [] then none else some (sign * (digits.foldl (fun n c => 10 * n + (c.toNat - 48)) 0 : Nat))

/-- `slice`. -/
def slice {α : Type} (l : List α) (start : Int) : List α :=
  if start < 0 then l.drop (l.length + start).toNat else l.drop start.toNat

/-- The parameters of the query. -/
structure EventsQuery where
  source : Option String := none
  filterType : Option String := none
  queryType : Option String := none
  benchmarkName : Option String := none
  limit : Option String := none

/-- The answer. -/
structure EventsResponse where
  events : List (Event Number)
  count : Nat

/-- One of the filters: nothing without the parameter, or for `all`. -/
def applyFilter (parameter : Option String) (field : Event Number → Option String) (events : List (Event Number)) :
    List (Event Number) :=
  match truthy parameter with
  | some value => if value ≠ "all" then events.filter fun e => field e = some value else events
  | none => events

namespace EventsQuery

/-- `req.query.source || 'all'`. -/
def sourceOrAll (query : EventsQuery) : String := (truthy query.source).getD "all"

/-- The events of the source that pass the filters. -/
def matching (query : EventsQuery) (state : State Number) : List (Event Number) :=
  let events := getEventsForSource state query.sourceOrAll
  let events := applyFilter query.filterType (·.filterType) events
  let events := applyFilter query.queryType (·.queryType) events
  applyFilter query.benchmarkName (·.benchmarkName) events

/-- `parseInt(req.query.limit, 10)`; a missing parameter reads `undefined`. -/
def limitNumber (query : EventsQuery) : Option Int := parseInt (query.limit.getD "undefined").toList

/-- `.. || events.length`. -/
def limitOr (query : EventsQuery) (length : Nat) : Int :=
  match query.limitNumber with
  | some limit => if limit = 0 then length else limit
  | none => length

/-- `GET /api/events`. -/
def getEvents (query : EventsQuery) (state : State Number) : EventsResponse :=
  let source := query.sourceOrAll
  let events := query.matching state
  let limit := query.limitOr events.length
  let events :=
    if limit < events.length ∨ source = "all" then sort compareEventsByTimestamp events else events
  let events := slice events (-limit)
  { events, count := events.length }

end EventsQuery

/-! ## The most recent events -/

section Recent
variable {α : Type}

/-- A negative start counts from the end. -/
theorem slice_neg (l : List α) {n : Nat} (hn : 0 < n) : slice l (-(n : Int)) = l.rtake n := by
  have hlength : ((l.length : Int) + -(n : Int)).toNat = l.length - n := by omega
  rw [slice, if_pos (by omega), hlength, List.rtake]

@[simp] theorem length_sort (compare : α → α → Option Number) (l : List α) : (sort compare l).length = l.length :=
  List.length_mergeSort l

theorem rtake_min {l s : List α} (h : s.length = l.length) (n : Nat) : s.rtake (min n l.length) = s.rtake n := by
  rw [List.rtake, List.rtake]
  congr 1
  omega

theorem rtake_of_length_le {l : List α} {n : Nat} (h : l.length ≤ n) : l.rtake n = l := by
  simp [List.rtake, Nat.sub_eq_zero_of_le h]

/-- Fewer elements from the end are the end of more. -/
theorem rtake_suffix_rtake (l : List α) {n k : Nat} (h : n ≤ k) : l.rtake n <:+ l.rtake k := by
  have hdrop : l.length - n = (l.length - k) + (l.length - n - (l.length - k)) := by omega
  rw [List.rtake, List.rtake, hdrop, ← List.drop_drop]
  exact List.drop_suffix _ _

end Recent

namespace EventsQuery
variable {limit : Nat}

/-- Whether the handler sorts. -/
def Sorts (query : EventsQuery) (state : State Number) (limit : Nat) : Prop :=
  query.sourceOrAll = "all" ∨ limit < (query.matching state).length

/-- With a positive limit: the end of the sorted events, or of the unsorted ones. -/
theorem getEvents_events (query : EventsQuery) (state : State Number) (hpos : 0 < limit)
    (hlimit : query.limitNumber = some (limit : Int)) :
    (Sorts query state limit → (query.getEvents state).events =
        (sort compareEventsByTimestamp (query.matching state)).rtake limit) ∧
      (¬ Sorts query state limit → (query.getEvents state).events = query.matching state) := by
  have hlimitOr : query.limitOr (query.matching state).length = limit := by
    simp [limitOr, hlimit, hpos.ne']
  have hsorts : (limit : Int) < (query.matching state).length ∨ query.sourceOrAll = "all" ↔
      Sorts query state limit := by
    rw [Sorts, or_comm, Nat.cast_lt]
  simp only [getEvents, hlimitOr, slice_neg _ hpos]
  constructor
  · intro h
    rw [if_pos (hsorts.2 h)]
  · intro h
    rw [if_neg (mt hsorts.1 h)]
    refine rtake_of_length_le ?_
    simp only [Sorts, not_or, not_lt] at h
    exact h.2

end EventsQuery

/-- The answers to a query with a positive limit: the last of the sorted events, or, where the handler does not
sort, all of them as they stand. -/
structure AnswersRecent (state : State Number) (query : EventsQuery) (limit : Nat) : Prop where
  comparator : ConsistentComparator compareEventsByTimestamp
  count : (query.getEvents state).count = (query.getEvents state).events.length
  length : (query.getEvents state).events.length = min limit (query.matching state).length
  sorted : query.Sorts state limit → ∀ s,
    IsStableSort (fun a b => notAfter (compareEventsByTimestamp a b)) (query.matching state) s →
      (query.getEvents state).events = s.rtake (min limit (query.matching state).length)
  whole : ¬ query.Sorts state limit → (query.getEvents state).events = query.matching state
  /-- These are the last of the sorted events if they stand in order. -/
  whole_iff : ¬ query.Sorts state limit → ∀ s,
    IsStableSort (fun a b => notAfter (compareEventsByTimestamp a b)) (query.matching state) s →
      ((query.getEvents state).events = s.rtake (min limit (query.matching state).length) ↔
        (query.matching state).Pairwise fun a b => notAfter (compareEventsByTimestamp a b) = true)
  /-- A greater limit adds events at the front, unless only the smaller one sorts. -/
  suffix : ∀ text (limit' : Nat), limit ≤ limit' → parseInt text.toList = some (limit' : Int) →
    (query.Sorts state limit → query.Sorts state limit') →
      (query.getEvents state).events <:+ (({ query with limit := some text } : EventsQuery).getEvents state).events

/-- **`GET /api/events`** with a positive limit. -/
theorem getEvents_answersRecent (state : State Number) (query : EventsQuery) (limit : Nat) (hpos : 0 < limit)
    (hlimit : query.limitNumber = some (limit : Int)) : AnswersRecent state query limit := by
  obtain ⟨hsorted, hwhole⟩ := query.getEvents_events state hpos hlimit
  refine ⟨compareEventsByTimestamp_consistent, rfl, ?_, ?_, hwhole, ?_, ?_⟩
  · by_cases h : query.Sorts state limit
    · rw [hsorted h, List.rtake, List.length_drop, length_sort]
      omega
    · rw [hwhole h]
      simp only [EventsQuery.Sorts, not_or, not_lt] at h
      omega
  · intro h s hs
    have hsort := isStableSort_mergeSort compareEventsByTimestamp_consistent.order (query.matching state)
    rw [hsorted h, hs.unique compareEventsByTimestamp_consistent.order hsort]
    exact (rtake_min (length_sort _ _) limit).symm
  · intro h s hs
    have hsort := isStableSort_mergeSort compareEventsByTimestamp_consistent.order (query.matching state)
    have hlength : s.length = (query.matching state).length := by
      rw [hs.unique compareEventsByTimestamp_consistent.order hsort, List.length_mergeSort]
    simp only [EventsQuery.Sorts, not_or, not_lt] at h
    rw [hwhole (by simpa [EventsQuery.Sorts] using h), rtake_min hlength,
      rtake_of_length_le (hlength.trans_le h.2), ← IsStableSort.self_iff]
    exact ⟨fun heq => heq ▸ hs, fun hself => hself.unique compareEventsByTimestamp_consistent.order hs⟩
  · intro text limit' hle htext hsorts
    obtain ⟨hsorted', hwhole'⟩ := EventsQuery.getEvents_events { query with limit := some text } state
      (hpos.trans_le hle) htext
    by_cases h : query.Sorts state limit
    · rw [hsorted h, hsorted' (hsorts h)]
      exact rtake_suffix_rtake _ hle
    · have h' : ¬ EventsQuery.Sorts { query with limit := some text } state limit' := by
        intro h'
        refine h (h'.imp_right fun hlt => ?_)
        exact hle.trans_lt hlt
      rw [hwhole h, hwhole' h']
      exact List.suffix_rfl

namespace SampleEvents

/-- Two threads: the later event comes first in the file. -/
def late : Event Number := { source := "", queryId := some (.finite 0), timestampUs := some (.finite 2) }
def early : Event Number := { source := "", queryId := some (.finite 1), timestampUs := some (.finite 1) }

def state : State Number :=
  loadMetrics (fun filePath => ⟨filePath, [late, early], 2, 0⟩) { metricsFileBloom := some "bloom.jsonl", metricsFile := "" }

def query (limit : String) : EventsQuery := { source := some "bloom", limit := some limit }

end SampleEvents

theorem getEvents_answersRecent_one : AnswersRecent SampleEvents.state (SampleEvents.query "1") 1 :=
  getEvents_answersRecent _ _ 1 (by decide) (by decide)

/-- With room for all events of one source, they come as they stand in the file. -/
theorem events_as_they_stand :
    ¬ ∀ (state : State Number) (query : EventsQuery) (limit : Nat), 0 < limit → query.limitNumber = some (limit : Int) →
      ∀ s, IsStableSort (fun a b => notAfter (compareEventsByTimestamp a b)) (query.matching state) s →
        (query.getEvents state).events = s.rtake (min limit (query.matching state).length) := by
  intro h
  have hsort := isStableSort_mergeSort compareEventsByTimestamp_consistent.order
    ((SampleEvents.query "2").matching SampleEvents.state)
  have hevents := h SampleEvents.state (SampleEvents.query "2") 2 (by decide) (by decide) _ hsort
  have hwhole := ((SampleEvents.query "2").getEvents_events SampleEvents.state
    (show 0 < 2 by decide) (by decide)).2 (by simp [EventsQuery.Sorts]; decide)
  rw [hwhole, rtake_min (List.length_mergeSort _), rtake_of_length_le (by rw [List.length_mergeSort]; decide)] at hevents
  have hordered := hsort.pairwise
  rw [← hevents] at hordered
  have hle := (compareEventsByTimestamp_iff _ _).1 (List.rel_of_pairwise_cons hordered (List.mem_singleton_self _))
  simp [timeAndId, SampleEvents.late, SampleEvents.early, Prod.Lex.toLex_le_toLex] at hle

end LevelDbSurf.Dashboard
