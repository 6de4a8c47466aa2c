import LevelDbSurf.BackgroundWork
import LevelDbSurf.FalsePositives
import LevelDbSurf.RangeScanEvents

/-!
# A run of the benchmark (`db_bench.cc`)

| here | there |
| --- | --- |
| `methodOf`              | the names `Benchmark::Run` (`:711`) knows: the method and `fresh_db` |
| `Benchmark.prepare`     | a fresh database, and the compaction before the first read (`:843-876`) |
| `Benchmark.step`        | what the threads of a benchmark do to the database, one action at a time |
| `Benchmark.run`         | the loop over `FLAGS_benchmarks` |

Actions of the threads come in any order, and the background thread may work between any two. The keys and the
bounds are whatever the random draws give. A hit in a memtable consults no filter, so a measured read must be one
the memtables do not answer by themselves (`Action.Served`, `run_noFalseNegative_iff`).
-/

namespace LevelDbSurf

open Cursors

variable {α : Type} [LinearOrder α]

/-! ## The database -/

section Databases
variable [Slice α] [Coding] [TableFormat]

/-- The tables of an open database: sorted levels, different numbers, and files that can be read. -/
structure Tables (α : Type) [LinearOrder α] [Slice α] [Coding] [TableFormat] where
  current : Version α
  tableCache : TableCache α
  sortedLevels : current.SortedLevels
  distinct : (current.allFiles.map (·.number)).Nodup
  readable : current.Readable tableCache
  parses : ∀ level, ∀ f ∈ current.files level, ∀ x ∈ fileEntries tableCache f, (parseInternalKey x.1).isSome

/-- An open database. The memtables are in key order. -/
structure OpenDB (α : Type) [LinearOrder α] [Slice α] [Coding] [TableFormat] where
  mem : List (InternalKey α × Bytes)
  imm : Option (List (InternalKey α × Bytes))
  lastSequence : Nat
  tables : Tables α
  memSorted : Sorted mem
  immSorted : ∀ m, imm = some m → Sorted m

namespace OpenDB

def toDBImpl (db : OpenDB α) : DBImpl α where
  mem := db.mem
  imm := db.imm
  current := db.tables.current
  lastSequence := db.lastSequence
  tableCache := db.tables.tableCache

theorem sortedMem (db : OpenDB α) : db.toDBImpl.SortedMem := ⟨db.memSorted, db.immSorted⟩

/-- A new database. -/
def fresh (tableCache : TableCache α) : OpenDB α where
  mem := []
  imm := none
  lastSequence := 0
  tables :=
    { current := { files := fun _ => [] }
      tableCache
      sortedLevels := fun _ _ => List.Pairwise.nil
      distinct := by
        have hnone : (List.range' 1 (kNumLevels - 1)).flatMap (fun _ => ([] : List (FileMetaData α))) = [] := by
          simp [List.flatMap_eq_nil_iff]
        simp [Version.allFiles, hnone]
      readable := by rintro level f ⟨⟩
      parses := by rintro level f ⟨⟩ }
  memSorted := List.Pairwise.nil
  immSorted := by rintro m ⟨⟩

/-- `Write`. -/
def write (db : OpenDB α) (batch : List (α × ValueType × Bytes)) : OpenDB α :=
  { db with
    mem := mergeAll [db.mem, Database.insertInto (db.lastSequence + 1) batch]
    lastSequence := db.lastSequence + batch.length
    memSorted := mergeAll_sorted _ }

/-- A new memtable, in `MakeRoomForWrite`. -/
def switchMemTable (db : OpenDB α) : Option (OpenDB α) :=
  if db.imm = none then
    some { db with
      mem := [], imm := some db.mem, memSorted := List.Pairwise.nil
      immSorted := by
        rintro m ⟨⟩
        exact db.memSorted }
  else none

/-- The background thread has installed a version; `flushed` if it was one with `imm_`. -/
def install (db : OpenDB α) (tables : Tables α) (flushed : Bool) : OpenDB α :=
  { db with
    tables
    imm := if flushed then none else db.imm
    immSorted := by
      intro m hm
      cases flushed with
      | true => cases hm
      | false => exact db.immSorted m hm }

/-- `CompactRange(nullptr, nullptr)`, while nobody else uses the database: the memtable is flushed, and these are
the tables in the end. -/
def compactRange (db : OpenDB α) (tables : Tables α) : OpenDB α where
  mem := []
  imm := none
  lastSequence := db.lastSequence
  tables
  memSorted := List.Pairwise.nil
  immSorted := by rintro m ⟨⟩

end OpenDB

end Databases

/-! ## Names and methods -/

/-- The methods `Run` may pick. -/
inductive Method where
  | openBench
  | writeSeq
  | writeRandom
  | readSequential
  | readReverse
  | readRandom
  | readMissing
  | seekRandom
  | seekOrdered
  | suRFRangeScan (benchmarkName : String) (missPct rangeWidth : Int)
  | readHot
  | deleteSeq
  | deleteRandom
  | readWhileWriting
  | compact
  | crc32c
  | snappyCompress
  | snappyUncompress
  | zstdCompress
  | zstdUncompress
deriving DecidableEq, Repr

/-- The method for a name, and `fresh_db`. -/
def methodOf (name : String) : Option Method × Bool :=
  if name = "open" then (some .openBench, false)
  else if name = "fillseq" then (some .writeSeq, true)
  else if name = "fillbatch" then (some .writeSeq, true)
  else if name = "fillrandom" then (some .writeRandom, true)
  else if name = "overwrite" then (some .writeRandom, false)
  else if name = "fillsync" then (some .writeRandom, true)
  else if name = "fill100K" then (some .writeRandom, true)
  else if name = "readseq" then (some .readSequential, false)
  else if name = "readreverse" then (some .readReverse, false)
  else if name = "readrandom" then (some .readRandom, false)
  else if name = "readmissing" then (some .readMissing, false)
  else if name = "seekrandom" then (some .seekRandom, false)
  else if name = "seekordered" then (some .seekOrdered, false)
  else if name = "surfscan" ∨ name = "surfscan100" then (some (.suRFRangeScan "surfscan100" 100 10), false)
  else if name = "surfscan75" then (some (.suRFRangeScan "surfscan75" 75 10), false)
  else if name = "surfscan50" then (some (.suRFRangeScan "surfscan50" 50 10), false)
  else if name = "surfscan25" then (some (.suRFRangeScan "surfscan25" 25 10), false)
  else if name = "surfscan0" then (some (.suRFRangeScan "surfscan0" 0 10), false)
  else if name = "surfscan_wide" then (some (.suRFRangeScan "surfscan_wide" 100 100), false)
  else if name = "readhot" then (some .readHot, false)
  else if name = "readrandomsmall" then (some .readRandom, false)
  else if name = "deleteseq" then (some .deleteSeq, false)
  else if name = "deleterandom" then (some .deleteRandom, false)
  else if name = "readwhilewriting" then (some .readWhileWriting, false)
  else if name = "compact" then (some .compact, false)
  else if name = "crc32c" then (some .crc32c, false)
  else if name = "snappycomp" then (some .snappyCompress, false)
  else if name = "snappyuncomp" then (some .snappyUncompress, false)
  else if name = "zstdcomp" then (some .zstdCompress, false)
  else if name = "zstduncomp" then (some .zstdUncompress, false)
  else (none, false)  -- "heapprofile", "stats", "sstables", and names it does not know

/-- The names before which the first time a compaction is made. -/
def compactsFirst : List String :=
  ["readseq", "readreverse", "readrandom", "readmissing", "readhot", "seekrandom", "seekordered", "surfscan",
    "surfscan0", "surfscan25", "surfscan50", "surfscan75", "surfscan100", "surfscan_wide"]

namespace Method

/-- What its batches put in. -/
def writes : Method → Option ValueType
  | writeSeq | writeRandom | readWhileWriting => some .value
  | deleteSeq | deleteRandom => some .deletion
  | _ => none

/-- It may have the memtable switched: by a write, a compaction, or by opening the database again. -/
def switches (m : Method) : Bool := m.writes.isSome || m = compact || m = openBench

/-- The name under which it records `point_get` events. -/
def pointReads : Method → Option String
  | readRandom | readWhileWriting => some "readrandom"
  | readMissing => some "readmissing"
  | readHot => some "readhot"
  | _ => none

/-- The name under which it records `range_scan` events. -/
def rangeScans : Method → Option String
  | suRFRangeScan benchmarkName _ _ => some benchmarkName
  | _ => none

/-- The name and query type of the events it records without counters. -/
def otherReads : Method → Option (String × String)
  | readSequential => some ("readseq", "sequential_scan")
  | readReverse => some ("readreverse", "reverse_scan")
  | seekRandom => some ("seekrandom", "point_seek")
  | seekOrdered => some ("seekordered", "point_seek")
  | _ => none

end Method

/-! ## Runs -/

section Runs
variable [Slice α] [Coding] [TableFormat]

/-- What a thread, or the background thread, does next. The times are those of the clock around a read. -/
inductive Action (α : Type) [LinearOrder α] [Slice α] [Coding] [TableFormat] where
  | write (batch : List (α × ValueType × Bytes))
  | switchMemTable
  | background (tables : Tables α) (flushed : Bool)
  | pointGet (key : α) (start finish : Int)
  | rangeScan (lo hi : α) (nexts : List Nat) (start finish : Int)
  | otherRead (ok : Bool) (start finish : Int)

/-- The flags a run depends on here. -/
structure Flags where
  filter : String := "bloom"
  useExistingDb : Bool := false
  metricsOut : Bool := false

/-- `Benchmark`, and the static `compacted_for_metrics` of `Run`. -/
structure Benchmark (α : Type) [LinearOrder α] [Slice α] [Coding] [TableFormat] where
  db : OpenDB α
  log : MetricsLog := {}
  compactedForMetrics : Bool := false

/-- One name of `FLAGS_benchmarks`, with what happens meanwhile: the table cache of the database that may be made,
the tables the compaction may leave, and the actions of the threads. -/
structure Stage (α : Type) [LinearOrder α] [Slice α] [Coding] [TableFormat] where
  name : String
  freshCache : TableCache α
  compacted : Tables α
  actions : List (Action α) := []

namespace Benchmark

/-- The benchmark before `Run`, on this database. -/
def start (flags : Flags) (db : OpenDB α) : Benchmark α :=
  { db, log := { writer := if flags.metricsOut then some [] else none } }

variable (M : Merger (InternalKey α) Bytes) (D : DBIterators α) (flags : Flags)

/-- One action under this method. -/
def step (method : Method) (b : Benchmark α) : Action α → Option (Benchmark α)
  | .write batch =>
    if ∃ type, method.writes = some type ∧ ∀ entry ∈ batch, entry.2.1 = type then some { b with db := b.db.write batch }
    else none
  | .switchMemTable => if method.switches then b.db.switchMemTable.map fun db => { b with db } else none
  | .background tables flushed => some { b with db := b.db.install tables flushed }
  | .pointGet key start finish =>
    method.pointReads.map fun benchmarkName =>
      let (ok, counters) := b.db.toDBImpl.pointGet key []
      { b with log := b.log.recordQueryEvent flags.filter benchmarkName "point_get" none none ok (finish - start) finish
                (some counters) }
  | .rangeScan lo hi nexts start finish =>
    match method.rangeScans with
    | none => none
    | some benchmarkName =>
      if bounded lo hi then
        (b.db.toDBImpl.rangeScan M D lo hi nexts).map fun (scanned, counters) =>
          { b with log := b.log.recordQueryEvent flags.filter benchmarkName "range_scan" (some (Slice.data lo))
                    (some (Slice.data hi)) (decide (scanned > 0)) (finish - start) finish (some counters) }
      else none
  | .otherRead ok start finish =>
    method.otherReads.map fun (benchmarkName, queryType) =>
      { b with log := b.log.recordQueryEvent flags.filter benchmarkName queryType none none ok (finish - start) finish none }

/-- `Run`, for one name, up to `RunBenchmark`: the method, if it is not skipped. -/
def prepare (b : Benchmark α) (stage : Stage α) : Option Method × Benchmark α :=
  let (method, freshDb) := methodOf stage.name
  let (method, b) :=
    if freshDb then
      if flags.useExistingDb then (none, b) else (method, { b with db := OpenDB.fresh stage.freshCache })
    else (method, b)
  if flags.metricsOut && method.isSome && !b.compactedForMetrics && decide (stage.name ∈ compactsFirst) then
    (method, { b with db := b.db.compactRange stage.compacted, compactedForMetrics := true })
  else (method, b)

/-- The threads of one benchmark. -/
def runActions (method : Method) (b : Benchmark α) (actions : List (Action α)) : Option (Benchmark α) :=
  actions.foldlM (step M D flags method) b

/-- `Run`, for one name. -/
def runStage (b : Benchmark α) (stage : Stage α) : Option (Benchmark α) :=
  match b.prepare flags stage with
  | (none, b) => some b
  | (some method, b) => b.runActions M D flags method stage.actions

/-- `Run`. -/
def run (b : Benchmark α) (stages : List (Stage α)) : Option (Benchmark α) := stages.foldlM (runStage M D flags) b

end Benchmark

/-! ## Served reads -/

/-- The memtables do not have a value of the key. -/
def DBImpl.PointServed (db : DBImpl α) (key : α) : Prop := ∀ v, db.memtablesGet key db.lastSequence ≠ some (some v)

/-- A measured read is one the memtables do not answer by themselves. -/
def Action.Served (db : OpenDB α) : Action α → Prop
  | .pointGet key _ _ => db.toDBImpl.PointServed key
  | .rangeScan lo hi _ _ _ => db.toDBImpl.ScanServed lo hi
  | _ => True

namespace Benchmark
variable (M : Merger (InternalKey α) Bytes) (D : DBIterators α) (flags : Flags)

/-- All reads of these actions are, each in the state it finds. -/
def ServedActions (method : Method) : Benchmark α → List (Action α) → Prop
  | _, [] => True
  | b, action :: actions =>
    action.Served b.db ∧ ∀ b', b.step M D flags method action = some b' → ServedActions method b' actions

/-- All reads of a run are. -/
def ServedRun : Benchmark α → List (Stage α) → Prop
  | _, [] => True
  | b, stage :: stages =>
    (∀ method b₁, b.prepare flags stage = (some method, b₁) → b₁.ServedActions M D flags method stage.actions) ∧
      ∀ b', b.runStage M D flags stage = some b' → ServedRun b' stages

end Benchmark

/-- **A point read** that finds the key opens a block, iff no memtable has the value. -/
theorem DBImpl.pointGet_opened_iff {db : DBImpl α} (hr : db.current.Readable db.tableCache)
    (hparse : ∀ level, ∀ f ∈ db.current.files level, ∀ x ∈ fileEntries db.tableCache f, (parseInternalKey x.1).isSome)
    (key : α) :
    ((db.pointGet key []).1 = true → 0 < (db.pointGet key []).2.opened) ↔ db.PointServed key := by
  unfold PointServed
  cases hmem : db.memtablesGet key db.lastSequence with
  | none =>
    rw [pointGet_tables hmem hr hparse, opened_pos_iff]
    simp only [ne_eq, reduceCtorEq, not_false_eq_true, implies_true, iff_true]
    intro hfound
    obtain ⟨v, hv⟩ := Option.isSome_iff_exists.1 hfound
    obtain ⟨d, hd, -⟩ := Option.bind_eq_some_iff.1 hv
    have hblocks := Version.consulted_cases (hr.get_answer hparse key db.lastSequence {}) []
    rw [hd] at hblocks
    obtain ⟨t, handleValue, -, hopen, hblocks⟩ := hblocks
    have hconsulted : db.consulted key [] = _ := hblocks
    exact ⟨{ table := t, handleValue, key := lookupKey key db.lastSequence }, by simp [hconsulted], hopen⟩
  | some answer =>
    have hget : db.pointGet key [] = (answer.isSome, {}) := by
      have hsnapshot : db.snapshotOf {} = db.lastSequence := rfl
      unfold pointGet DBImpl.get
      rw [hsnapshot]
      dsimp only
      rw [hmem]
      cases answer <;> rfl
    rw [hget]
    cases answer <;> simp

namespace Benchmark

variable {M : Merger (InternalKey α) Bytes} {D : DBIterators α} {flags : Flags} {method : Method} {b b' : Benchmark α}

omit [LinearOrder α] [Slice α] [Coding] [TableFormat] in
theorem recordQueryEvent_writer {log : MetricsLog} {lines : List QueryEvent} (h : log.writer = some lines)
    (filterType benchmarkName queryType : String) (lo hi : Option Bytes) (actualMatch : Bool)
    (latencyUs timestampUs : Int) (counters : Option MetricsCounters) :
    (log.recordQueryEvent filterType benchmarkName queryType lo hi actualMatch latencyUs timestampUs counters).writer =
      some (lines ++ [queryEvent log.nextQueryId filterType benchmarkName queryType lo hi actualMatch latencyUs
        timestampUs counters]) := by
  simp [MetricsLog.recordQueryEvent, h]

/-- **One action** writes no event, or one that shows no false negative iff the read is served. -/
theorem step_events {action : Action α} (h : b.step M D flags method action = some b') {lines : List QueryEvent}
    (hlines : b.log.writer = some lines) :
    ∃ new, b'.log.writer = some (lines ++ new) ∧ ((∀ e ∈ new, e.NoFalseNegative) ↔ action.Served b.db) := by
  cases action with
  | write batch =>
    simp only [step] at h
    split at h
    · cases h
      exact ⟨[], by simp [hlines], by simp [Action.Served]⟩
    · cases h
  | switchMemTable =>
    simp only [step] at h
    split at h
    · obtain ⟨db, -, rfl⟩ := Option.map_eq_some_iff.1 h
      exact ⟨[], by simp [hlines], by simp [Action.Served]⟩
    · cases h
  | background tables flushed =>
    cases h
    exact ⟨[], by simp [hlines], by simp [Action.Served]⟩
  | pointGet key start finish =>
    simp only [step] at h
    obtain ⟨benchmarkName, -, rfl⟩ := Option.map_eq_some_iff.1 h
    refine ⟨_, recordQueryEvent_writer hlines _ _ _ _ _ _ _ _ _, ?_⟩
    simp only [List.mem_singleton, forall_eq]
    rw [queryEvent_noFalseNegative_iff (Or.inl rfl)]
    exact DBImpl.pointGet_opened_iff b.db.tables.readable b.db.tables.parses key
  | rangeScan lo hi nexts start finish =>
    simp only [step] at h
    split at h
    · cases h
    · rename_i benchmarkName _
      split at h
      · rename_i hb
        obtain ⟨⟨scanned, counters⟩, hscan, rfl⟩ := Option.map_eq_some_iff.1 h
        refine ⟨_, recordQueryEvent_writer hlines _ _ _ _ _ _ _ _ _, ?_⟩
        simp only [List.mem_singleton, forall_eq]
        have hevent : b.db.toDBImpl.rangeScanEvent M D b.log.nextQueryId flags.filter benchmarkName lo hi nexts start
            finish = some _ := Option.map_eq_some_iff.2 ⟨_, hscan, rfl⟩
        exact DBImpl.rangeScanEvent_noFalseNegative_iff M D b.db.sortedMem b.db.tables.sortedLevels b.db.tables.readable
          b.db.tables.distinct hb hevent
      · cases h
  | otherRead ok start finish =>
    simp only [step] at h
    obtain ⟨⟨benchmarkName, queryType⟩, hmethod, rfl⟩ := Option.map_eq_some_iff.1 h
    refine ⟨_, recordQueryEvent_writer hlines _ _ _ _ _ _ _ _ _, ?_⟩
    have htype : queryType ≠ "point_get" ∧ queryType ≠ "range_scan" := by
      cases method <;> simp [Method.otherReads] at hmethod <;> obtain ⟨-, rfl⟩ := hmethod <;> decide
    simp [Action.Served, QueryEvent.NoFalseNegative, queryEvent, htype]

/-- **The actions** of one benchmark. -/
theorem runActions_events {actions : List (Action α)} (h : b.runActions M D flags method actions = some b')
    {lines : List QueryEvent} (hlines : b.log.writer = some lines) :
    ∃ new, b'.log.writer = some (lines ++ new) ∧
      ((∀ e ∈ new, e.NoFalseNegative) ↔ b.ServedActions M D flags method actions) := by
  induction actions generalizing b lines with
  | nil =>
    obtain rfl := Option.some.inj h
    exact ⟨[], by simp [hlines], by simp [ServedActions]⟩
  | cons action actions ih =>
    unfold runActions at h
    rw [List.foldlM_cons] at h
    obtain ⟨b₁, hstep, hrest⟩ := Option.bind_eq_some_iff.1 h
    obtain ⟨new, hnew, hserved⟩ := step_events hstep hlines
    obtain ⟨later, hlater, hserved'⟩ := ih hrest hnew
    refine ⟨new ++ later, by simp [hlater], ?_⟩
    unfold ServedActions
    rw [← hserved]
    simp only [List.mem_append, or_imp, forall_and]
    rw [hserved']
    constructor
    · rintro ⟨hhere, hthere⟩
      refine ⟨hhere, fun b₂ hb₂ => ?_⟩
      obtain rfl := Option.some.inj (hstep.symm.trans hb₂)
      exact hthere
    · rintro ⟨hhere, hthere⟩
      exact ⟨hhere, hthere b₁ hstep⟩

/-- What comes before the threads writes no event. -/
theorem prepare_log (flags : Flags) (b : Benchmark α) (stage : Stage α) : (b.prepare flags stage).2.log = b.log := by
  unfold prepare
  dsimp only
  by_cases hfresh : (methodOf stage.name).2 = true
  · by_cases hexisting : flags.useExistingDb = true
    · simp [hfresh, hexisting]
    · simp only [hfresh, hexisting, if_true, Bool.false_eq_true, if_false]
      split <;> rfl
  · simp only [hfresh, Bool.false_eq_true, if_false]
    split <;> rfl

/-- **One name.** -/
theorem runStage_events {stage : Stage α} (h : b.runStage M D flags stage = some b') {lines : List QueryEvent}
    (hlines : b.log.writer = some lines) :
    ∃ new, b'.log.writer = some (lines ++ new) ∧ ((∀ e ∈ new, e.NoFalseNegative) ↔
      ∀ method b₁, b.prepare flags stage = (some method, b₁) → b₁.ServedActions M D flags method stage.actions) := by
  have hlog := prepare_log flags b stage
  unfold runStage at h
  cases hprepare : b.prepare flags stage with
  | mk method b₁ =>
    rw [hprepare] at h hlog
    cases method with
    | none =>
      cases h
      exact ⟨[], by rw [hlog, hlines, List.append_nil], by simp⟩
    | some method =>
      obtain ⟨new, hnew, hserved⟩ := runActions_events h (hlog.symm ▸ hlines)
      exact ⟨new, hnew, by simp [hserved]⟩

/-- **Run.** -/
theorem run_events {stages : List (Stage α)} (h : b.run M D flags stages = some b') {lines : List QueryEvent}
    (hlines : b.log.writer = some lines) :
    ∃ new, b'.log.writer = some (lines ++ new) ∧
      ((∀ e ∈ new, e.NoFalseNegative) ↔ b.ServedRun M D flags stages) := by
  induction stages generalizing b lines with
  | nil =>
    obtain rfl := Option.some.inj h
    exact ⟨[], by simp [hlines], by simp [ServedRun]⟩
  | cons stage stages ih =>
    unfold run at h
    rw [List.foldlM_cons] at h
    obtain ⟨b₁, hstage, hrest⟩ := Option.bind_eq_some_iff.1 h
    obtain ⟨new, hnew, hserved⟩ := runStage_events hstage hlines
    obtain ⟨later, hlater, hserved'⟩ := ih hrest hnew
    refine ⟨new ++ later, by simp [hlater], ?_⟩
    unfold ServedRun
    rw [← hserved]
    simp only [List.mem_append, or_imp, forall_and]
    rw [hserved']
    constructor
    · rintro ⟨hhere, hthere⟩
      refine ⟨hhere, fun b₂ hb₂ => ?_⟩
      obtain rfl := Option.some.inj (hstage.symm.trans hb₂)
      exact hthere
    · rintro ⟨hhere, hthere⟩
      exact ⟨hhere, hthere b₁ hstage⟩

end Benchmark

/-- **No false negatives.** For every list of benchmarks run with `--metrics_out`, on any database, with any filters
and any actions of the threads: all measured events that found something say that a filter said it might, iff
every measured read of the run is one the memtables do not answer by themselves. -/
theorem run_noFalseNegative_iff (M : Merger (InternalKey α) Bytes) (D : DBIterators α) (flags : Flags)
    (hmetrics : flags.metricsOut = true) (db : OpenDB α) (stages : List (Stage α)) {b : Benchmark α}
    (hrun : (Benchmark.start flags db).run M D flags stages = some b) :
    (∀ lines, b.log.writer = some lines → ∀ e ∈ lines, e.NoFalseNegative) ↔
      (Benchmark.start flags db).ServedRun M D flags stages := by
  have hstart : (Benchmark.start flags db).log.writer = some [] := by simp [Benchmark.start, hmetrics]
  obtain ⟨new, hnew, hserved⟩ := Benchmark.run_events hrun hstart
  rw [← hserved, hnew, List.nil_append]
  simp

/-! ## What the compaction before the first read is good for -/

/-- The memtables are empty. -/
def OpenDB.Quiet (db : OpenDB α) : Prop := db.mem = [] ∧ ∀ m, db.imm = some m → m = []

/-- A benchmark that makes no database and writes nothing. -/
def ReadOnly (name : String) : Prop :=
  (methodOf name).2 = false ∧ ∀ method, (methodOf name).1 = some method → method.writes = none

theorem OpenDB.Quiet.served {db : OpenDB α} (h : db.Quiet) (action : Action α) : action.Served db := by
  obtain ⟨hmem, himm⟩ := h
  have hnone : ∀ m, db.imm = some m → m = [] := himm
  cases action with
  | pointGet key start finish =>
    intro v
    unfold DBImpl.memtablesGet memTableGet OpenDB.toDBImpl
    cases hi : db.imm with
    | none => simp [hmem, newest]
    | some m => simp [hmem, himm m hi, newest]
  | rangeScan lo hi nexts start finish =>
    left
    intro u _ _
    have hentries : db.toDBImpl.memtables = [] := by
      unfold DBImpl.memtables OpenDB.toDBImpl
      cases hi : db.imm with
      | none => simp [hmem, mergeAll]
      | some m => simp [hmem, himm m hi, mergeAll]
    simp [hentries, live, newest]
  | _ => trivial

namespace Benchmark
variable {M : Merger (InternalKey α) Bytes} {D : DBIterators α} {flags : Flags} {method : Method} {b b' : Benchmark α}

/-- **One action** that writes nothing keeps them empty. -/
theorem quiet_step (hwrites : method.writes = none) (h : b.db.Quiet) {action : Action α}
    (hstep : b.step M D flags method action = some b') : b'.db.Quiet := by
  obtain ⟨hmem, himm⟩ := h
  cases action with
  | write batch => simp [step, hwrites] at hstep
  | switchMemTable =>
    simp only [step] at hstep
    split at hstep
    · obtain ⟨db, hdb, rfl⟩ := Option.map_eq_some_iff.1 hstep
      unfold OpenDB.switchMemTable at hdb
      split at hdb
      · cases hdb
        exact ⟨rfl, by rintro m ⟨⟩; exact hmem⟩
      · cases hdb
    · cases hstep
  | background tables flushed =>
    cases hstep
    refine ⟨hmem, fun m hm => ?_⟩
    cases flushed with
    | true => cases hm
    | false => exact himm m hm
  | pointGet key start finish =>
    obtain ⟨name, -, rfl⟩ := Option.map_eq_some_iff.1 hstep
    exact ⟨hmem, himm⟩
  | rangeScan lo hi nexts start finish =>
    simp only [step] at hstep
    split at hstep
    · cases hstep
    · split at hstep
      · obtain ⟨r, -, rfl⟩ := Option.map_eq_some_iff.1 hstep
        exact ⟨hmem, himm⟩
      · cases hstep
  | otherRead ok start finish =>
    obtain ⟨name, -, rfl⟩ := Option.map_eq_some_iff.1 hstep
    exact ⟨hmem, himm⟩

theorem quiet_actions (hwrites : method.writes = none) (h : b.db.Quiet) (actions : List (Action α)) :
    b.ServedActions M D flags method actions ∧
      ∀ b', b.runActions M D flags method actions = some b' → b'.db.Quiet := by
  induction actions generalizing b with
  | nil =>
    refine ⟨trivial, fun b' hb' => ?_⟩
    obtain rfl := Option.some.inj hb'
    exact h
  | cons action actions ih =>
    refine ⟨⟨h.served action, fun b₁ hstep => (ih (quiet_step hwrites h hstep)).1⟩, fun b' hb' => ?_⟩
    unfold runActions at hb'
    rw [List.foldlM_cons] at hb'
    obtain ⟨b₁, hstep, hrest⟩ := Option.bind_eq_some_iff.1 hb'
    exact (ih (quiet_step hwrites h hstep)).2 b' hrest

/-- Such a benchmark is run on the database it finds, or on what the compaction leaves. -/
theorem prepare_readOnly (flags : Flags) (b : Benchmark α) {stage : Stage α} (h : ReadOnly stage.name) :
    (b.prepare flags stage).1 = (methodOf stage.name).1 ∧
      (b.db.Quiet → (b.prepare flags stage).2.db.Quiet) ∧
      (flags.metricsOut = true → b.compactedForMetrics = false → stage.name ∈ compactsFirst →
        (methodOf stage.name).1.isSome = true → (b.prepare flags stage).2.db.Quiet) := by
  have hcompacted : (b.db.compactRange stage.compacted).Quiet := ⟨rfl, by rintro m ⟨⟩⟩
  unfold prepare
  simp only [h.1, Bool.false_eq_true, if_false]
  split
  · exact ⟨rfl, fun _ => hcompacted, fun _ _ _ _ => hcompacted⟩
  · rename_i hskip
    refine ⟨rfl, id, fun hmetrics hfirst hname hmethod => ?_⟩
    simp [hmetrics, hfirst, hname, hmethod] at hskip

theorem quiet_stage {stage : Stage α} (hread : ReadOnly stage.name) (h : (b.prepare flags stage).2.db.Quiet) :
    (∀ method b₁, b.prepare flags stage = (some method, b₁) → b₁.ServedActions M D flags method stage.actions) ∧
      ∀ b', b.runStage M D flags stage = some b' → b'.db.Quiet := by
  have hmethod := (prepare_readOnly flags b hread).1
  unfold runStage
  cases hprepare : b.prepare flags stage with
  | mk method b₁ =>
    rw [hprepare] at hmethod h
    cases method with
    | none =>
      refine ⟨by simp, fun b' hb' => ?_⟩
      obtain rfl := Option.some.inj hb'
      exact h
    | some method =>
      obtain ⟨hserved, hquiet⟩ := quiet_actions (hread.2 method hmethod.symm) h stage.actions
      refine ⟨fun method' b₂ heq => ?_, hquiet⟩
      cases heq
      exact hserved

theorem servedRun_of_quiet {stages : List (Stage α)} (hreads : ∀ stage ∈ stages, ReadOnly stage.name)
    (h : b.db.Quiet) : b.ServedRun M D flags stages := by
  induction stages generalizing b with
  | nil => trivial
  | cons stage stages ih =>
    have hread := hreads stage List.mem_cons_self
    obtain ⟨hserved, hquiet⟩ := quiet_stage hread ((prepare_readOnly flags b hread).2.1 h)
    exact ⟨hserved, fun b' hstage => ih (fun st hst => hreads st (List.mem_cons_of_mem _ hst)) (hquiet b' hstage)⟩

/-- **The first compaction serves the reads after it**, as long as no benchmark writes or makes a database. -/
theorem servedRun_of_readOnly {stage : Stage α} {stages : List (Stage α)} (hmetrics : flags.metricsOut = true)
    (hfirst : b.compactedForMetrics = false) (hname : stage.name ∈ compactsFirst)
    (hmethod : (methodOf stage.name).1.isSome = true) (hreads : ∀ st ∈ stage :: stages, ReadOnly st.name) :
    b.ServedRun M D flags (stage :: stages) := by
  have hread := hreads stage List.mem_cons_self
  obtain ⟨hserved, hquiet⟩ := quiet_stage hread ((prepare_readOnly flags b hread).2.2 hmetrics hfirst hname hmethod)
  exact ⟨hserved, fun b' hstage =>
    servedRun_of_quiet (fun st hst => hreads st (List.mem_cons_of_mem _ hst)) (hquiet b' hstage)⟩

end Benchmark

end Runs

/-! ### A fresh database after the compaction -/

namespace SampleRun

variable [Coding] [TableFormat]

def cache : TableCache Bytes := OneBlock.cache {} fun _ => none

/-- The first key of the benchmark: sixteen zeros. -/
def key : Bytes := List.replicate 16 48

/-- `--benchmarks=readrandom,fillrandom,readrandom --num=1` -/
def stages : List (Stage Bytes) :=
  [{ name := "readrandom", freshCache := cache, compacted := (OpenDB.fresh cache).tables
     actions := [.pointGet key 0 5] },
   { name := "fillrandom", freshCache := cache, compacted := (OpenDB.fresh cache).tables
     actions := [.write [(key, .value, [1])]] },
   { name := "readrandom", freshCache := cache, compacted := (OpenDB.fresh cache).tables
     actions := [.pointGet key 10 15] }]

def flags : Flags := { metricsOut := true }

end SampleRun

/-- The last read finds the key in the memtable, and its event says that the filter ruled it out. -/
theorem run_falseNegative :
    letI := littleEndian
    letI := smallHandles
    ∃ (b : Benchmark Bytes) (lines : List QueryEvent),
      (Benchmark.start SampleRun.flags (OpenDB.fresh SampleRun.cache)).run (Merger.ofCursors _ _) (DBIterators.ofCursors _)
          SampleRun.flags SampleRun.stages = some b ∧
        b.log.writer = some lines ∧ ¬ ∀ e ∈ lines, e.NoFalseNegative := by
  refine ⟨_, _, rfl, rfl, ?_⟩
  decide +kernel

theorem run_noFalseNegative_iff_sample :
    letI := littleEndian
    letI := smallHandles
    ∃ b : Benchmark Bytes, (∀ lines, b.log.writer = some lines → ∀ e ∈ lines, e.NoFalseNegative) ↔
      (Benchmark.start SampleRun.flags (OpenDB.fresh SampleRun.cache)).ServedRun (Merger.ofCursors _ _)
        (DBIterators.ofCursors _) SampleRun.flags SampleRun.stages := by
  let _ := littleEndian
  let _ := smallHandles
  exact ⟨_, run_noFalseNegative_iff _ _ SampleRun.flags rfl (OpenDB.fresh SampleRun.cache) SampleRun.stages rfl⟩

end LevelDbSurf
