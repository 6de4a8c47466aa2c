import LevelDbSurf.Recovery
import LevelDbSurf.GroupCommit
import LevelDbSurf.FileCollection

/-!
# Recovering a database (`db_impl.cc:181-503`)

| here | there |
| --- | --- |
| `newDB`             | `DBImpl::NewDB` (`:181`): the record of the first descriptor |
| `LogRead`           | what `log::Reader::ReadRecord` and `WriteBatchInternal::InsertInto` come to, record by record |
| `Recovering.writeLevel0Table` | `DBImpl::WriteLevel0Table` (`:505`), without a base version |
| `LogReading.step`, `recoverLogFile` | the loop of `DBImpl::RecoverLogFile` (`:385`), and what comes after it |
| `Directory.recover`      | `DBImpl::Recover` (`:292`), with `VersionSet::ReuseManifest` (`version_set.cc:1012`) |

The file system reports no errors. What it holds is a `Directory`: the descriptor that `CURRENT` names, log files and table
files. The 64 bits of file numbers last.
-/

namespace LevelDbSurf

variable {α : Type} [LinearOrder α]

/-! ## The directory -/

/-- A log record: the batch, and the sequence number of its first entry. -/
structure LoggedBatch (α : Type) where
  sequence : Nat
  batch : WriteBatch α

/-- What `InsertInto` makes of it. -/
def LoggedBatch.entries (r : LoggedBatch α) : List (InternalKey α × Bytes) := Database.insertInto r.sequence r.batch

/-- A log file, and how much of it `Sync` has made durable. -/
structure LogFile (α : Type) where
  number : UInt64
  records : List (LoggedBatch α) := []
  synced : Nat := 0

/-- The files of a database; `current` is the number of the descriptor, with its records. -/
structure Directory (α : Type) [LinearOrder α] where
  current : Option (UInt64 × List (VersionEdit α)) := none
  logs : List (LogFile α) := []
  tables : List UInt64 := []
  contents : UInt64 → List (InternalKey α × Bytes) := fun _ => []

/-- The options that `Open` reads. -/
structure OpenOptions where
  createIfMissing : Bool := false
  errorIfExists : Bool := false
  paranoidChecks : Bool := false
  reuseLogs : Bool := false

/-- A call of `Open`. The last log file and the descriptor can be appended to, or not; for the descriptor that means
that it is not too big, too. -/
structure OpenCall (α : Type) where
  options : OpenOptions := {}
  dbOptions : Options
  tableCache : TableCache α
  memory : WriteEnv α
  logAppendable : Bool := false
  manifestAppendable : Bool := false
  comparatorName : String := "leveldb.BytewiseComparator"
  dbname : String := ""
  tableFileName : UInt64 → String := fun _ => ""

/-- What goes wrong. -/
inductive OpenError where
  | invalidArgument (msg msg2 : String)
  | corruption (msg msg2 : String)
  | versions (e : LoggedVersionSet.RecoverError)
  | logFile (status : Status)
deriving DecidableEq

/-- `NewDB`: the record of descriptor 1. -/
def newDB (comparatorName : String) : VersionEdit α :=
  { comparator := some comparatorName, logNumber := some 0, nextFileNumber := some 2, lastSequence := some 0 }

/-! ## `RecoverLogFile` -/

/-- What comes out of a log file: bytes that are reported and left out, a record that is too small to be a batch, or a
batch, with what its header says, the entries up to the first that does not decode, and the status of `InsertInto`. -/
inductive LogRead (α : Type) where
  | corruption (status : Status)
  | small
  | batch (sequence count : Nat) (entries : WriteBatch α) (status : Status)

/-- A file as `Write` has written it. -/
def LogFile.reads (log : LogFile α) : List (LogRead α) :=
  log.records.map fun r => .batch r.sequence r.batch.length r.batch .ok

/-- What `RecoverLogFile` changes of the database; `reused` is `logfile_number_` with `mem_`. -/
structure Recovering (α : Type) [LinearOrder α] where
  contents : UInt64 → List (InternalKey α × Bytes)
  tables : List UInt64
  nextFileNumber : Nat
  edit : VersionEdit α := {}
  saveManifest : Bool
  maxSequence : Nat := 0
  reused : Option (UInt64 × List (InternalKey α × Bytes)) := none

/-- `WriteLevel0Table` with no base version, and `*save_manifest = true`. -/
def Recovering.writeLevel0Table (env : Environment α) (st : Recovering α) (mem : List (InternalKey α × Bytes)) :
    Recovering α :=
  let number := UInt64.ofNat st.nextFileNumber
  let entries := Cursors.mergeAll [mem]
  let st := { st with
    nextFileNumber := st.nextFileNumber + 1
    contents := fun n => if n = number then entries else st.contents n
    saveManifest := true }
  match buildTable number (env.fileSize entries) entries with
  | none => st
  | some f => { st with tables := st.tables ++ [number], edit := st.edit.addFile 0 f }

/-- `MarkFileNumberUsed`. -/
def Recovering.markFileNumberUsed (st : Recovering α) (number : UInt64) : Recovering α :=
  if st.nextFileNumber ≤ number.toNat then { st with nextFileNumber := number.toNat + 1 } else st

/-- The loop of `RecoverLogFile`. -/
structure LogReading (α : Type) [LinearOrder α] where
  db : Recovering α
  mem : Option (List (InternalKey α × Bytes)) := none
  compactions : Nat := 0
  status : Status := .ok

namespace LogReading

/-- `LogReporter::Corruption`. -/
def report (o : OpenOptions) (st : LogReading α) (status : Status) : LogReading α :=
  if o.paranoidChecks && st.status.isOk then { st with status } else st

/-- `MaybeIgnoreError`. -/
def maybeIgnoreError (o : OpenOptions) (status : Status) : Status :=
  if status.isOk || o.paranoidChecks then status else .ok

/-- A batch: into the memtable, and into a table if that has grown too large. `last_seq` is a `uint64_t`. -/
def insert (env : Environment α) (o : OpenCall α) (st : LogReading α) (sequence count : Nat) (entries : WriteBatch α)
    (status : Status) : LogReading α :=
  let mem := st.mem.getD [] ++ Database.insertInto sequence entries
  let st := { st with mem := some mem, status := maybeIgnoreError o.options status }
  if st.status.isOk then
    let lastSeq := (sequence + count + (2 ^ 64 - 1)) % 2 ^ 64
    let st := { st with db := { st.db with maxSequence := max st.db.maxSequence lastSeq } }
    if o.memory.approximateMemoryUsage mem > o.memory.writeBufferSize then
      { st with db := st.db.writeLevel0Table env mem, mem := none, compactions := st.compactions + 1 }
    else st
  else st

/-- One turn. After an error it would not have come to it, but for bytes that are left out on the way. -/
def step (env : Environment α) (o : OpenCall α) (st : LogReading α) : LogRead α → LogReading α
  | .corruption status => st.report o.options status
  | .small => if st.status.isOk then st.report o.options (.corruption "log record too small") else st
  | .batch sequence count entries status =>
    if st.status.isOk then st.insert env o sequence count entries status else st

end LogReading

/-- `RecoverLogFile`. -/
def recoverLogFile (env : Environment α) (o : OpenCall α) (number : UInt64) (lastLog : Bool) (reads : List (LogRead α))
    (db : Recovering α) : Except OpenError (Recovering α) :=
  let st := reads.foldl (LogReading.step env o) { db }
  if st.status.isOk then
    if o.options.reuseLogs && lastLog && decide (st.compactions = 0) && o.logAppendable then
      .ok { st.db with reused := some (number, st.mem.getD []) }
    else
      match st.mem with
      | some mem => .ok (st.db.writeLevel0Table env mem)
      | none => .ok st.db
  else .error (.logFile st.status)

/-! ## `Recover` -/

/-- The log files from `LogNumber` on, in the order they were made. -/
def liveLogs (logNumber prevLogNumber : UInt64) (logs : List (LogFile α)) : List (LogFile α) :=
  (logs.filter fun log => decide (logNumber ≤ log.number) || decide (log.number = prevLogNumber)).mergeSort
    fun a b => decide (a.number ≤ b.number)

/-- The loop over the log files. -/
def recoverLogs (env : Environment α) (o : OpenCall α) : List (LogFile α) → Recovering α →
    Except OpenError (Recovering α)
  | [], st => .ok st
  | log :: logs, st => do
    let st ← recoverLogFile env o log.number logs.isEmpty log.reads st
    recoverLogs env o logs (st.markFileNumberUsed log.number)

/-- A version set that has just been made. -/
def LoggedVersionSet.new (comparatorName : String) : LoggedVersionSet α where
  comparatorName
  current := noFiles
  compactPointer := fun _ => none
  nextFileNumber := 2
  manifestFileNumber := 0
  lastSequence := 0
  logNumber := 0
  prevLogNumber := 0
  descriptorLog := none

namespace Directory

/-- `VersionSet::Recover`, with `ReuseManifest`: the version set, and whether a new descriptor is to be written. -/
def recoverVersions (env : Environment α) (o : OpenCall α) (number : UInt64) (records : List (VersionEdit α)) :
    Except OpenError (LoggedVersionSet α × Bool) :=
  match (LoggedVersionSet.new o.comparatorName).recover env.score records with
  | .error e => .error (.versions e)
  | .ok vset =>
    if o.options.reuseLogs && o.manifestAppendable then
      .ok ({ vset with descriptorLog := some records, manifestFileNumber := number }, false)
    else .ok (vset, true)

/-- The files of the version that are not in the directory. A file of another type with the number passes, too. -/
def missing (dir : Directory α) (v : Version α) : List UInt64 :=
  v.fileNumbers.filter fun n => decide (n ∉ dir.tables ++ dir.logs.map (·.number))

/-- `Recover`, from `VersionSet::Recover` on. The next file number follows that of a new descriptor. -/
def recoverFrom (env : Environment α) (o : OpenCall α) (dir : Directory α) (number : UInt64)
    (records : List (VersionEdit α)) : Except OpenError (LoggedVersionSet α × Recovering α) := do
  let (vset, saveManifest) ← recoverVersions env o number records
  match (dir.missing vset.current).dedup with
  | n :: ns =>
    throw (.corruption (toString (n :: ns).length ++ " missing files; e.g.")
      (o.tableFileName (ns.foldl (fun m n => if n < m then n else m) n)))
  | [] =>
    let st ← recoverLogs env o (liveLogs vset.logNumber vset.prevLogNumber dir.logs)
      { contents := dir.contents
        tables := dir.tables
        nextFileNumber := (vset.nextFileNumber - 1).toNat + 1
        saveManifest }
    return ({ vset with lastSequence := max vset.lastSequence st.maxSequence }, st)

/-- `Recover`. -/
def recover (env : Environment α) (o : OpenCall α) (dir : Directory α) :
    Except OpenError (LoggedVersionSet α × Recovering α) :=
  match dir.current with
  | none =>
    if o.options.createIfMissing then dir.recoverFrom env o 1 [newDB o.comparatorName]
    else .error (.invalidArgument o.dbname "does not exist (create_if_missing is false)")
  | some (number, records) =>
    if o.options.errorIfExists then .error (.invalidArgument o.dbname "exists (error_if_exists is true)")
    else dir.recoverFrom env o number records

end Directory

end LevelDbSurf
