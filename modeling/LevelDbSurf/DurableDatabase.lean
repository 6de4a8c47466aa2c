import LevelDbSurf.OpenDatabase
import LevelDbSurf.StoreSteps

/-!
# A database that may crash (`db_impl.cc:505-580`, `:1210-1262`, `:1385-1401`, `:1507-1545`)

| here | there |
| --- | --- |
| `Directory.openDB`   | `DB::Open` (`:1507`), up to `RemoveObsoleteFiles` |
| `addRecord`, `sync` | `AddRecord` and `Sync` in `DBImpl::Write` (`:1240`) |
| `insertInto`    | `InsertInto` there, with `SetLastSequence` (`:1246-1262`) |
| `switchMemTable` | the last branch of `MakeRoomForWrite` (`:1385`), with the new log file |
| `loggedEdit`    | the edits of `CompactMemTable` (`:565`), of a trivial move (`:735`), of a merge (`:880`) |
| `background`    | a step of the background thread, and `LogAndApply` for the edit |
| `removeObsoleteFiles` | `RemoveObsoleteFiles` (`:225`), for log files and tables |
| `crashed`       | what a crash leaves behind |

A crash may come between any two steps. Tables that were being written are left behind in any state, and so are log
files that an `Open` has made and not yet entered into a descriptor. Of a log file, what has not been synced may be
lost, from its end on, by whole records: none is left torn. The journal of a run is what has been logged and not lost.
-/

namespace LevelDbSurf

open Cursors Versions

variable {α : Type} [LinearOrder α]

/-- `DBImpl`, with the version set as `LogAndApply` sees it, and the files. `logging` is a record that is in the log
file and not in the memtable yet. -/
structure DurableDatabase (α : Type) [LinearOrder α] where
  db : Database α
  versions : LoggedVersionSet α
  logFileNumber : UInt64
  logs : List (LogFile α)
  tables : List UInt64
  logging : Option (LoggedBatch α) := none

/-- `NewWritableFile`, for a log file. -/
def newLogFile (number : UInt64) (logs : List (LogFile α)) : List (LogFile α) :=
  logs.filter (fun log => decide (log.number ≠ number)) ++ [{ number := number }]

/-- `Open`. -/
def Directory.openDB (env : Environment α) (o : OpenCall α) (dir : Directory α) :
    Except OpenError (DurableDatabase α) := do
  let (vset, st) ← dir.recover env o
  let newNumber := UInt64.ofNat st.nextFileNumber
  let (logFileNumber, mem) := st.reused.getD (newNumber, [])
  let nextFileNumber := if st.reused.isSome then st.nextFileNumber else st.nextFileNumber + 1
  let vset := { vset with nextFileNumber := UInt64.ofNat nextFileNumber }
  let vset :=
    if st.saveManifest then
      vset.logAndApply env.score { st.edit with prevLogNumber := some 0, logNumber := some logFileNumber }
    else vset
  return {
    db :=
      { vset :=
          { options := o.dbOptions, tableCache := o.tableCache, current := vset.current
            compactPointer := vset.compactPointer }
        contents := st.contents
        nextFileNumber
        mem
        lastSequence := vset.lastSequence }
    versions := vset
    logFileNumber
    logs := if st.reused.isSome then dir.logs else newLogFile newNumber dir.logs
    tables := st.tables }

/-- What a crash decides: how many records of each log file are left, and what else there is: new log files, tables,
and what is in the tables no version has. -/
structure Crash (α : Type) where
  kept : UInt64 → Nat
  newLogs : List UInt64 := []
  newTables : List UInt64 := []
  leftovers : UInt64 → List (InternalKey α × Bytes) := fun _ => []

inductive DurableEvent (α : Type) [LinearOrder α] where
  | addRecord (batch : WriteBatch α)
  | sync
  | insertInto
  | switchMemTable
  | background (event : DatabaseEvent α)
  | removeObsoleteFiles (live : List UInt64)
  | crash (c : Crash α) (o : OpenCall α)

namespace DurableDatabase

/-- Something is done with the log file that is written to. -/
def onLogFile (s : DurableDatabase α) (f : LogFile α → LogFile α) : DurableDatabase α :=
  { s with logs := s.logs.map fun log => if log.number = s.logFileNumber then f log else log }

/-- `AddRecord`. -/
def addRecord (s : DurableDatabase α) (batch : WriteBatch α) : Option (DurableDatabase α) :=
  if s.logging.isNone ∧ s.db.lastSequence + batch.length < kMaxSequenceNumber then
    let r : LoggedBatch α := { sequence := s.db.lastSequence + 1, batch }
    some { s.onLogFile (fun log => { log with records := log.records ++ [r] }) with logging := some r }
  else none

/-- `logfile_->Sync()`. -/
def sync (s : DurableDatabase α) : Option (DurableDatabase α) :=
  some (s.onLogFile fun log => { log with synced := log.records.length })

/-- `InsertInto`, and `SetLastSequence`. -/
def insertInto (s : DurableDatabase α) : Option (DurableDatabase α) :=
  s.logging.bind fun r => (s.db.write r.batch).map fun db => { s with db, logging := none }

/-- A new log file, and a new memtable. -/
def switchMemTable (s : DurableDatabase α) : Option (DurableDatabase α) :=
  if s.logging.isNone then
    s.db.switchMemTable.map fun db =>
      { s with db, logFileNumber := s.db.newFileNumber, logs := newLogFile s.db.newFileNumber s.logs }
  else none

/-- The edit of a trivial move, if the compaction is one. -/
def moveEdit (s : DurableDatabase α) (isManual : Bool) (r : Option (Option (Compaction α × VersionSet α))) :
    Option (VersionEdit α) :=
  match r with
  | some (some (c, _)) =>
    match c.inputs0 with
    | f :: _ => if !isManual && c.isTrivialMove s.db.vset.options then some (c.moveEdit f) else none
    | [] => none
  | _ => none

/-- The edit a step of the background thread logs. -/
def loggedEdit (s : DurableDatabase α) : DatabaseEvent α → Option (VersionEdit α)
  | .compactMemTable fileSize => s.db.imm.map fun imm =>
      { s.db.writeLevel0Table fileSize (mergeAll [imm]) with
        prevLogNumber := some 0, logNumber := some s.logFileNumber }
  | .pickCompaction _ => s.moveEdit false s.db.vset.pickCompaction
  | .compactRange level begin_ end_ _ => s.moveEdit true (s.db.vset.compactRange level begin_ end_)
  | .installCompaction => s.db.running.map fun r => r.job.compaction.installResults r.outputs
  | _ => none

/-- The background thread does all but writes and switches of memtables; a snapshot is never of what is not written. -/
def allows (s : DurableDatabase α) : DatabaseEvent α → Bool
  | .write _ => false
  | .switchMemTable => false
  | .pickCompaction smallestSnapshot => decide (smallestSnapshot ≤ s.db.lastSequence)
  | .compactRange _ _ _ smallestSnapshot => decide (smallestSnapshot ≤ s.db.lastSequence)
  | _ => true

/-- A step of the background thread. -/
def background (env : Environment α) (s : DurableDatabase α) (event : DatabaseEvent α) : Option (DurableDatabase α) :=
  if s.allows event then
    (s.db.step env event).map fun db =>
      match s.loggedEdit event with
      | none => { s with db }
      | some edit =>
        let versions := { s.versions with
          nextFileNumber := UInt64.ofNat db.nextFileNumber
          lastSequence := s.db.lastSequence
          compactPointer := db.vset.compactPointer }
        { s with
          db
          versions := versions.logAndApply env.score edit
          tables := s.tables ++ edit.newFiles.map fun e => e.2.number }
  else none

/-- `RemoveObsoleteFiles`; `live` are the tables of other versions, and those that are being written. -/
def removeObsoleteFiles (s : DurableDatabase α) (live : List UInt64) : Option (DurableDatabase α) :=
  some { s with
    logs := s.logs.filter fun log =>
      decide (s.versions.logNumber ≤ log.number) || decide (log.number = s.versions.prevLogNumber)
    tables := s.tables.filter fun n => decide (n ∈ s.db.vset.current.fileNumbers ++ live) }

/-! ## Crashes -/

/-- What is synced is kept; new log files come after those there are. -/
def Allows (s : DurableDatabase α) (c : Crash α) : Prop :=
  (∀ log ∈ s.logs, log.synced ≤ c.kept log.number) ∧ c.newLogs.Pairwise (· < ·) ∧
    ∀ n ∈ c.newLogs, ∀ log ∈ s.logs, log.number < n

instance (s : DurableDatabase α) (c : Crash α) : Decidable (s.Allows c) :=
  -- not by going through all 64-bit numbers
  have : Decidable (∀ n ∈ c.newLogs, ∀ log ∈ s.logs, log.number < n) := List.decidableBAll _ _
  inferInstanceAs (Decidable (_ ∧ _ ∧ _))

/-- The log files that are left. -/
def crashedLogs (s : DurableDatabase α) (c : Crash α) : List (LogFile α) :=
  (s.logs.map fun log => { log with records := log.records.take (c.kept log.number) }) ++
    c.newLogs.map fun number => { number := number }

def crashed (s : DurableDatabase α) (c : Crash α) : Directory α where
  current := some (s.versions.manifestFileNumber, s.versions.descriptorLog.getD [])
  logs := s.crashedLogs c
  tables := s.tables ++ c.newTables
  contents n := if n ∈ s.db.vset.current.fileNumbers then s.db.contents n else c.leftovers n

/-- A crash, and the `Open` after it. -/
def crash (env : Environment α) (s : DurableDatabase α) (c : Crash α) (o : OpenCall α) : Option (DurableDatabase α) :=
  if s.Allows c then
    match (s.crashed c).openDB env o with
    | .ok s' => if s'.db.nextFileNumber < 2 ^ 64 then some s' else none
    | .error _ => none
  else none

def step (env : Environment α) (s : DurableDatabase α) : DurableEvent α → Option (DurableDatabase α)
  | .addRecord batch => s.addRecord batch
  | .sync => s.sync
  | .insertInto => s.insertInto
  | .switchMemTable => s.switchMemTable
  | .background event => s.background env event
  | .removeObsoleteFiles live => s.removeObsoleteFiles live
  | .crash c o => s.crash env c o

/-! ## Runs, and their journal -/

/-- The records of these log files that are not known to be in tables. -/
def recordsOf (versions : LoggedVersionSet α) (logs : List (LogFile α)) : List (LoggedBatch α) :=
  (liveLogs versions.logNumber versions.prevLogNumber logs).flatMap (·.records)

def recent (s : DurableDatabase α) : List (LoggedBatch α) := recordsOf s.versions s.logs

/-- What is logged comes to the journal, and what a crash loses goes from it. -/
def follow (s : DurableDatabase α) (journal : List (LoggedBatch α)) : DurableEvent α → List (LoggedBatch α)
  | .addRecord batch => journal ++ [{ sequence := s.db.lastSequence + 1, batch }]
  | .crash c _ => journal.take (journal.length - s.recent.length) ++ recordsOf s.versions (s.crashedLogs c)
  | _ => journal

/-- The states of a run, the first one included, each with the journal. -/
def run (env : Environment α) : DurableDatabase α → List (LoggedBatch α) → List (DurableEvent α) →
    Option (List (DurableDatabase α × List (LoggedBatch α)))
  | s, journal, [] => some [(s, journal)]
  | s, journal, event :: events => do
    let s' ← s.step env event
    let states ← run env s' (s.follow journal event) events
    return (s, journal) :: states

/-- No step puts an output around a table that was flushed while the compaction was under way. -/
def ClearRun (env : Environment α) : DurableDatabase α → List (DurableEvent α) → Prop
  | _, [] => True
  | s, event :: events =>
    (∀ e, event = .background e → s.db.Clear e) ∧ ∀ s', s.step env event = some s' → ClearRun env s' events

/-- The map that a journal leads to. -/
def mapOf (journal : List (LoggedBatch α)) : α → Option Bytes :=
  putAll (fun _ => none) (journal.flatMap fun r => writesOf r.batch)

/-- The records that reads see: not one that is not in the memtable yet. -/
def applied (s : DurableDatabase α) (journal : List (LoggedBatch α)) : List (LoggedBatch α) :=
  if s.logging.isSome then journal.dropLast else journal

end DurableDatabase

end LevelDbSurf
