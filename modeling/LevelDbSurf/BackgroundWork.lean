import LevelDbSurf.FlushPlacement
import LevelDbSurf.Recovery

/-!
# Versions in a running database (`db_impl.cc:505-803`, `880-1057`)

| here | there |
| --- | --- |
| `writeLevel0Table`, `compactMemTable` | `DBImpl::WriteLevel0Table` (`:505`), `DBImpl::CompactMemTable` (`:550`) |
| `Compaction.isTrivialMove` | `Compaction::IsTrivialMove` (`version_set.cc:1517`) |
| `startCompaction`      | `DBImpl::BackgroundCompaction` (`:708`), up to the loop of `DoCompactionWork` |
| `workOn`               | one round of that loop, with `NewFileNumber` where a file is opened |
| `installCompaction`, `cleanupCompaction` | `InstallCompactionResults` (`:880`), `CleanupCompaction` (`:766`) |
| `step`                 | one of these, or a write, a switch of memtables, a seek that is charged to a file |

One thread does all flushes and compactions, so at most one compaction is under way, and a flush is in its
middle or alone. `contents` is what the table files hold, by number. Sequence numbers fit the 56 bits the
format has for them, and the 64 bits of file numbers last: a step that would exceed them is not taken.
-/

namespace LevelDbSurf

open Cursors

variable {α : Type} [LinearOrder α]

/-- What the model does not compute: scores, and sizes of the files table builders write. -/
structure Environment (α : Type) [LinearOrder α] where
  score : Nat → List (FileMetaData α) → Rat
  fileSize : List (InternalKey α × Bytes) → UInt64
  finishedSize : List (InternalKey α × Bytes) → UInt64

/-- A compaction under way: what it has not read yet, and the state of its loop. -/
structure RunningCompaction (α : Type) [LinearOrder α] where
  job : CompactionJob α
  input : List (InternalKey α × Bytes)
  work : CompactionWork α := {}

/-- Its outputs, once it has read all its input. -/
def RunningCompaction.outputs (r : RunningCompaction α) : List (Output α) := (r.work.finishOutput r.job).outputs

/-- The database, as far as flushes and compactions go. -/
structure Database (α : Type) [LinearOrder α] where
  vset : VersionSet α
  contents : UInt64 → List (InternalKey α × Bytes)
  nextFileNumber : Nat
  mem : List (InternalKey α × Bytes) := []
  imm : Option (List (InternalKey α × Bytes)) := none
  lastSequence : Nat := 0
  running : Option (RunningCompaction α) := none

/-- `IsTrivialMove`. -/
def Compaction.isTrivialMove (options : Options) (c : Compaction α) : Bool :=
  decide (c.inputs0.length = 1) && decide (c.inputs1.length = 0) &&
    decide (totalFileSize c.grandparents ≤ maxGrandParentOverlapBytes options)

/-- The edit of a trivial move: "Move file to next level". -/
def Compaction.moveEdit (c : Compaction α) (f : FileMetaData α) : VersionEdit α :=
  { compactPointers := c.editPointers
    deletedFiles := [(c.level, f.number)]
    newFiles := [(c.level + 1, f)] }

/-- `BuildTable` (`db/builder.cc`, not part of the repository): the first and the last key are recorded; no
entries, no file. -/
def buildTable (number fileSize : UInt64) (entries : List (InternalKey α × Bytes)) : Option (FileMetaData α) :=
  match entries.head?, entries.getLast? with
  | some first, some last =>
    if ordered : first.1 ≤ last.1 then some ⟨number, fileSize, first.1, last.1, ordered⟩ else none
  | _, _ => none

namespace Database

/-- `LogAndApply`, for the version. -/
def logAndApply (env : Environment α) (db : Database α) (edit : VersionEdit α) : Database α :=
  let current := finalize env.score (Builder.apply { base := db.vset.current } edit).saveTo
  { db with vset := { db.vset with current } }

/-- `NewFileNumber`. -/
def newFileNumber (db : Database α) : UInt64 := UInt64.ofNat db.nextFileNumber

/-- `batch[i]` gets the sequence number `sequence + i`. -/
def insertInto (sequence : Nat) (batch : List (α × ValueType × Bytes)) : List (InternalKey α × Bytes) :=
  batch.zipIdx.map fun ((userKey, type, value), i) =>
    (⟨userKey, packSequenceAndType (sequence + i) type⟩, value)

/-- A batch is written to the memtable. -/
def write (db : Database α) (batch : List (α × ValueType × Bytes)) : Option (Database α) :=
  if db.lastSequence + batch.length ≤ kMaxSequenceNumber then
    some { db with
      mem := db.mem ++ insertInto (db.lastSequence + 1) batch
      lastSequence := db.lastSequence + batch.length }
  else none

/-- A new memtable, and a new log file, in `MakeRoomForWrite`. -/
def switchMemTable (db : Database α) : Option (Database α) :=
  if db.imm = none ∧ db.nextFileNumber + 1 < 2 ^ 64 then
    some { db with imm := some db.mem, mem := [], nextFileNumber := db.nextFileNumber + 1 }
  else none

/-- `WriteLevel0Table`: the edit, for a table of these entries, and the level. -/
def writeLevel0Table (db : Database α) (fileSize : UInt64) (entries : List (InternalKey α × Bytes)) :
    VersionEdit α :=
  match buildTable db.newFileNumber fileSize entries with
  | none => {}
  | some f =>
    let level := db.vset.current.pickLevelForMemTableOutput db.vset.options f.smallest.userKey f.largest.userKey
    VersionEdit.addFile {} level f

/-- `CompactMemTable`. -/
def compactMemTable (env : Environment α) (db : Database α) (fileSize : UInt64) : Option (Database α) :=
  match db.imm with
  | none => none
  | some imm =>
    if db.nextFileNumber + 1 < 2 ^ 64 then
      let entries := mergeAll [imm]
      let db' := db.logAndApply env (db.writeLevel0Table fileSize entries)
      some { db' with
        contents := fun number => if number = db.newFileNumber then entries else db.contents number
        nextFileNumber := db.nextFileNumber + 1
        imm := none }
    else none

/-- A seek charged to a file of the current version, in `UpdateStats`. -/
def chargeSeek (db : Database α) (level : Nat) (f : FileMetaData α) : Option (Database α) :=
  if f ∈ db.vset.current.files level ∧ db.vset.current.fileToCompact = none then
    let current := { db.vset.current with fileToCompact := some f, fileToCompactLevel := level }
    some { db with vset := { db.vset with current } }
  else none

/-- `BackgroundCompaction`, for a compaction that has been set up: a trivial move, unless it is manual, or
the start of `DoCompactionWork`. -/
def startCompaction (env : Environment α) (db : Database α) (isManual : Bool) (smallestSnapshot : Nat)
    (c : Compaction α) (vset' : VersionSet α) : Database α :=
  let job := db.vset.job c smallestSnapshot env.fileSize env.finishedSize
  let db' := { db with vset := vset' }
  match c.inputs0 with
  | f :: _ =>
    if !isManual && c.isTrivialMove db.vset.options then db'.logAndApply env (c.moveEdit f)
    else
      let input := mergeAll ((c.inputs0 ++ c.inputs1).map fun f => db.contents f.number)
      { db' with running := some { job, input } }
  | [] => db'

/-- A compaction is due: `r` is what `PickCompaction` or `CompactRange` answers. -/
def backgroundCompaction (env : Environment α) (db : Database α) (isManual : Bool) (smallestSnapshot : Nat)
    (r : Option (Option (Compaction α × VersionSet α))) : Option (Database α) :=
  if db.running.isNone ∧ db.imm = none then
    match r with
    | none => none
    | some none => some db  -- "Nothing to do"
    | some (some (c, vset')) => some (db.startCompaction env isManual smallestSnapshot c vset')
  else none

/-- One round of the loop. -/
def workOn (db : Database α) : Option (Database α) :=
  match db.running with
  | none => none
  | some r =>
    match r.input with
    | [] => none
    | x :: input =>
      if db.nextFileNumber + 1 < 2 ^ 64 then
        let work := r.work.step r.job db.newFileNumber x
        some { db with
          nextFileNumber := db.nextFileNumber + (work.opened - r.work.opened)
          running := some { r with input, work } }
      else none

/-- The table files, with those the compaction has written. -/
def withOutputs (contents : UInt64 → List (InternalKey α × Bytes)) (outputs : List (Output α)) :
    UInt64 → List (InternalKey α × Bytes) := fun number =>
  match outputs.find? fun out => decide (out.number = number) with
  | some out => out.entries
  | none => contents number

/-- `InstallCompactionResults`. -/
def installCompaction (env : Environment α) (db : Database α) : Option (Database α) :=
  match db.running with
  | none => none
  | some r =>
    match r.input with
    | _ :: _ => none
    | [] =>
      let db' := db.logAndApply env (r.job.compaction.installResults r.outputs)
      some { db' with contents := withOutputs db.contents r.outputs, running := none }

/-- `CleanupCompaction`, after an error or a shutdown. -/
def cleanupCompaction (db : Database α) : Option (Database α) :=
  if db.running.isSome then some { db with running := none } else none

end Database

/-- What can happen next, with what the outside decides: sizes, snapshots, what is asked for. -/
inductive DatabaseEvent (α : Type) [LinearOrder α] where
  | write (batch : List (α × ValueType × Bytes))
  | switchMemTable
  | compactMemTable (fileSize : UInt64)
  | chargeSeek (level : Nat) (f : FileMetaData α)
  | pickCompaction (smallestSnapshot : Nat)
  | compactRange (level : Nat) (begin_ end_ : Option (InternalKey α)) (smallestSnapshot : Nat)
  | workOn
  | installCompaction
  | cleanupCompaction

namespace Database

def step (env : Environment α) (db : Database α) : DatabaseEvent α → Option (Database α)
  | .write batch => db.write batch
  | .switchMemTable => db.switchMemTable
  | .compactMemTable fileSize => db.compactMemTable env fileSize
  | .chargeSeek level f => db.chargeSeek level f
  | .pickCompaction smallestSnapshot =>
    db.backgroundCompaction env false smallestSnapshot db.vset.pickCompaction
  | .compactRange level begin_ end_ smallestSnapshot =>
    db.backgroundCompaction env true smallestSnapshot (db.vset.compactRange level begin_ end_)
  | .workOn => db.workOn
  | .installCompaction => db.installCompaction env
  | .cleanupCompaction => db.cleanupCompaction

/-- The states a run goes through, the first one included; nothing if a step is not possible. -/
def run (env : Environment α) : Database α → List (DatabaseEvent α) → Option (List (Database α))
  | db, [] => some [db]
  | db, event :: events => do
    let db' ← db.step env event
    let states ← run env db' events
    return db :: states

end Database

end LevelDbSurf
