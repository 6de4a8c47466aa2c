import LevelDbSurf.BackgroundWork
import LevelDbSurf.Lib.RefCount

/-!
# Which files are removed, and when (`db_impl.cc:225-290`, `505-829`, `version_set.cc:751-877`)

| here | there |
| --- | --- |
| `FileStore`            | what `mutex_` guards of `DBImpl` and `VersionSet`, with the files of the directory |
| `versions`, `current`  | the list `dummy_versions_` with `refs_` of each version, and `current_` |
| `keep`, `removeObsoleteFiles` | `DBImpl::RemoveObsoleteFiles` (`:225`), up to where it releases the mutex |
| `startFlush`, `finishTable`, `afterFlush` | `DBImpl::CompactMemTable` (`:550`) with `WriteLevel0Table` (`:505`) |
| `startApply`, `finishApply`, `appendVersion` | `VersionSet::LogAndApply` (`:795`), `AppendVersion` (`:777`) |
| `openOutput`           | `DBImpl::OpenCompactionOutputFile` (`:783`) |
| `endCompaction`        | `DBImpl::CleanupCompaction` (`:766`), with what `BackgroundCompaction` (`:708`) does around it |
| `BackgroundCall`       | a thread in `DBImpl::BackgroundCall` (`:689`), and where it is |
| `DbState.step`         | what one thread does from one release of the mutex to the next, or to a file in between |

Any number of background calls could run; that there is one at most is `background_compaction_scheduled_`, a flag like any
other. `BuildTable` is not part of the repository: it makes the file of its table, and leaves none if it fails or has no
entries. Of a version only which files it has is of interest, so `Finalize` is left out.
-/

namespace LevelDbSurf

open RefCount

variable {α : Type} [LinearOrder α]

/-! ## Files -/

/-- `FileType` (`db/filename.h`). -/
inductive FileType where
  | logFile
  | dbLockFile
  | tableFile
  | descriptorFile
  | currentFile
  | tempFile
  | infoLogFile
deriving DecidableEq

/-- What `ParseFileName` reads off the name of a file. -/
structure DbFile where
  type : FileType
  number : UInt64
deriving DecidableEq

/-- `files[i]->number`, over all levels. -/
def Version.fileNumbers (v : Version α) : List UInt64 :=
  (List.range kNumLevels).flatMap fun level => (v.files level).map (·.number)

/-! ## States -/

/-- What `LogAndApply` is called for. A compaction holds its `input_version_`. -/
inductive ApplyFor (α : Type) [LinearOrder α] where
  | flush
  | move (inputVersion : Reference (Version α))
  | compaction

/-- Where a background call is, with the mutex released: before `BackgroundCall` has it, in the loop of
`DoCompactionWork`, in `BuildTable`, in `LogAndApply`, in the loop of `RemoveObsoleteFiles`. -/
inductive BackgroundPc (α : Type) [LinearOrder α] where
  | scheduled
  | working
  | buildTable (number : UInt64) (base : Reference (Version α))
  | logAndApply (edit : VersionEdit α) (v : Version α) (purpose : ApplyFor α)
  | removeFiles (filesToDelete : List DbFile)

/-- `CompactionState`, with the numbers of its `outputs`. -/
structure CompactionState (α : Type) [LinearOrder α] where
  inputVersion : Reference (Version α)
  compaction : Compaction α
  outputs : List UInt64 := []

/-- A thread in `BackgroundCall`. A flush may run in the middle of its compaction. -/
structure BackgroundCall (α : Type) [LinearOrder α] where
  pc : BackgroundPc α := .scheduled
  compaction : Option (CompactionState α) := none

/-- `readers` are the references that reads hold; `nextVersion` names the versions. -/
structure FileStore (α : Type) [LinearOrder α] where
  disk : List DbFile
  versions : List (Object (Version α))
  current : Reference (Version α)
  nextVersion : Nat
  readers : List (Reference (Version α)) := []
  pendingOutputs : Finset UInt64 := ∅
  nextFileNumber : Nat
  manifestFileNumber : UInt64
  logNumber : UInt64
  prevLogNumber : UInt64
  logfileNumber : UInt64
  hasImm : Bool := false
  bgError : Status := .ok

namespace FileStore

/-- `NewFileNumber`. -/
def newFileNumber (s : FileStore α) : UInt64 := UInt64.ofNat s.nextFileNumber

/-- The 64 bits of file numbers last. -/
def numbersLast (s : FileStore α) : Bool := decide (s.nextFileNumber + 1 < 2 ^ 64)

/-- `RecordBackgroundError`. -/
def recordBackgroundError (s : FileStore α) (status : Status) : FileStore α :=
  if s.bgError.isOk then { s with bgError := status } else s

/-! ### `RemoveObsoleteFiles` -/

/-- `live`: `pending_outputs_` and `AddLiveFiles`. -/
def isLive (s : FileStore α) (number : UInt64) : Bool :=
  decide (number ∈ s.pendingOutputs) || s.versions.any fun o => decide (number ∈ o.value.fileNumbers)

def keep (s : FileStore α) (f : DbFile) : Bool :=
  match f.type with
  | .logFile => decide (f.number ≥ s.logNumber) || decide (f.number = s.prevLogNumber)
  | .descriptorFile => decide (f.number ≥ s.manifestFileNumber)
  | .tableFile => s.isLive f.number
  | .tempFile => s.isLive f.number
  | .currentFile | .dbLockFile | .infoLogFile => true

/-- `files_to_delete`, unless there was a background error. -/
def removeObsoleteFiles (s : FileStore α) : Option (List DbFile) :=
  if !s.bgError.isOk then none else some (s.disk.filter fun f => !s.keep f)

/-! ### `LogAndApply` -/

/-- The edit with the log numbers it does not set, and the new version. -/
def startApply (s : FileStore α) (edit : VersionEdit α) (purpose : ApplyFor α) : BackgroundPc α :=
  let edit :=
    { edit with
      logNumber := some (edit.logNumber.getD s.logNumber)
      prevLogNumber := some (edit.prevLogNumber.getD s.prevLogNumber) }
  .logAndApply edit (Builder.apply { base := s.current.2 } edit).saveTo purpose

/-- `AppendVersion`. -/
def appendVersion (s : FileStore α) (v : Version α) : FileStore α :=
  { s with
    versions := unref s.current.1 s.versions ++ [{ id := s.nextVersion, value := v, refs := 1 }]
    current := (s.nextVersion, v)
    nextVersion := s.nextVersion + 1 }

/-- "Install the new version". -/
def finishApply (s : FileStore α) (edit : VersionEdit α) (v : Version α) (status : Status) : FileStore α :=
  if status.isOk then
    { s.appendVersion v with logNumber := edit.logNumber.getD 0, prevLogNumber := edit.prevLogNumber.getD 0 }
  else s

/-! ### Flushes -/

/-- `CompactMemTable`, up to `BuildTable`. -/
def startFlush (s : FileStore α) : FileStore α :=
  { s with
    nextFileNumber := s.nextFileNumber + 1
    pendingOutputs := insert s.newFileNumber s.pendingOutputs
    versions := ref s.current.1 s.versions }

/-- What `BuildTable` leaves, and `pending_outputs_.erase(meta.number)`, `base->Unref()`. -/
def tableBuilt (s : FileStore α) (number : UInt64) (base : Reference (Version α)) (keepsFile : Bool) : FileStore α :=
  { s with
    disk := if keepsFile then s.disk else s.disk.filter fun f => decide (f ≠ ⟨.tableFile, number⟩)
    pendingOutputs := s.pendingOutputs.erase number
    versions := unref base.1 s.versions }

/-- The edit of `CompactMemTable`: "Earlier logs no longer needed". -/
def flushEdit (s : FileStore α) (f : Option (Nat × FileMetaData α)) : VersionEdit α :=
  { newFiles := f.toList, logNumber := some s.logfileNumber, prevLogNumber := some 0 }

end FileStore

namespace BackgroundCall

/-- The end of a flush: the compaction goes on, or the call is over. -/
def resume (t : BackgroundCall α) : Option (BackgroundCall α) :=
  if t.compaction.isSome then some { t with pc := .working } else none

/-- `RemoveObsoleteFiles` is called. -/
def collect (t : BackgroundCall α) (s : FileStore α) : FileStore α × Option (BackgroundCall α) :=
  match s.removeObsoleteFiles with
  | some filesToDelete => (s, some { t with pc := .removeFiles filesToDelete })
  | none => (s, t.resume)

/-- `CompactMemTable`, from the return of `BuildTable` to `LogAndApply`. -/
def finishTable (t : BackgroundCall α) (s : FileStore α) (number : UInt64) (base : Reference (Version α))
    (status : Status) (f : Option (Nat × FileMetaData α)) (shuttingDown : Bool) :
    FileStore α × Option (BackgroundCall α) :=
  let s := s.tableBuilt number base (status.isOk && f.isSome)
  if !status.isOk then (s.recordBackgroundError status, t.resume)
  else if shuttingDown then
    (s.recordBackgroundError (.ioError "Deleting DB during memtable compaction"), t.resume)
  else (s, some { t with pc := s.startApply (s.flushEdit f) .flush })

/-- The rest of `CompactMemTable`. -/
def afterFlush (t : BackgroundCall α) (s : FileStore α) (status : Status) : FileStore α × Option (BackgroundCall α) :=
  if status.isOk then t.collect { s with hasImm := false } else (s.recordBackgroundError status, t.resume)

/-- The rest of `BackgroundCompaction` after a trivial move; `delete c` gives up `input_version_`. -/
def afterMove (s : FileStore α) (inputVersion : Reference (Version α)) (status : Status) : FileStore α :=
  let s := if status.isOk then s else s.recordBackgroundError status
  { s with versions := unref inputVersion.1 s.versions }

/-- The end of `DoCompactionWork`, and `CleanupCompaction`, `ReleaseInputs`, `RemoveObsoleteFiles`. -/
def endCompaction (t : BackgroundCall α) (s : FileStore α) (c : CompactionState α) (status : Status) :
    FileStore α × Option (BackgroundCall α) :=
  let s := if status.isOk then s else s.recordBackgroundError status
  let s :=
    { s with
      pendingOutputs := c.outputs.foldl (fun pending number => pending.erase number) s.pendingOutputs
      versions := unref c.inputVersion.1 s.versions }
  collect { t with compaction := none } s

end BackgroundCall

/-! ## Steps -/

/-- What other threads do: a new log in `MakeRoomForWrite`, an error in `Write`, `current->Ref()` and `Unref()`. -/
inductive StoreEvent where
  | switchMemTable (created closed : Status)
  | writeError (status : Status)
  | refCurrent
  | unref (reader : Nat)

/-- What a background call does next, with what the rest of the code and the file system answer. -/
inductive BackgroundEvent (α : Type) [LinearOrder α] where
  | nothingToDo
  | startFlush
  | createTable
  | finishTable (status : Status) (f : Option (Nat × FileMetaData α)) (shuttingDown : Bool)
  | startCompaction (c : Compaction α)
  | moveFile (c : Compaction α) (f : FileMetaData α)
  | openOutput
  | createOutput
  | finishCompaction (status : Status) (outputs : List (Output α))
  | applied (status : Status)
  | removeFile
  | removed

namespace FileStore

/-- The last branch of `MakeRoomForWrite`; without a file, the number is used again. -/
def switchMemTable (s : FileStore α) (created closed : Status) : FileStore α :=
  if !created.isOk then s
  else
    { (if closed.isOk then s else s.recordBackgroundError closed) with
      nextFileNumber := s.nextFileNumber + 1
      disk := s.disk.insert ⟨.logFile, s.newFileNumber⟩
      logfileNumber := s.newFileNumber
      hasImm := true }

def step (s : FileStore α) : StoreEvent → Option (FileStore α)
  | .switchMemTable created closed =>
    if s.bgError.isOk && !s.hasImm && s.numbersLast then some (s.switchMemTable created closed) else none
  | .writeError status => some (s.recordBackgroundError status)
  | .refCurrent => some { s with versions := ref s.current.1 s.versions, readers := s.current :: s.readers }
  | .unref reader =>
    match s.readers[reader]? with
    | some r => some { s with versions := unref r.1 s.versions, readers := s.readers.eraseIdx reader }
    | none => none

end FileStore

namespace BackgroundCall

/-- `BackgroundCompaction` begins: there was no error, and no memtable is to be flushed. -/
def mayCompact (s : FileStore α) : Bool := s.bgError.isOk && !s.hasImm

def step (s : FileStore α) (t : BackgroundCall α) :
    BackgroundEvent α → Option (FileStore α × Option (BackgroundCall α))
  | .nothingToDo =>
    match t.pc with
    | .scheduled => some (s, none)
    | _ => none
  | .startFlush =>
    match t.pc with
    | .scheduled =>
      if s.bgError.isOk && s.hasImm && s.numbersLast then
        some (s.startFlush, some { t with pc := .buildTable s.newFileNumber s.current })
      else none
    | .working =>
      -- "Prioritize immutable compaction work"; an error is not looked for
      if s.hasImm && s.numbersLast then
        some (s.startFlush, some { t with pc := .buildTable s.newFileNumber s.current })
      else none
    | _ => none
  | .createTable =>
    match t.pc with
    | .buildTable number _ => some ({ s with disk := s.disk.insert ⟨.tableFile, number⟩ }, some t)
    | _ => none
  | .finishTable status f shuttingDown =>
    match t.pc with
    | .buildTable number base =>
      if f.all fun e => decide (e.2.number = number) then some (t.finishTable s number base status f shuttingDown)
      else none
    | _ => none
  | .startCompaction c =>
    match t.pc with
    | .scheduled =>
      if mayCompact s then
        some ({ s with versions := ref s.current.1 s.versions },
          some { pc := .working, compaction := some { inputVersion := s.current, compaction := c } })
      else none
    | _ => none
  | .moveFile c f =>
    match t.pc with
    | .scheduled =>
      if mayCompact s && decide (f ∈ s.current.2.files c.level) then
        some ({ s with versions := ref s.current.1 s.versions },
          some { t with pc := s.startApply (c.moveEdit f) (.move s.current) })
      else none
    | _ => none
  | .openOutput =>
    match t.pc, t.compaction with
    | .working, some c =>
      if s.numbersLast then
        some
          ({ s with
              nextFileNumber := s.nextFileNumber + 1
              pendingOutputs := insert s.newFileNumber s.pendingOutputs },
            some { t with compaction := some { c with outputs := c.outputs ++ [s.newFileNumber] } })
      else none
    | _, _ => none
  | .createOutput =>
    match t.pc, t.compaction with
    | .working, some c =>
      match c.outputs.getLast? with
      | some number => some ({ s with disk := s.disk.insert ⟨.tableFile, number⟩ }, some t)
      | none => none
    | _, _ => none
  | .finishCompaction status outputs =>
    match t.pc, t.compaction with
    | .working, some c =>
      if status.isOk then
        if outputs.map (·.number) = c.outputs then
          some (s, some { t with pc := s.startApply (c.compaction.installResults outputs) .compaction })
        else none
      else some (t.endCompaction s c status)
    | _, _ => none
  | .applied status =>
    match t.pc with
    | .logAndApply edit v purpose =>
      let s := s.finishApply edit v status
      match purpose with
      | .flush => some (t.afterFlush s status)
      | .move inputVersion => some (afterMove s inputVersion status, none)
      | .compaction => t.compaction.map fun c => t.endCompaction s c status
    | _ => none
  | .removeFile =>
    match t.pc with
    | .removeFiles (f :: filesToDelete) =>
      some ({ s with disk := s.disk.filter fun g => decide (g ≠ f) }, some { t with pc := .removeFiles filesToDelete })
    | _ => none
  | .removed =>
    match t.pc with
    | .removeFiles [] => some (s, t.resume)
    | _ => none

end BackgroundCall

/-- The database: its store, `background_compaction_scheduled_`, and the background calls. -/
structure DbState (α : Type) [LinearOrder α] where
  store : FileStore α
  scheduled : Bool := false
  calls : List (BackgroundCall α) := []

inductive DbEvent (α : Type) [LinearOrder α] where
  | store (e : StoreEvent)
  | maybeScheduleCompaction
  | background (call : Nat) (e : BackgroundEvent α)

namespace DbState

/-- A background call has come to where it releases the mutex, or to its end. -/
def putCall (d : DbState α) (call : Nat) : FileStore α × Option (BackgroundCall α) → DbState α
  | (store, some t) => { d with store, calls := d.calls.set call t }
  | (store, none) => { store, scheduled := false, calls := d.calls.eraseIdx call }

def step (d : DbState α) : DbEvent α → Option (DbState α)
  | .store e => (d.store.step e).map fun store => { d with store }
  | .maybeScheduleCompaction =>
    if d.scheduled then none
    else if !d.store.bgError.isOk then none
    else some { d with scheduled := true, calls := d.calls ++ [{}] }
  | .background call e =>
    match d.calls[call]? with
    | some t => (t.step d.store e).map (d.putCall call)
    | none => none

def run (d : DbState α) (events : List (DbEvent α)) : Option (DbState α) := events.foldlM step d

end DbState

end LevelDbSurf
