import LevelDbSurf.SeekCharges
import LevelDbSurf.GroupCommit

/-!
# The background thread, and the threads that wait for it (`db_impl.cc:152-163`, `582-787`, `1335-1409`)

| here | there |
| --- | --- |
| `Scheduler`            | what `mutex_` guards of `DBImpl`, as far as scheduling goes, and the threads |
| `maybeScheduleCompaction` | `DBImpl::MaybeScheduleCompaction` (`:668`); `Schedule` puts a call of `BackgroundCall` into `work` |
| `runCaller`            | `MakeRoomForWrite` (`:1335`), `TEST_CompactMemTable` (`:643`), `TEST_CompactRange` (`:597`), `~DBImpl` (`:152`) |
| `start`                | `BackgroundCall` (`:689`) and `BackgroundCompaction` (`:708`), up to where the mutex is released |
| `flush`                | `CompactMemTable` (`:550`), from there or from the loop of `DoCompactionWork` |
| `workOn`, `finish`, `removed` | the rounds of that loop (`:898`), what comes after it, and after `RemoveObsoleteFiles` |

A step is what one thread does while it has the mutex. `asleep` threads are in `Wait`; they may wake up at any time, as
condition variables do. `background_work_finished_signal_` is signalled by `signalAll`. A trivial move is one step: what
other threads do while its edit is logged, they could do just before. `faulted` says that the memory of a `ManualCompaction`
has been used whose owner has returned, or a null pointer. File numbers and sequence numbers last, reads do not charge files
of the last level (`SeekCharges`), and snapshots are of what has been written: other steps are not taken.
-/

namespace LevelDbSurf

variable {α : Type} [LinearOrder α]

/-! ## States -/

/-- `ManualCompaction`, in the frame of `TEST_CompactRange`. -/
structure ManualCompaction (α : Type) [LinearOrder α] where
  level : Nat
  begin_ : Option (InternalKey α)
  end_ : Option (InternalKey α)
  done : Bool := false

/-- Where a thread is that may have to wait: in `MakeRoomForWrite`, in the second half of `TEST_CompactMemTable`, in
one of the two loops of `TEST_CompactRange`, in the destructor. -/
inductive CallerPc (α : Type) [LinearOrder α] where
  | makeRoom (force allowDelay : Bool)
  | compactMemTable
  | compactRange (m : ManualCompaction α)
  | finishRange (m : ManualCompaction α)
  | close
  | returned

/-- Its `ManualCompaction`. -/
def CallerPc.frame : CallerPc α → Option (ManualCompaction α)
  | .compactRange m => some m
  | .finishRange m => some m
  | _ => none

def CallerPc.setFrame (m : ManualCompaction α) : CallerPc α → CallerPc α
  | .compactRange _ => .compactRange m
  | .finishRange _ => .finishRange m
  | pc => pc

structure Caller (α : Type) [LinearOrder α] where
  pc : CallerPc α
  asleep : Bool := false

/-- Where a call of `BackgroundCall` is: before it has the mutex, in `CompactMemTable`, in the loop of
`DoCompactionWork`, in `RemoveObsoleteFiles`. `manualEnd` is there if `is_manual`. -/
inductive WorkPc (α : Type) [LinearOrder α] where
  | queued
  | compactMemTable
  | compact (manualEnd : Option (InternalKey α)) (flushed : Bool)
  | removeFiles (manualEnd : Option (InternalKey α)) (status : Status)

/-- `manual` is `manual_compaction_`: whose frame it points to. -/
structure Scheduler (α : Type) [LinearOrder α] where
  db : Database α
  shuttingDown : Bool := false
  bgError : Status := .ok
  scheduled : Bool := false
  manual : Option Nat := none
  callers : List (Caller α) := []
  work : List (WorkPc α) := []
  faulted : Bool := false

/-- `NeedsCompaction`. -/
def Version.needsCompaction (v : Version α) : Bool := decide (v.compactionScore ≥ 1) || v.fileToCompact.isSome

/-- The scores are those of `Finalize`. -/
def Environment.scored (env : Environment α) : Environment α := { env with score := levelScore }

namespace Scheduler

/-- There is something for `BackgroundCompaction` to do. -/
def hasWork (s : Scheduler α) : Bool := s.db.imm.isSome || s.manual.isSome || s.db.vset.current.needsCompaction

/-- `MaybeScheduleCompaction`. -/
def maybeScheduleCompaction (s : Scheduler α) : Scheduler α :=
  if s.scheduled then s
  else if s.shuttingDown then s
  else if !s.bgError.isOk then s
  else if !s.hasWork then s
  else { s with scheduled := true, work := s.work ++ [.queued] }

/-- `SignalAll`. -/
def signalAll (s : Scheduler α) : Scheduler α :=
  { s with callers := s.callers.map fun c => { c with asleep := false } }

/-- `RecordBackgroundError`. -/
def recordBackgroundError (s : Scheduler α) (status : Status) : Scheduler α :=
  if s.bgError.isOk then { s with bgError := status }.signalAll else s

/-- The caller goes on, or waits where it is. -/
def goTo (s : Scheduler α) (i : Nat) (pc : CallerPc α) : Scheduler α :=
  { s with callers := s.callers.set i { pc } }

def wait (s : Scheduler α) (i : Nat) (pc : CallerPc α) : Scheduler α :=
  { s with callers := s.callers.set i { pc, asleep := true } }

/-! ## Callers -/

/-- What `manual_compaction_` points to, if it is caller `i`'s. -/
def manualOf (s : Scheduler α) (i : Nat) : Option (ManualCompaction α) := (s.callers[i]?).bind (·.pc.frame)

/-- The background thread writes to it. -/
def setManual (s : Scheduler α) (i : Nat) (m : ManualCompaction α) : Scheduler α :=
  { s with callers := s.callers.modify i fun c => { c with pc := c.pc.setFrame m } }

/-- The loop of `MakeRoomForWrite`, once. -/
def makeRoom (memory : WriteEnv α) (s : Scheduler α) (i : Nat) (force allowDelay : Bool) (created closed : Status) :
    Option (Scheduler α) :=
  let numLevel0Files := (s.db.vset.current.files 0).length
  if !s.bgError.isOk then some (s.goTo i .returned)
  else if allowDelay && decide (numLevel0Files ≥ kL0_SlowdownWritesTrigger) then some (s.goTo i (.makeRoom force false))
  else if !force && decide (memory.approximateMemoryUsage s.db.mem ≤ memory.writeBufferSize) then
    some (s.goTo i .returned)
  else if s.db.imm.isSome then some (s.wait i (.makeRoom force allowDelay))
  else if numLevel0Files ≥ kL0_StopWritesTrigger then some (s.wait i (.makeRoom force allowDelay))
  else if !created.isOk then some (s.goTo i .returned)
  else do
    let db ← s.db.switchMemTable
    let s := if closed.isOk then s else s.recordBackgroundError closed
    return ({ s with db }.goTo i (.makeRoom false allowDelay)).maybeScheduleCompaction

/-- What caller `i` does when it has the mutex. -/
def runCaller (memory : WriteEnv α) (s : Scheduler α) (i : Nat) (created closed : Status) :
    CallerPc α → Option (Scheduler α)
  | .makeRoom force allowDelay => s.makeRoom memory i force allowDelay created closed
  | .compactMemTable =>
    if s.db.imm.isSome && s.bgError.isOk && !s.shuttingDown then some (s.wait i .compactMemTable)
    else some (s.goTo i .returned)
  | .compactRange m =>
    if !m.done && !s.shuttingDown && s.bgError.isOk then
      if s.manual.isNone then some ({ s with manual := some i }.goTo i (.compactRange m)).maybeScheduleCompaction
      else some (s.wait i (.compactRange m))  -- "Running either my compaction or another compaction"
    else some (s.goTo i (.finishRange m))
  | .finishRange m =>
    if s.scheduled then some (s.wait i (.finishRange m))
    else some ({ s with manual := if s.manual = some i then none else s.manual }.goTo i .returned)
  | .close =>
    let s := { s with shuttingDown := true }
    if s.scheduled then some (s.wait i .close) else some (s.goTo i .returned)
  | .returned => none

/-! ## The background thread -/

/-- The end of `BackgroundCall`. -/
def endCall (s : Scheduler α) (k : Nat) : Scheduler α :=
  ({ s with work := s.work.eraseIdx k, scheduled := false }.maybeScheduleCompaction).signalAll

/-- The end of `BackgroundCompaction`, if `is_manual`: it reads `manual_compaction_` once more. -/
def endManual (s : Scheduler α) (manualEnd : InternalKey α) (status : Status) : Scheduler α :=
  match s.manual with
  | none => { s with faulted := true }
  | some i =>
    match s.manualOf i with
    | none => { s with faulted := true }
    | some m =>
      -- "We only compacted part of the requested range"
      let m := if status.isOk then { m with begin_ := some manualEnd } else { m with done := true }
      { s.setManual i m with manual := none }

/-- `BackgroundCompaction`, for what `CompactRange` has answered. -/
def startManual (env : Environment α) (s : Scheduler α) (k i : Nat) (m : ManualCompaction α) (smallestSnapshot : Nat) :
    Option (Compaction α × VersionSet α) → Option (Scheduler α)
  | none => some ({ s.setManual i { m with done := true } with manual := none }.endCall k)
  | some (c, vset) => do
    let f ← c.inputs0.getLast?
    return { s with
      db := s.db.startCompaction env true smallestSnapshot c vset
      work := s.work.set k (.compact (some f.largest) false) }

/-- `BackgroundCompaction`, for what `PickCompaction` has answered; `status` is that of logging a trivial move. -/
def startPicked (env : Environment α) (s : Scheduler α) (k smallestSnapshot : Nat) (status : Status) :
    Option (Compaction α × VersionSet α) → Scheduler α
  | none => s.endCall k  -- "Nothing to do"
  | some (c, vset) =>
    if c.isTrivialMove s.db.vset.options then
      if status.isOk then { s with db := s.db.startCompaction env false smallestSnapshot c vset }.endCall k
      else ({ s with db := { s.db with vset } }.recordBackgroundError status).endCall k
    else
      { s with
        db := s.db.startCompaction env false smallestSnapshot c vset
        work := s.work.set k (.compact none false) }

/-- `BackgroundCall`, up to where the mutex is released. -/
def start (env : Environment α) (s : Scheduler α) (k smallestSnapshot : Nat) (status : Status) :
    Option (Scheduler α) :=
  if s.shuttingDown || !s.bgError.isOk then some (s.endCall k)
  else if s.db.imm.isSome then some { s with work := s.work.set k .compactMemTable }
  else
    match s.manual with
    | some i =>
      match s.manualOf i with
      | none => some { s with faulted := true }
      | some m => (s.db.vset.compactRange m.level m.begin_ m.end_).bind (s.startManual env k i m smallestSnapshot)
    | none => s.db.vset.pickCompaction.map (s.startPicked env k smallestSnapshot status)

/-- The rest of `CompactMemTable`; `status` is of `BuildTable` or of `LogAndApply`. A number has been used. -/
def compactMemTable (env : Environment α) (s : Scheduler α) (fileSize : UInt64) (status : Status) :
    Option (Scheduler α × Status) :=
  let status := if status.isOk && s.shuttingDown then .ioError "Deleting DB during memtable compaction" else status
  if status.isOk then (s.db.compactMemTable env fileSize).map fun db => ({ s with db }, status)
  else if s.db.nextFileNumber + 1 < 2 ^ 64 then
    some ({ s with db := { s.db with nextFileNumber := s.db.nextFileNumber + 1 } }.recordBackgroundError status, status)
  else none

def flush (env : Environment α) (s : Scheduler α) (k : Nat) (fileSize : UInt64) (status : Status) :
    WorkPc α → Option (Scheduler α)
  | .compactMemTable => do
    let (s, status) ← s.compactMemTable env fileSize status
    if status.isOk then return { s with work := s.work.set k (.removeFiles none status) } else return s.endCall k
  | .compact manualEnd false =>
    if s.db.imm.isSome && (s.db.running.any fun r => !r.input.isEmpty) then do
      let (s, _) ← s.compactMemTable env fileSize status
      -- "Wake up MakeRoomForWrite() if necessary"
      return { s with work := s.work.set k (.compact manualEnd true) }.signalAll
    else none
  | _ => none

/-- After an error: `CleanupCompaction`. -/
def abandon (s : Scheduler α) (k : Nat) (manualEnd : Option (InternalKey α)) (status : Status) : Scheduler α :=
  { s with
    db := { s.db with running := none }
    work := s.work.set k (.removeFiles manualEnd status) }.recordBackgroundError status

/-- A round of the loop; `status` is that of opening or of finishing an output file. -/
def workOn (s : Scheduler α) (k : Nat) (status : Status) : WorkPc α → Option (Scheduler α)
  | .compact manualEnd _ =>
    if s.shuttingDown then none
    else if status.isOk then
      s.db.workOn.map fun db => { s with db, work := s.work.set k (.compact manualEnd false) }
    else if (s.db.running.any fun r => !r.input.isEmpty) then some (s.abandon k manualEnd status)
    else none
  | _ => none

/-- The loop is over. `status` is that of the last output file, of the input, or of `LogAndApply`. -/
def finish (env : Environment α) (s : Scheduler α) (k : Nat) (status : Status) : WorkPc α → Option (Scheduler α)
  | .compact manualEnd _ =>
    let status := if status.isOk && s.shuttingDown then .ioError "Deleting DB during compaction" else status
    if status.isOk then
      (s.db.installCompaction env).map fun db => { s with db, work := s.work.set k (.removeFiles manualEnd status) }
    else if s.shuttingDown || (s.db.running.any fun r => r.input.isEmpty) then some (s.abandon k manualEnd status)
    else none
  | _ => none

/-- After `RemoveObsoleteFiles`. -/
def removed (s : Scheduler α) (k : Nat) : WorkPc α → Option (Scheduler α)
  | .removeFiles none _ => some (s.endCall k)
  | .removeFiles (some manualEnd) status => some ((s.endManual manualEnd status).endCall k)
  | _ => none

end Scheduler

/-! ## Steps -/

/-- What a thread calls. -/
inductive DbCall (α : Type) [LinearOrder α] where
  | makeRoom (force : Bool)
  | compactMemTable
  | compactRange (level : Nat) (begin_ end_ : Option α)
  | close

/-- Where it begins. -/
def DbCall.entry : DbCall α → CallerPc α
  | .makeRoom force => .makeRoom force !force
  | .compactMemTable => .compactMemTable
  | .compactRange level begin_ end_ =>
    .compactRange
      { level
        begin_ := begin_.map fun k => ⟨k, packSequenceAndType kMaxSequenceNumber kValueTypeForSeek⟩
        end_ := end_.map fun k => ⟨k, packSequenceAndType 0 .deletion⟩ }
  | .close => .close

/-- What `TEST_CompactRange` asserts. -/
def DbCall.asserted : DbCall α → Bool
  | .compactRange level _ _ => decide (level + 1 < kNumLevels)
  | _ => true

/-- What happens next, with what the file system answers. `chargeOther` is a charge of a version that is not the current
one any more; `k` is the place in `work`. -/
inductive SchedulerEvent (α : Type) [LinearOrder α] where
  | write (batch : WriteBatch α)
  | chargeSeek (level : Nat) (f : FileMetaData α)
  | chargeOther
  | recordError (status : Status)
  | call (c : DbCall α)
  | run (i : Nat) (created closed : Status)
  | wakeUp (i : Nat)
  | start (k smallestSnapshot : Nat) (status : Status)
  | flush (k : Nat) (fileSize : UInt64) (status : Status)
  | workOn (k : Nat) (status : Status)
  | finish (k : Nat) (status : Status)
  | removed (k : Nat)

namespace Scheduler

def step (env : Environment α) (memory : WriteEnv α) (s : Scheduler α) : SchedulerEvent α → Option (Scheduler α)
  | .write batch =>
    if s.db.lastSequence + batch.length < kMaxSequenceNumber then (s.db.write batch).map fun db => { s with db }
    else none
  | .chargeSeek level f =>
    if level + 1 < kNumLevels then (s.db.chargeSeek level f).map fun db => { s with db }.maybeScheduleCompaction
    else none
  | .chargeOther => some s.maybeScheduleCompaction
  | .recordError status => if status.isOk then none else some (s.recordBackgroundError status)
  | .call c => if c.asserted then some { s with callers := s.callers ++ [{ pc := c.entry }] } else none
  | .run i created closed =>
    match s.callers[i]? with
    | some { pc, asleep := false } => s.runCaller memory i created closed pc
    | _ => none
  | .wakeUp i => some { s with callers := s.callers.modify i fun c => { c with asleep := false } }
  | .start k smallestSnapshot status =>
    match s.work[k]? with
    | some .queued =>
      if smallestSnapshot ≤ s.db.lastSequence then s.start env.scored k smallestSnapshot status else none
    | _ => none
  | .flush k fileSize status => (s.work[k]?).bind (s.flush env.scored k fileSize status)
  | .workOn k status => (s.work[k]?).bind (s.workOn k status)
  | .finish k status => (s.work[k]?).bind (s.finish env.scored k status)
  | .removed k => (s.work[k]?).bind (s.removed k)

/-- The states a run goes through, the first one included; nothing if a step is not possible. -/
def run (env : Environment α) (memory : WriteEnv α) :
    Scheduler α → List (SchedulerEvent α) → Option (List (Scheduler α))
  | s, [] => some [s]
  | s, event :: events => do
    let s' ← s.step env memory event
    let states ← run env memory s' events
    return s :: states

/-- The end of `DB::Open`. -/
def opened (db : Database α) : Scheduler α := { db : Scheduler α }.maybeScheduleCompaction

end Scheduler

end LevelDbSurf
