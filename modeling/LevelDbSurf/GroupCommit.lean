import LevelDbSurf.BackgroundWork

/-!
# `DBImpl::Write` with many threads (`db_impl.cc:1210-1409`)

| here | there |
| --- | --- |
| `Writer`, `WriteQueue.writers` | `Writer`, `writers_`: every writer pushed so far, and how many were popped |
| `buildBatchGroup`      | `DBImpl::BuildBatchGroup` (`:1285`) |
| `LeaderPc`             | where the thread at the front of the queue is: in `MakeRoomForWrite` (`:1335`), or past it with the mutex released |
| `WriteQueue.step`      | what happens between two points where the mutex changes hands |
| `WriteQueue.testCompactMemTable` | the second half of `DBImpl::TEST_CompactMemTable` (`:643`) |

A writer has no name of its own: it is the one pushed as number `i`. `log` is what `AddRecord` was called with, over all
log files, and `inserted` what was put into memtables; both only grow. What the background thread does to the tables
comes in only as what it takes out of `imm_`, and what compactions leave out. `lead` and the steps of `MakeRoomForWrite` stand
apart also where the thread keeps the mutex from one to the next, so there are more interleavings here than there.
-/

namespace LevelDbSurf

variable {α : Type}

/-! ## Writers and groups -/

/-- `WriteBatch`. -/
abbrev WriteBatch (α : Type) := List (α × ValueType × Bytes)

/-- What `Write` was called with. -/
structure Writer (α : Type) where
  batch : Option (WriteBatch α)
  sync : Bool := false

/-- What its batch puts in. -/
def Writer.entries (w : Writer α) : WriteBatch α := w.batch.getD []

/-- What is not part of the repository: `WriteBatchInternal::ByteSize`, `MemTable::ApproximateMemoryUsage`, and
`options_.write_buffer_size`. -/
structure WriteEnv (α : Type) where
  byteSize : WriteBatch α → Nat
  approximateMemoryUsage : List (InternalKey α × Bytes) → Nat
  writeBufferSize : Nat

/-- `config::kL0_SlowdownWritesTrigger`, `config::kL0_StopWritesTrigger` (`db/dbformat.h`). -/
def kL0_SlowdownWritesTrigger : Nat := 8
def kL0_StopWritesTrigger : Nat := 12

section Groups
variable (env : WriteEnv α)

/-- `max_size`: "if the original write is small, limit the growth". -/
def maxGroupSize (size : Nat) : Nat := if size ≤ 128 * 2 ^ 10 then size + 128 * 2 ^ 10 else 2 ^ 20

/-- The loop of `BuildBatchGroup`: how many more writers join, and `tmp_batch_` if it has become `*result`. -/
def growGroup (tmpBatch firstBatch : WriteBatch α) (firstSync : Bool) (maxSize : Nat) :
    Nat → Option (WriteBatch α) → List (Writer α) → Nat × Option (WriteBatch α)
  | _, result, [] => (0, result)
  | size, result, w :: ws =>
    if w.sync && !firstSync then (0, result)
    else
      match w.batch with
      | none =>
        let (n, result) := growGroup tmpBatch firstBatch firstSync maxSize size result ws
        (n + 1, result)
      | some batch =>
        let size := size + env.byteSize batch
        if size > maxSize then (0, result)
        else
          -- "Switch to temporary batch instead of disturbing caller's batch"
          let tmp := result.getD (tmpBatch ++ firstBatch) ++ batch
          let (n, result) := growGroup tmpBatch firstBatch firstSync maxSize size (some tmp) ws
          (n + 1, result)

/-- `BuildBatchGroup`, for a first writer with this batch and the writers behind it. -/
def buildBatchGroup (tmpBatch batch : WriteBatch α) (sync : Bool) (rest : List (Writer α)) :
    Nat × Option (WriteBatch α) :=
  growGroup env tmpBatch batch sync (maxGroupSize (env.byteSize batch)) (env.byteSize batch) none rest

end Groups

/-- A group that is being written: its members from the front of the queue, `*write_batch`, its sequence number, and
`last_sequence`. -/
structure Group (α : Type) where
  members : Nat
  usesTmp : Bool
  batch : WriteBatch α
  sequence : Nat
  lastSequence : Nat

/-- Where the leader is: in `MakeRoomForWrite`, before `AddRecord`, before `Sync`, before `InsertInto`, or before it
locks the mutex again. -/
inductive LeaderPc (α : Type) where
  | makeRoom (force allowDelay : Bool)
  | addRecord (g : Group α)
  | sync (g : Group α)
  | insertInto (g : Group α)
  | relock (g : Group α) (status : Status) (syncError : Bool)

/-- A log record, with the writers whose batches are in it; `synced` once the group has synced the file. -/
structure LogRecord (α : Type) where
  writers : List Nat
  sequence : Nat
  batch : WriteBatch α
  synced : Bool := false

def LogRecord.entries (r : LogRecord α) : List (InternalKey α × Bytes) := Database.insertInto r.sequence r.batch

/-! ## States and steps -/

/-- The parts of `DBImpl` that writes go through. `done` are the writers that were told so and have not returned yet. -/
structure WriteQueue (α : Type) where
  calls : List (Writer α) := []
  popped : Nat := 0
  leader : Option (LeaderPc α) := none
  done : List (Nat × Status) := []
  returned : List (Nat × Status) := []
  tmpBatch : WriteBatch α := []
  log : List (LogRecord α) := []
  inserted : List (InternalKey α × Bytes) := []
  mem : List (InternalKey α × Bytes) := []
  imm : Option (List (InternalKey α × Bytes)) := none
  tables : List (InternalKey α × Bytes) := []
  dropped : List (InternalKey α × Bytes) := []
  lastSequence : Nat
  numLevel0Files : Nat := 0
  bgError : Status := .ok

/-- What happens next, with what the file system answers. -/
inductive WriteEvent (α : Type) where
  | call (w : Writer α)
  | lead
  | delay
  | switchMemTable (created closed : Status)
  | room
  | addRecord (s : Status)
  | sync (s : Status)
  | insertInto (s : Status)
  | relock
  | wake (i : Nat)
  | compactMemTable (numLevel0Files : Nat)
  | compact (keep : InternalKey α × Bytes → Bool) (numLevel0Files : Nat)

namespace WriteQueue

/-- `writers_`. -/
def writers (s : WriteQueue α) : List (Writer α) := s.calls.drop s.popped

/-- The end of `Write` for the leader: it pops the group, tells the others, and returns. -/
def popGroup (s : WriteQueue α) (members : Nat) (status : Status) : WriteQueue α :=
  { s with
    leader := none
    popped := s.popped + members
    done := s.done ++ (List.range' (s.popped + 1) (members - 1)).map fun i => (i, status)
    returned := s.returned ++ [(s.popped, status)] }

/-- `RecordBackgroundError`. -/
def recordBackgroundError (s : WriteQueue α) (status : Status) : WriteQueue α :=
  if s.bgError.isOk then { s with bgError := status } else s

variable (env : WriteEnv α)

/-- The second test of the loop in `MakeRoomForWrite`. -/
def slowsDown (s : WriteQueue α) (allowDelay : Bool) : Bool :=
  allowDelay && decide (s.numLevel0Files ≥ kL0_SlowdownWritesTrigger)

/-- The third: "There is room in current memtable". -/
def hasRoom (s : WriteQueue α) (force : Bool) : Bool :=
  !force && decide (env.approximateMemoryUsage s.mem ≤ env.writeBufferSize)

/-- The last branch of `MakeRoomForWrite`. -/
def switchMemTable (s : WriteQueue α) (allowDelay : Bool) (created closed : Status) : WriteQueue α :=
  if !created.isOk then s.popGroup 1 created
  else
    let s := if closed.isOk then s else s.recordBackgroundError closed
    { s with imm := some s.mem, mem := [], leader := some (.makeRoom false allowDelay) }

/-- `Write`, from the return of `MakeRoomForWrite` on, until the mutex is released. -/
def afterRoom (s : WriteQueue α) (w : Writer α) (rest : List (Writer α)) : WriteQueue α :=
  match w.batch with
  | none => s.popGroup 1 .ok  -- "nullptr batch is for compactions"
  | some batch =>
    let (n, tmp) := buildBatchGroup env s.tmpBatch batch w.sync rest
    let writeBatch := tmp.getD batch
    { s with
      tmpBatch := tmp.getD s.tmpBatch
      leader := some (.addRecord
        { members := n + 1, usesTmp := tmp.isSome, batch := writeBatch, sequence := s.lastSequence + 1
          lastSequence := s.lastSequence + writeBatch.length }) }

/-- The file of the last record was synced. -/
def syncLast (log : List (LogRecord α)) : List (LogRecord α) :=
  log.dropLast ++ log.getLast?.toList.map fun r => { r with synced := true }

def step (s : WriteQueue α) : WriteEvent α → Option (WriteQueue α)
  | .call w => some { s with calls := s.calls ++ [w] }
  | .lead =>
    match s.leader, s.writers with
    | none, w :: _ => some { s with leader := some (.makeRoom w.batch.isNone !w.batch.isNone) }
    | _, _ => none
  | .delay =>
    match s.leader with
    | some (.makeRoom force allowDelay) =>
      if s.bgError.isOk && s.slowsDown allowDelay then some { s with leader := some (.makeRoom force false) } else none
    | _ => none
  | .switchMemTable created closed =>
    match s.leader with
    | some (.makeRoom force allowDelay) =>
      if s.bgError.isOk && !s.slowsDown allowDelay && !s.hasRoom env force && s.imm.isNone &&
          decide (s.numLevel0Files < kL0_StopWritesTrigger) then
        some (s.switchMemTable allowDelay created closed)
      else none
    | _ => none
  | .room =>
    match s.leader, s.writers with
    | some (.makeRoom force allowDelay), w :: rest =>
      if !s.bgError.isOk then some (s.popGroup 1 s.bgError)
      else if !s.slowsDown allowDelay && s.hasRoom env force then some (s.afterRoom env w rest)
      else none
    | _, _ => none
  | .addRecord status =>
    match s.leader, s.writers with
    | some (.addRecord g), w :: _ =>
      if status.isOk then
        let r : LogRecord α :=
          { writers := List.range' s.popped g.members, sequence := g.sequence, batch := g.batch }
        some { s with log := s.log ++ [r], leader := some (if w.sync then .sync g else .insertInto g) }
      else some { s with leader := some (.relock g status false) }
    | _, _ => none
  | .sync status =>
    match s.leader with
    | some (.sync g) =>
      if status.isOk then some { s with log := syncLast s.log, leader := some (.insertInto g) }
      else some { s with leader := some (.relock g status true) }
    | _ => none
  | .insertInto status =>
    match s.leader with
    | some (.insertInto g) =>
      if status.isOk then
        let entries := Database.insertInto g.sequence g.batch
        some { s with
          mem := s.mem ++ entries, inserted := s.inserted ++ entries, leader := some (.relock g status false) }
      else some { s with leader := some (.relock g status false) }
    | _ => none
  | .relock =>
    match s.leader with
    | some (.relock g status syncError) =>
      let s := if syncError then s.recordBackgroundError status else s
      let s := { s with tmpBatch := if g.usesTmp then [] else s.tmpBatch, lastSequence := g.lastSequence }
      some (s.popGroup g.members status)
    | _ => none
  | .wake i =>
    match s.done.lookup i with
    | some status =>
      some { s with done := s.done.filter fun x => decide (x.1 ≠ i), returned := s.returned ++ [(i, status)] }
    | none => none
  | .compactMemTable numLevel0Files =>
    match s.imm with
    | some imm => some { s with tables := s.tables ++ imm, imm := none, numLevel0Files }
    | none => none
  | .compact keep numLevel0Files =>
    some { s with
      tables := s.tables.filter keep
      dropped := s.dropped ++ s.tables.filter fun x => !keep x
      numLevel0Files }

def run (s : WriteQueue α) (events : List (WriteEvent α)) : Option (WriteQueue α) := events.foldlM (step env) s

/-- What `TEST_CompactMemTable` returns now, if its call of `Write` was number `i`; nothing while it waits. -/
def testCompactMemTable (s : WriteQueue α) (i : Nat) : Option Status :=
  match s.returned.lookup i with
  | none => none
  | some status =>
    if !status.isOk then some status
    else if s.imm.isSome && s.bgError.isOk then none
    else if s.imm.isSome then some s.bgError
    else some status

end WriteQueue

/-- Nothing fails. -/
def WriteEvent.NoError : WriteEvent α → Prop
  | .switchMemTable created closed => created = .ok ∧ closed = .ok
  | .addRecord s => s = .ok
  | .sync s => s = .ok
  | .insertInto s => s = .ok
  | _ => True

end LevelDbSurf
