import LevelDbSurf.DatabaseReads
import LevelDbSurf.StoreSteps

/-!
# The database and its readers (`db_impl.cc:898-915`, `1083-1262`)

| here | there |
| --- | --- |
| `SnapshotImpl`, `getSnapshot`, `releaseSnapshot` | `GetSnapshot` (`:1191`), `ReleaseSnapshot` (`:1196`) and the `SnapshotList` |
| `Reader`, `beginRead`, `endRead` | what `Get` (`:1125`) and the iterators of `NewInternalIterator` (`:1083`) reference, from `Ref` to `Unref` |
| `beginWrite`, `insert`, `endWrite` | `Write` (`:1210`): up to `Unlock`, an entry of `InsertInto`, from `Lock` to `SetLastSequence` |
| `smallestSnapshot` | the start of `DoCompactionWork` (`:910`) |

Memtables are objects: a reader goes on reading the one it has referenced while it grows, after it has become the
immutable one, and after it has been flushed. The map store says what all this is for: a snapshot or a reader is a copy
of the map.
-/

namespace LevelDbSurf

open Cursors Versions

variable {α : Type} [LinearOrder α]

/-! ## The map -/

/-- A map, and the copies that have been made of it, under their handles. -/
structure MapStore (κ ν : Type) where
  current : κ → Option ν := fun _ => none
  snapshots : List (Nat × (κ → Option ν)) := []
  readers : List (Nat × (κ → Option ν)) := []

/-- What its users do with it. -/
inductive MapEvent (κ ν : Type) where
  | write (batch : List (κ × Option ν))
  | getSnapshot (handle : Nat)
  | releaseSnapshot (handle : Nat)
  | beginRead (handle : Nat) (snapshot : Option Nat)
  | endRead (handle : Nat)

namespace MapStore

variable {κ ν : Type}

/-- The copy to read. -/
def source (m : MapStore κ ν) : Option Nat → Option (κ → Option ν)
  | none => some m.current
  | some handle => (m.snapshots.find? fun c => decide (c.1 = handle)).map Prod.snd

/-- The copy a reader has. -/
def reader (m : MapStore κ ν) (handle : Nat) : Option (κ → Option ν) :=
  (m.readers.find? fun c => decide (c.1 = handle)).map Prod.snd

def step [DecidableEq κ] (m : MapStore κ ν) : MapEvent κ ν → MapStore κ ν
  | .write batch => { m with current := putAll m.current batch }
  | .getSnapshot handle => { m with snapshots := m.snapshots ++ [(handle, m.current)] }
  | .releaseSnapshot handle => { m with snapshots := m.snapshots.filter fun c => decide (c.1 ≠ handle) }
  | .beginRead handle snapshot =>
    { m with readers := m.readers ++ ((m.source snapshot).map fun copy => (handle, copy)).toList }
  | .endRead handle => { m with readers := m.readers.filter fun c => decide (c.1 ≠ handle) }

end MapStore

/-! ## The database -/

/-- A snapshot of the list; the handle stands for its address. -/
structure SnapshotImpl where
  handle : Nat
  sequenceNumber : Nat

/-- What a read references: two memtables and a version. -/
structure Reader (α : Type) [LinearOrder α] where
  handle : Nat
  snapshot : Nat
  mem : Nat
  imm : Option Nat
  current : Version α

/-- A batch that is being put into the memtable, without the mutex. -/
structure Insertion (α : Type) where
  batch : List (α × ValueType × Bytes)
  inserted : List (InternalKey α × Bytes) := []
  left : List (InternalKey α × Bytes)

/-- The database, its memtables by number, and its users. The entries of `mem` are those of `db.mem`, and those
inserted since the mutex was released. -/
structure SharedDatabase (α : Type) [LinearOrder α] where
  db : Database α
  memTables : Nat → List (InternalKey α × Bytes)
  mem : Nat
  imm : Option Nat := none
  insertion : Option (Insertion α) := none
  snapshots : List SnapshotImpl := []
  readers : List (Reader α) := []

inductive SharedEvent (α : Type) [LinearOrder α] where
  | beginWrite (batch : List (α × ValueType × Bytes))
  | insert
  | endWrite
  | switchMemTable
  | background (event : DatabaseEvent α)
  | getSnapshot (handle : Nat)
  | releaseSnapshot (handle : Nat)
  | beginRead (handle : Nat) (snapshot : Option Nat)
  | endRead (handle : Nat)

namespace SharedDatabase

/-- A database without users. -/
def opened (db : Database α) : SharedDatabase α :=
  { db, memTables := fun n => if n = 1 then db.mem else db.imm.getD []
    mem := 1, imm := db.imm.map fun _ => 0 }

/-- `snapshots_.empty() ? versions_->LastSequence() : snapshots_.oldest()->sequence_number()`. -/
def smallestSnapshot (s : SharedDatabase α) : Nat :=
  match s.snapshots with
  | [] => s.db.lastSequence
  | oldest :: _ => oldest.sequenceNumber

/-- The sequence number a read with this snapshot is made at. -/
def readSequence (s : SharedDatabase α) : Option Nat → Option Nat
  | none => some s.db.lastSequence
  | some handle => (s.snapshots.find? fun snapshot => decide (snapshot.handle = handle)).map (·.sequenceNumber)

/-- The background thread does all but writes and switches of memtables; a compaction that it begins keeps what the
snapshots there are may see. -/
def allows (s : SharedDatabase α) : DatabaseEvent α → Bool
  | .write _ => false
  | .switchMemTable => false
  | .pickCompaction smallestSnapshot => decide (smallestSnapshot = s.smallestSnapshot)
  | .compactRange _ _ _ smallestSnapshot => decide (smallestSnapshot = s.smallestSnapshot)
  | _ => true

/-- `Unlock`, and a batch to insert. One thread at a time is at the front of the queue. -/
def beginWrite (s : SharedDatabase α) (batch : List (α × ValueType × Bytes)) : Option (SharedDatabase α) :=
  if s.insertion.isNone ∧ s.db.lastSequence + batch.length < kMaxSequenceNumber then
    some { s with insertion := some { batch, left := Database.insertInto (s.db.lastSequence + 1) batch } }
  else none

/-- `MemTable::Add`, for the next entry. -/
def insert (s : SharedDatabase α) : Option (SharedDatabase α) :=
  match s.insertion with
  | some { batch, inserted, left := x :: left } =>
    some { s with
      memTables := fun n => if n = s.mem then s.memTables n ++ [x] else s.memTables n
      insertion := some { batch, inserted := inserted ++ [x], left } }
  | _ => none

/-- `Lock`, and `SetLastSequence`. -/
def endWrite (s : SharedDatabase α) : Option (SharedDatabase α) :=
  match s.insertion with
  | some { batch, left := [], .. } => (s.db.write batch).map fun db => { s with db, insertion := none }
  | _ => none

/-- A new memtable, in `MakeRoomForWrite`. -/
def switchMemTable (s : SharedDatabase α) : Option (SharedDatabase α) :=
  if s.insertion.isNone then
    s.db.switchMemTable.map fun db =>
      { s with
        db
        memTables := fun n => if n = s.mem + 1 then [] else s.memTables n
        mem := s.mem + 1
        imm := some s.mem }
  else none

/-- A step of the background thread. -/
def background (env : Environment α) (s : SharedDatabase α) (event : DatabaseEvent α) : Option (SharedDatabase α) :=
  if s.allows event then
    (s.db.step env event).map fun db => { s with db, imm := if db.imm.isSome then s.imm else none }
  else none

/-- `snapshots_.New(versions_->LastSequence())`: the newest one is the last. -/
def getSnapshot (s : SharedDatabase α) (handle : Nat) : Option (SharedDatabase α) :=
  if s.snapshots.all fun snapshot => decide (snapshot.handle ≠ handle) then
    some { s with snapshots := s.snapshots ++ [⟨handle, s.db.lastSequence⟩] }
  else none

/-- `snapshots_.Delete(snapshot)`. -/
def releaseSnapshot (s : SharedDatabase α) (handle : Nat) : Option (SharedDatabase α) :=
  some { s with snapshots := s.snapshots.filter fun snapshot => decide (snapshot.handle ≠ handle) }

/-- The memtables and the current version are referenced. -/
def beginRead (s : SharedDatabase α) (handle : Nat) (snapshot : Option Nat) : Option (SharedDatabase α) :=
  if s.readers.all fun reader => decide (reader.handle ≠ handle) then
    (s.readSequence snapshot).map fun sequence =>
      { s with readers := s.readers ++ [⟨handle, sequence, s.mem, s.imm, s.db.vset.current⟩] }
  else none

/-- The references are given up. -/
def endRead (s : SharedDatabase α) (handle : Nat) : Option (SharedDatabase α) :=
  some { s with readers := s.readers.filter fun reader => decide (reader.handle ≠ handle) }

def step (env : Environment α) (s : SharedDatabase α) : SharedEvent α → Option (SharedDatabase α)
  | .beginWrite batch => s.beginWrite batch
  | .insert => s.insert
  | .endWrite => s.endWrite
  | .switchMemTable => s.switchMemTable
  | .background event => s.background env event
  | .getSnapshot handle => s.getSnapshot handle
  | .releaseSnapshot handle => s.releaseSnapshot handle
  | .beginRead handle snapshot => s.beginRead handle snapshot
  | .endRead handle => s.endRead handle

/-- What a step is for the users: a batch is written when its sequence numbers are published. -/
def seenAs (s : SharedDatabase α) : SharedEvent α → Option (MapEvent α Bytes)
  | .endWrite => s.insertion.map fun insertion => .write (writesOf insertion.batch)
  | .getSnapshot handle => some (.getSnapshot handle)
  | .releaseSnapshot handle => some (.releaseSnapshot handle)
  | .beginRead handle snapshot => some (.beginRead handle snapshot)
  | .endRead handle => some (.endRead handle)
  | _ => none

/-- The map does what the users see. -/
def follow (s : SharedDatabase α) (event : SharedEvent α) (m : MapStore α Bytes) : MapStore α Bytes :=
  (s.seenAs event).elim m m.step

/-- The states of a run, the first one included, with those of the map beside them. -/
def run (env : Environment α) : SharedDatabase α → MapStore α Bytes → List (SharedEvent α) →
    Option (List (SharedDatabase α × MapStore α Bytes))
  | s, m, [] => some [(s, m)]
  | s, m, event :: events => do
    let s' ← s.step env event
    let states ← run env s' (s.follow event m) events
    return (s, m) :: states

/-- No step puts an output around a table that was flushed while the compaction was under way. -/
def ClearRun (env : Environment α) : SharedDatabase α → List (SharedEvent α) → Prop
  | _, [] => True
  | s, event :: events =>
    (∀ e, event = .background e → s.db.Clear e) ∧ ∀ s', s.step env event = some s' → ClearRun env s' events

/-! ## What a reader reads -/

/-- Its memtables, as they are now, and its tables. -/
def readerSources (s : SharedDatabase α) (r : Reader α) : Sources α :=
  ⟨(r.imm.map s.memTables).getD [] ++ s.memTables r.mem, r.current, s.db.contents⟩

/-- The same, as `Get` and the iterators have it. -/
def readerImpl (s : SharedDatabase α) (r : Reader α) (tableCache : TableCache α) : DBImpl α :=
  { mem := mergeAll [s.memTables r.mem]
    imm := r.imm.map fun n => mergeAll [s.memTables n]
    current := r.current
    lastSequence := r.snapshot
    tableCache }

end SharedDatabase

end LevelDbSurf
