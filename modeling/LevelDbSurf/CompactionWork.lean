import LevelDbSurf.Compaction
import LevelDbSurf.VersionEdit
import LevelDbSurf.Snapshot

/-!
# The compaction loop (`db_impl.cc:805-1057`, `version_set.cc:1532-1583`)

| here | there |
| --- | --- |
| `DropState.isBaseLevelForKey` | `Compaction::IsBaseLevelForKey` (`version_set.cc:1540`) |
| `StopState.shouldStopBefore`  | `Compaction::ShouldStopBefore` (`:1559`) |
| `DropState.dropEntry`  | "Handle key/value, add to state, etc." in `DBImpl::DoCompactionWork` (`db_impl.cc:954`) |
| `CompactionWork.step`, `doCompactionWork` | the loop of `DoCompactionWork`, with `OpenCompactionOutputFile` and `FinishCompactionOutputFile` |
| `Compaction.installResults` | `DBImpl::InstallCompactionResults` (`:880`): the edit |

The loop is that of a compaction that succeeds: no call fails and the database is not shut down. The flush
of the immutable memtable in the middle of the loop touches none of this state. Of a table builder the loop
sees only how large its file has become, which is a parameter.
-/

namespace LevelDbSurf

open Cursors

variable {α : Type} [LinearOrder α]

/-- `MaxGrandParentOverlapBytes`. -/
def maxGrandParentOverlapBytes (options : Options) : Int64 := (10 * targetFileSize options).toInt64

/-- What stays the same during a compaction. `fileSize` is `TableBuilder::FileSize` after these entries
have been added, `finishedSize` after `Finish`. -/
structure CompactionJob (α : Type) [LinearOrder α] where
  options : Options
  inputVersion : Version α
  compaction : Compaction α
  smallestSnapshot : Nat
  fileSize : List (InternalKey α × Bytes) → UInt64
  finishedSize : List (InternalKey α × Bytes) → UInt64

/-! ## Cutting outputs -/

/-- "State used to check for number of overlapping grandparent files". -/
structure StopState where
  grandparentIndex : Nat := 0
  seenKey : Bool := false
  overlappedBytes : Int64 := 0

/-- The loop of `ShouldStopBefore`, over the grandparents that are left. -/
def grandparentLoop (internalKey : InternalKey α) (seenKey : Bool) :
    List (FileMetaData α) → Nat → Int64 → Nat × Int64
  | [], index, bytes => (index, bytes)
  | f :: grandparents, index, bytes =>
    if f.largest < internalKey then
      grandparentLoop internalKey seenKey grandparents (index + 1)
        (if seenKey then (bytes.toUInt64 + f.fileSize).toInt64 else bytes)
    else (index, bytes)

/-- `ShouldStopBefore`. -/
def StopState.shouldStopBefore (job : CompactionJob α) (st : StopState) (internalKey : InternalKey α) :
    Bool × StopState :=
  let (grandparentIndex, overlappedBytes) := grandparentLoop internalKey st.seenKey
    (job.compaction.grandparents.drop st.grandparentIndex) st.grandparentIndex st.overlappedBytes
  if overlappedBytes > maxGrandParentOverlapBytes job.options then
    -- "Too much overlap for current output; start new output"
    (true, { grandparentIndex, seenKey := true, overlappedBytes := 0 })
  else (false, { grandparentIndex, seenKey := true, overlappedBytes })

/-! ## Dropping entries -/

/-- What the loop remembers of the entries before, and the `level_ptrs_` of the compaction. -/
structure DropState (α : Type) where
  levelPtrs : Nat → Nat := fun _ => 0
  currentUserKey : Option α := none
  lastSequenceForKey : Nat := kMaxSequenceNumber

namespace DropState

/-- The `while` of `IsBaseLevelForKey`, over the files that are left: where the pointer stops, and whether
the key "falls in this file's range". -/
def levelPtrLoop (userKey : α) : List (FileMetaData α) → Nat → Nat × Bool
  | [], ptr => (ptr, false)
  | f :: files, ptr =>
    if userKey ≤ f.largest.userKey then (ptr, decide (f.smallest.userKey ≤ userKey))
    else levelPtrLoop userKey files (ptr + 1)

/-- The loop over the levels. -/
def baseLevelLoop (v : Version α) (userKey : α) : List Nat → (Nat → Nat) → Bool × (Nat → Nat)
  | [], levelPtrs => (true, levelPtrs)
  | lvl :: lvls, levelPtrs =>
    let (ptr, inRange) := levelPtrLoop userKey ((v.files lvl).drop (levelPtrs lvl)) (levelPtrs lvl)
    let levelPtrs := fun l => if l = lvl then ptr else levelPtrs l
    if inRange then (false, levelPtrs) else baseLevelLoop v userKey lvls levelPtrs

/-- `lvl` from `level_ + 2` to `config::kNumLevels - 1`. -/
def levelsBelow (level : Nat) : List Nat := List.range' (level + 2) (kNumLevels - (level + 2))

/-- `IsBaseLevelForKey`. -/
def isBaseLevelForKey (job : CompactionJob α) (st : DropState α) (userKey : α) : Bool × DropState α :=
  let (isBase, levelPtrs) :=
    baseLevelLoop job.inputVersion userKey (levelsBelow job.compaction.level) st.levelPtrs
  (isBase, { st with levelPtrs })

/-- "First occurrence of this user key". -/
def enter (st : DropState α) (userKey : α) : DropState α :=
  if st.currentUserKey = some userKey then st
  else { st with currentUserKey := some userKey, lastSequenceForKey := kMaxSequenceNumber }

/-- Whether the entry is dropped. -/
def dropEntry (job : CompactionJob α) (st : DropState α) (key : InternalKey α) : Bool × DropState α :=
  match parseInternalKey key with
  | none =>
    -- "Do not hide error keys"
    (false, { st with currentUserKey := none, lastSequenceForKey := kMaxSequenceNumber })
  | some ikey =>
    let st := st.enter ikey.userKey
    if st.lastSequenceForKey ≤ job.smallestSnapshot then
      (true, { st with lastSequenceForKey := ikey.sequence })  -- (A)
    else if ikey.type = .deletion ∧ ikey.sequence ≤ job.smallestSnapshot then
      let (drop, st) := st.isBaseLevelForKey job ikey.userKey
      (drop, { st with lastSequenceForKey := ikey.sequence })
    else (false, { st with lastSequenceForKey := ikey.sequence })

/-- The entries that are not dropped. -/
def kept (job : CompactionJob α) : DropState α → List (InternalKey α × Bytes) → List (InternalKey α × Bytes)
  | _, [] => []
  | st, x :: input =>
    let (drop, st) := st.dropEntry job x.1
    if drop then kept job st input else x :: kept job st input

end DropState

/-! ## Outputs -/

/-- `CompactionState::Output`, with what has been added to its builder. `smallest` and `largest` are
`none` while cleared. -/
structure Output (α : Type) where
  number : UInt64
  fileSize : UInt64 := 0
  smallest : Option (InternalKey α) := none
  largest : Option (InternalKey α) := none
  entries : List (InternalKey α × Bytes) := []

/-- `smallest.DecodeFrom(key)` for the first entry, `largest.DecodeFrom(key)`, `builder->Add(key, value)`. -/
def Output.add (out : Output α) (x : InternalKey α × Bytes) : Output α :=
  { out with
    smallest := if out.entries.isEmpty then some x.1 else out.smallest
    largest := some x.1
    entries := out.entries ++ [x] }

/-- The state of the loop. `building` is the current output while `builder` is not null; `outputs` are
the ones before it. -/
structure CompactionWork (α : Type) where
  stop : StopState := {}
  drop : DropState α := {}
  outputs : List (Output α) := []
  building : Option (Output α) := none

namespace CompactionWork

/-- The number of calls of `OpenCompactionOutputFile` so far. -/
def opened (st : CompactionWork α) : Nat := st.outputs.length + if st.building.isSome then 1 else 0

/-- `FinishCompactionOutputFile`, if there is a builder. -/
def finishOutput (job : CompactionJob α) (st : CompactionWork α) : CompactionWork α :=
  match st.building with
  | none => st
  | some out =>
    { st with
      outputs := st.outputs ++ [{ out with fileSize := job.finishedSize out.entries }]
      building := none }

/-- `if (!drop)`: the output file is opened, under `number`, if necessary. -/
def addEntry (job : CompactionJob α) (number : UInt64) (st : CompactionWork α)
    (x : InternalKey α × Bytes) : CompactionWork α :=
  let out := (st.building.getD { number }).add x
  let st := { st with building := some out }
  -- "Close output file if it is big enough"
  if job.fileSize out.entries ≥ maxFileSizeForLevel job.options job.compaction.level then st.finishOutput job
  else st

/-- One round of the loop; `number` is what `NewFileNumber` would return. -/
def step (job : CompactionJob α) (number : UInt64) (st : CompactionWork α) (x : InternalKey α × Bytes) :
    CompactionWork α :=
  let (stopBefore, stop) := st.stop.shouldStopBefore job x.1
  let st := { st with stop }
  let st := if stopBefore then st.finishOutput job else st
  let (dropped, drop) := st.drop.dropEntry job x.1
  let st := { st with drop }
  if dropped then st else st.addEntry job number x

/-- The loop; the `i`-th output file opened has the number `newFileNumber i`. -/
def run (job : CompactionJob α) (newFileNumber : Nat → UInt64) (st : CompactionWork α)
    (input : List (InternalKey α × Bytes)) : CompactionWork α :=
  input.foldl (fun st x => st.step job (newFileNumber st.opened) x) st

end CompactionWork

/-- `DoCompactionWork`, for what the input iterator shows: the outputs. -/
def doCompactionWork (job : CompactionJob α) (newFileNumber : Nat → UInt64)
    (input : List (InternalKey α × Bytes)) : List (Output α) :=
  ((CompactionWork.run job newFileNumber {} input).finishOutput job).outputs

/-- The arguments of `AddFile` for an output. -/
def Output.file? (out : Output α) : Option (FileMetaData α) :=
  match out.smallest, out.largest with
  | some smallest, some largest =>
    if ordered : smallest ≤ largest then some ⟨out.number, out.fileSize, smallest, largest, ordered⟩ else none
  | _, _ => none

/-- The edit of `InstallCompactionResults`: `AddInputDeletions`, and the outputs. -/
def Compaction.installResults (c : Compaction α) (outputs : List (Output α)) : VersionEdit α :=
  { compactPointers := c.editPointers
    deletedFiles := c.inputs0.map (fun f => (c.level, f.number)) ++
      c.inputs1.map fun f => (c.level + 1, f.number)
    newFiles := (outputs.filterMap Output.file?).map fun f => (c.level + 1, f) }

/-- The version that `LogAndApply` builds for it. -/
def Compaction.install (c : Compaction α) (v : Version α) (outputs : List (Output α)) : Version α :=
  (Builder.apply { base := v } (c.installResults outputs)).saveTo

/-- The compaction `c` of the current version, which becomes its `input_version_`. -/
def VersionSet.job (vset : VersionSet α) (c : Compaction α) (smallestSnapshot : Nat)
    (fileSize finishedSize : List (InternalKey α × Bytes) → UInt64) : CompactionJob α :=
  { options := vset.options, inputVersion := vset.current, compaction := c, smallestSnapshot, fileSize, finishedSize }

end LevelDbSurf
