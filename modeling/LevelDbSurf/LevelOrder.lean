import LevelDbSurf.LevelRuns
import LevelDbSurf.OneBlockTable

/-!
# What a flush in the middle of a compaction can break

In a clear run all levels from 1 on stay sorted (`run_sortedLevels`), and lower levels newer
(`run_lowerNewer`). The other runs break both. `PickLevelForMemTableOutput` looks at the current version,
which does not have the outputs of the compaction under way; a table that fits between two inputs of level 0
goes to level 1, and then the output, which spans both inputs, is put around it. The assertions of
`MaybeAddFile` (`version_set.cc:740`) and `SaveTo` (`:718`) fail there; without them, the next flush searches
a level that is not sorted, finds no overlap, and puts a newer entry below an older one.
-/

namespace LevelDbSurf

open Cursors

variable {α : Type} [LinearOrder α]

/-- **Levels stay disjoint** in clear runs. -/
theorem Database.run_sortedLevels {env : Environment α} {db : Database α} (h : db.Good)
    {events : List (DatabaseEvent α)} (hclear : db.ClearRun env events) {states : List (Database α)}
    (hrun : db.run env events = some states) : ∀ db' ∈ states, db'.vset.current.SortedLevels :=
  fun db' hdb' => (h.run hclear hrun db' hdb').version.sortedLevels

/-! ## A table in the gap -/

namespace SampleGap

def key (u : UInt8) (sequence : Nat) : InternalKey Bytes := ⟨[u], packSequenceAndType sequence .value⟩

/-- A file of one entry. -/
def file (number : UInt64) (u : UInt8) (sequence : Nat) : FileMetaData Bytes :=
  ⟨number, 500, key u sequence, key u sequence, le_refl _⟩

/-- `a` and `p` on level 0, `n` on level 2. -/
def start : Database Bytes where
  vset :=
    { options := { maxFileSize := 100 }
      tableCache := OneBlock.cache { maxFileSize := 100 } fun _ => none
      current :=
        { files := fun
            | 0 => [file 7 97 2, file 8 112 3]
            | 2 => [file 5 110 1]
            | _ => [] } }
  contents := fun
    | 5 => [(key 110 1, [])]
    | 7 => [(key 97 2, [])]
    | 8 => [(key 112 3, [])]
    | _ => []
  nextFileNumber := 9
  lastSequence := 3

def env : Environment Bytes := { score := fun _ _ => 0, fileSize := fun _ => 0, finishedSize := fun _ => 500 }

theorem mem_files {level : Nat} {f : FileMetaData Bytes} (h : f ∈ start.vset.current.files level) :
    (level = 0 ∧ (f = file 7 97 2 ∨ f = file 8 112 3)) ∨ (level = 2 ∧ f = file 5 110 1) := by
  match level with
  | 0 => simpa [start] using h
  | 1 => cases h
  | 2 => simpa [start] using h
  | _ + 3 => cases h

/-- Every table has one entry, at its smallest key. -/
theorem mem_contents {level : Nat} {f : FileMetaData Bytes} (hf : f ∈ start.vset.current.files level)
    {x : InternalKey Bytes × Bytes} (hx : x ∈ start.contents f.number) : x = (f.smallest, []) := by
  rcases mem_files hf with ⟨-, rfl | rfl⟩ | ⟨-, rfl⟩ <;> exact List.mem_singleton.1 hx

theorem sortedLevels : start.vset.current.SortedLevels := by
  intro level h
  match level with
  | 1 => exact List.Pairwise.nil
  | 2 => exact List.pairwise_singleton _ _
  | _ + 3 => exact List.Pairwise.nil

theorem filedLevels : start.vset.current.FiledLevels := by
  constructor
  · intro level
    match level with
    | 0 => exact List.pairwise_pair.2 (by decide)
    | 1 => exact List.Pairwise.nil
    | 2 => exact List.pairwise_singleton _ _
    | _ + 3 => exact List.Pairwise.nil
  · intro level h
    match level with
    | _ + 7 => rfl

/-- Of every user key there is one entry. -/
theorem file_of_userKey {level level' : Nat} {f g : FileMetaData Bytes} (hf : f ∈ start.vset.current.files level)
    (hg : g ∈ start.vset.current.files level') (h : f.smallest.userKey = g.smallest.userKey) :
    level = level' ∧ f = g := by
  rcases mem_files hf with ⟨rfl, rfl | rfl⟩ | ⟨rfl, rfl⟩ <;>
    rcases mem_files hg with ⟨rfl, rfl | rfl⟩ | ⟨rfl, rfl⟩ <;> revert h <;> decide

theorem seqNewer {level level' : Nat} {f g : FileMetaData Bytes} (hf : f ∈ start.vset.current.files level)
    (hg : g ∈ start.vset.current.files level') (hne : level = level' → f ≠ g) : SeqNewer start.contents f g := by
  intro x hx y hy hu
  rw [mem_contents hf hx, mem_contents hg hy] at hu
  obtain ⟨hlevel, hfg⟩ := file_of_userKey hf hg hu
  exact absurd hfg (hne hlevel)

theorem good : start.Good := by
  refine ⟨⟨filedLevels, sortedLevels, ⟨fun level level' hlt f hf g hg => ?_, fun f hf g hg hlt => ?_⟩,
    fun level f hf => ?_, fun level level' f hf g hg hn => ?_, fun level level' f hf g hg x hx y hy hu _ => ?_⟩,
    by rintro f ⟨⟩, ⟨List.Pairwise.nil, by rintro x ⟨⟩, ?_, by rintro y - x ⟨⟩, by decide⟩,
    ⟨by decide, fun level f hf => ?_⟩, by rintro r ⟨⟩⟩
  · exact seqNewer hf hg fun heq => absurd heq hlt.ne
  · exact seqNewer hf hg fun _ heq => absurd (heq ▸ hlt) (UInt64.lt_irrefl _)
  · rcases mem_files hf with ⟨-, rfl | rfl⟩ | ⟨-, rfl⟩ <;>
      exact ⟨List.pairwise_singleton _ _, List.forall_mem_singleton.2 (by decide),
        by decide, List.forall_mem_singleton.2 (by decide)⟩
  · rcases mem_files hf with ⟨rfl, rfl | rfl⟩ | ⟨rfl, rfl⟩ <;>
      rcases mem_files hg with ⟨rfl, rfl | rfl⟩ | ⟨rfl, rfl⟩ <;> first | rfl | cases hn
  · rw [mem_contents hf hx, mem_contents hg hy] at hu ⊢
    rw [(file_of_userKey hf hg hu).2]
  · rintro y ⟨level, f, hf, hy⟩
    rw [mem_contents hf hy]
    rcases mem_files hf with ⟨-, rfl | rfl⟩ | ⟨-, rfl⟩ <;> decide
  · rcases mem_files hf with ⟨-, rfl | rfl⟩ | ⟨-, rfl⟩ <;> decide

/-! ### The run -/

def compaction : Compaction Bytes :=
  { level := 0, inputs0 := [file 7 97 2, file 8 112 3], grandparents := [file 5 110 1]
    editPointers := [(0, key 112 3)] }

def moved : VersionSet Bytes :=
  { start.vset with
    compactPointer := fun l => if l = 0 then some (key 112 3) else start.vset.compactPointer l }

/-- A manual compaction of all of level 0. -/
theorem compactRange_eq : start.vset.compactRange 0 none none = some (some (compaction, moved)) := by
  have hinputs : start.vset.current.getOverlappingInputs 0 none none = some [file 7 97 2, file 8 112 3] :=
    congrArg some (overlappingInputsLoop_of_done rfl)
  have hnext : ∀ begin_ end_, start.vset.current.getOverlappingInputs 1 begin_ end_ = some [] :=
    fun _ _ => congrArg some (overlappingInputsLoop_of_done rfl)
  have hgrand : start.vset.current.getOverlappingInputs 2 (some (key 97 2)) (some (key 112 3)) =
      some [file 5 110 1] := congrArg some (overlappingInputsLoop_of_done rfl)
  have hend : findSmallestBoundaryFile [file 7 97 2, file 8 112 3] (key 112 3) = none := by decide
  have hboundary : addBoundaryInputs (start.vset.current.files 0) [file 7 97 2, file 8 112 3] =
      [file 7 97 2, file 8 112 3] := addBoundaryLoop_of_none hend
  have hrange : getRange [file 7 97 2, file 8 112 3] = some (key 97 2, key 112 3) := by decide
  have hrange2 : getRange2 [file 7 97 2, file 8 112 3] [] = some (key 97 2, key 112 3) := by decide
  have hfirst : start.vset.firstInputs { level := 0, inputs0 := [file 7 97 2, file 8 112 3] } =
      some ⟨[file 7 97 2, file 8 112 3], [], key 112 3, key 97 2, key 112 3⟩ := by
    have hnone : addBoundaryInputs (start.vset.current.files 1) [] = [] := rfl
    unfold VersionSet.firstInputs
    simp only [hboundary, hrange, hnext, hnone, hrange2, Option.bind_eq_bind, Option.bind_some, Nat.zero_add,
      Option.pure_def]
  have hsetup : start.vset.setupOtherInputs { level := 0, inputs0 := [file 7 97 2, file 8 112 3] } =
      some (compaction, moved) := by
    have hgrand' : start.vset.grandparents { level := 0, inputs0 := [file 7 97 2, file 8 112 3] }
        ⟨[file 7 97 2, file 8 112 3], [], key 112 3, key 97 2, key 112 3⟩ = some [file 5 110 1] := hgrand
    unfold VersionSet.setupOtherInputs
    simp only [hfirst, VersionSet.growInputs, List.isEmpty_nil, if_true, hgrand', Option.bind_eq_bind,
      Option.bind_some, Option.pure_def]
    rfl
  unfold VersionSet.compactRange
  simp only [hinputs, hsetup, Option.bind_eq_bind, Option.bind_some, List.isEmpty_cons, Nat.lt_irrefl, gt_iff_lt,
    if_false, Bool.false_eq_true, Option.pure_def]

def compacting : Database Bytes := start.startCompaction env true 3 compaction moved

def written : Database Bytes := { compacting with mem := [(key 110 4, [])], lastSequence := 4 }

def full : Database Bytes := { written with imm := some [(key 110 4, [])], mem := [], nextFileNumber := 10 }

/-- Levels 0 and 1 do not overlap `n`, level 2 does. -/
theorem pickLevel_n : full.vset.current.pickLevelForMemTableOutput full.vset.options [110] [110] = 1 := by
  have h0 : full.vset.current.overlapInLevel 0 (some [110]) (some [110]) = false := by decide
  have h1 : full.vset.current.overlapInLevel 1 (some [110]) (some [110]) = false := rfl
  have hfind : findFile [file 5 110 1] (lookupKey [110] kMaxSequenceNumber) = 0 := by
    simp [findFile, findFileLoop, file, key, lookupKey, InternalKey.lt_iff, packSequenceAndType,
      kMaxSequenceNumber, kValueTypeForSeek, ValueType.toNat]
  have h2 : full.vset.current.overlapInLevel 2 (some [110]) (some [110]) = true := by
    have hfiles : full.vset.current.files 2 = [file 5 110 1] := rfl
    unfold Version.overlapInLevel someFileOverlapsRange
    simp only [hfiles, hfind]
    decide
  have hgrand : full.vset.current.getOverlappingInputs 2 (some (lookupKey [110] kMaxSequenceNumber))
      (some ⟨[110], packSequenceAndType 0 .deletion⟩) = some [file 5 110 1] :=
    congrArg some (overlappingInputsLoop_of_done rfl)
  have hsmall : ¬ totalFileSize [file 5 110 1] > maxGrandParentOverlapBytes full.vset.options := by decide
  unfold Version.pickLevelForMemTableOutput kMaxMemCompactLevel
  simp [Version.pickLevelLoop, h0, h1, h2, hgrand, hsmall]

def flushed : Database Bytes :=
  { full.logAndApply env (VersionEdit.addFile {} 1 (file 10 110 4)) with
    contents := fun number => if number = 10 then [(key 110 4, [])] else full.contents number
    nextFileNumber := 11
    imm := none }

theorem compactMemTable_full : full.compactMemTable env 500 = some flushed := by
  have hnumber : full.newFileNumber = 10 := rfl
  have hentries : mergeAll [[(key 110 4, ([] : Bytes))]] = [(key 110 4, [])] := rfl
  have hbuild : buildTable 10 500 [(key 110 4, ([] : Bytes))] = some (file 10 110 4) := rfl
  have hedit : full.writeLevel0Table 500 [(key 110 4, [])] = VersionEdit.addFile {} 1 (file 10 110 4) := by
    unfold Database.writeLevel0Table
    rw [hnumber, hbuild]
    exact congrArg (VersionEdit.addFile {} · (file 10 110 4)) pickLevel_n
  have himm : full.imm = some [(key 110 4, [])] := rfl
  unfold Database.compactMemTable
  simp only [himm, hentries, hedit, hnumber]
  rfl

def working : Database Bytes := flushed.workOn.getD flushed

/-- The loop has read `a` and `p`. -/
def finished : Database Bytes := working.workOn.getD working

/-- `n` is written and flushed while the compaction runs. -/
def events : List (DatabaseEvent Bytes) :=
  [.compactRange 0 none none 3, .write [([110], .value, [])], .switchMemTable, .compactMemTable 500, .workOn,
    .workOn]

theorem step_compacting : start.step env (.compactRange 0 none none 3) = some compacting := by
  unfold Database.step
  dsimp only
  rw [compactRange_eq]
  rfl

open Database in
theorem run_events (later : List (DatabaseEvent Bytes)) {states : List (Database Bytes)}
    (h : finished.run env later = some states) : start.run env (events ++ later) =
      some (start :: compacting :: written :: full :: flushed :: working :: states) :=
  run_cons_some.2 ⟨_, _, step_compacting, run_cons_some.2 ⟨written, _, rfl, run_cons_some.2 ⟨full, _, rfl,
    run_cons_some.2 ⟨_, _, compactMemTable_full, run_cons_some.2 ⟨working, _, rfl,
      run_cons_some.2 ⟨finished, _, rfl, h, rfl⟩, rfl⟩, rfl⟩, rfl⟩, rfl⟩, rfl⟩

theorem clearRun : start.ClearRun env events :=
  ⟨trivial, fun _ _ => ⟨trivial, fun _ _ => ⟨trivial, fun _ _ => ⟨trivial, fun _ _ => ⟨trivial, fun _ _ =>
    ⟨trivial, fun _ _ => trivial⟩⟩⟩⟩⟩⟩

def installed : Database Bytes := (finished.installCompaction env).getD finished

/-- Both inputs, in one table. -/
def output : FileMetaData Bytes := ⟨11, 500, key 97 2, key 112 3, by decide⟩

theorem files_installed : installed.vset.current.files 0 = [] ∧
    installed.vset.current.files 1 = [output, file 10 110 4] ∧ installed.vset.current.files 2 = [file 5 110 1] :=
  ⟨rfl, rfl, rfl⟩

end SampleGap

/-- Until the outputs are installed, all is well. -/
theorem Database.run_sortedLevels_sample :
    ∃ states, SampleGap.start.run SampleGap.env SampleGap.events = some states ∧ states.length = 7 ∧
      ∀ db' ∈ states, db'.vset.current.SortedLevels :=
  have hrun := SampleGap.run_events [] rfl
  ⟨_, hrun, rfl, Database.run_sortedLevels SampleGap.good SampleGap.clearRun hrun⟩

/-- The table of `n` lies inside the output. -/
theorem Database.run_overlap : SampleGap.start.Good ∧
    ∃ states, SampleGap.start.run SampleGap.env (SampleGap.events ++ [.installCompaction]) = some states ∧
      ∃ db' ∈ states, ¬ db'.vset.current.SortedLevels := by
  have hrun : SampleGap.finished.run SampleGap.env [.installCompaction] =
      some [SampleGap.finished, SampleGap.installed] := rfl
  refine ⟨SampleGap.good, _, SampleGap.run_events _ hrun, SampleGap.installed, by simp, fun hsorted => ?_⟩
  have hlevel := hsorted 1 (le_refl 1)
  rw [LevelSorted, SampleGap.files_installed.2.1] at hlevel
  exact absurd (List.pairwise_pair.1 hlevel) (by decide)

/-! ## Lower levels -/

/-- **Lower levels are newer** in clear runs. -/
theorem Database.run_lowerNewer {env : Environment α} {db : Database α} (h : db.Good)
    {events : List (DatabaseEvent α)} (hclear : db.ClearRun env events) {states : List (Database α)}
    (hrun : db.run env events = some states) : ∀ db' ∈ states, LowerNewer db'.contents db'.vset.current :=
  fun db' hdb' => (h.run hclear hrun db' hdb').version.lowerNewer

theorem Database.run_lowerNewer_sample :
    ∃ states, SampleGap.start.run SampleGap.env SampleGap.events = some states ∧ states.length = 7 ∧
      ∀ db' ∈ states, LowerNewer db'.contents db'.vset.current :=
  have hrun := SampleGap.run_events [] rfl
  ⟨_, hrun, rfl, Database.run_lowerNewer SampleGap.good SampleGap.clearRun hrun⟩

namespace SampleGap

/-- A newer `p` is written. -/
def written' : Database Bytes := { installed with mem := [(key 112 5, [])], lastSequence := 5 }

def full' : Database Bytes := { written' with imm := some [(key 112 5, [])], mem := [], nextFileNumber := 13 }

/-- The search on level 1 passes the output: its place is before the table of `n`, which ends before `p`. -/
theorem pickLevel_p : full'.vset.current.pickLevelForMemTableOutput full'.vset.options [112] [112] = 2 := by
  have hlt : ([110] : Bytes) < [112] := by decide
  have h0 : full'.vset.current.overlapInLevel 0 (some [112]) (some [112]) = false := rfl
  have hfind1 : findFile [output, file 10 110 4] (lookupKey [112] kMaxSequenceNumber) = 2 := by
    simp [findFile, findFileLoop, output, file, key, lookupKey, InternalKey.lt_iff, packSequenceAndType,
      kMaxSequenceNumber, kValueTypeForSeek, ValueType.toNat, hlt]
  have h1 : full'.vset.current.overlapInLevel 1 (some [112]) (some [112]) = false := by
    have hfiles : full'.vset.current.files 1 = [output, file 10 110 4] := files_installed.2.1
    unfold Version.overlapInLevel someFileOverlapsRange
    simp only [hfiles, hfind1]
    decide
  have hfind2 : findFile [file 5 110 1] (lookupKey [112] kMaxSequenceNumber) = 1 := by
    simp [findFile, findFileLoop, file, key, lookupKey, InternalKey.lt_iff, packSequenceAndType,
      kMaxSequenceNumber, kValueTypeForSeek, ValueType.toNat, hlt]
  have h2 : full'.vset.current.overlapInLevel 2 (some [112]) (some [112]) = false := by
    have hfiles : full'.vset.current.files 2 = [file 5 110 1] := files_installed.2.2
    unfold Version.overlapInLevel someFileOverlapsRange
    simp only [hfiles, hfind2]
    decide
  have hgrand : ∀ level, level = 2 ∨ level = 3 → full'.vset.current.getOverlappingInputs level
      (some (lookupKey [112] kMaxSequenceNumber)) (some ⟨[112], packSequenceAndType 0 .deletion⟩) = some [] := by
    rintro level (rfl | rfl) <;> exact congrArg some (overlappingInputsLoop_of_done rfl)
  have hsmall : ¬ totalFileSize ([] : List (FileMetaData Bytes)) > maxGrandParentOverlapBytes full'.vset.options := by
    decide
  unfold Version.pickLevelForMemTableOutput kMaxMemCompactLevel
  simp [Version.pickLevelLoop, h0, h1, h2, hgrand, hsmall]

def flushed' : Database Bytes :=
  { full'.logAndApply env (VersionEdit.addFile {} 2 (file 13 112 5)) with
    contents := fun number => if number = 13 then [(key 112 5, [])] else full'.contents number
    nextFileNumber := 14
    imm := none }

theorem compactMemTable_full' : full'.compactMemTable env 500 = some flushed' := by
  have hnumber : full'.newFileNumber = 13 := rfl
  have hentries : mergeAll [[(key 112 5, ([] : Bytes))]] = [(key 112 5, [])] := rfl
  have hbuild : buildTable 13 500 [(key 112 5, ([] : Bytes))] = some (file 13 112 5) := rfl
  have hedit : full'.writeLevel0Table 500 [(key 112 5, [])] = VersionEdit.addFile {} 2 (file 13 112 5) := by
    unfold Database.writeLevel0Table
    rw [hnumber, hbuild]
    exact congrArg (VersionEdit.addFile {} · (file 13 112 5)) pickLevel_p
  have himm : full'.imm = some [(key 112 5, [])] := rfl
  unfold Database.compactMemTable
  simp only [himm, hentries, hedit, hnumber]
  rfl

end SampleGap

/-- The older `p` is on level 1, the newer one on level 2. -/
theorem Database.run_olderAbove : SampleGap.start.Good ∧
    ∃ states, SampleGap.start.run SampleGap.env (SampleGap.events ++ [.installCompaction,
        .write [([112], .value, [])], .switchMemTable, .compactMemTable 500]) = some states ∧
      ∃ db' ∈ states, ¬ LowerNewer db'.contents db'.vset.current := by
  have hrun : SampleGap.finished.run SampleGap.env [.installCompaction, .write [([112], .value, [])],
      .switchMemTable, .compactMemTable 500] = some [SampleGap.finished, SampleGap.installed, SampleGap.written',
        SampleGap.full', SampleGap.flushed'] :=
    run_cons_some.2 ⟨SampleGap.installed, _, rfl, run_cons_some.2 ⟨SampleGap.written', _, rfl,
      run_cons_some.2 ⟨SampleGap.full', _, rfl, run_cons_some.2 ⟨_, _, SampleGap.compactMemTable_full', rfl, rfl⟩,
        rfl⟩, rfl⟩, rfl⟩
  refine ⟨SampleGap.good, _, SampleGap.run_events _ hrun, SampleGap.flushed', by simp, fun hnewer => ?_⟩
  have h1 : SampleGap.output ∈ SampleGap.flushed'.vset.current.files 1 := List.mem_cons_self
  have h2 : SampleGap.file 13 112 5 ∈ SampleGap.flushed'.vset.current.files 2 :=
    List.mem_cons_of_mem _ List.mem_cons_self
  have hlt := hnewer.levels 1 2 (by decide) _ h1 _ h2 (SampleGap.key 112 3, [])
    (List.mem_cons_of_mem _ List.mem_cons_self) (SampleGap.key 112 5, []) List.mem_cons_self rfl
  exact absurd hlt (by decide)

end LevelDbSurf
