import LevelDbSurf.VersionEdit
import LevelDbSurf.Compaction

/-!
# The descriptor log and its recovery (`version_set.cc:795-1115`)

| here | there |
| --- | --- |
| `LoggedVersionSet`     | `VersionSet`, with the counters and the records of `descriptor_log_` |
| `logAndApply`          | `VersionSet::LogAndApply` (`:795`), when the file system reports no error |
| `writeSnapshot`        | `VersionSet::WriteSnapshot` (`:1087`) |
| `finalize`             | `VersionSet::Finalize` (`:1049`), for the scores it computes in doubles |
| `recover`              | `VersionSet::Recover` (`:879`), from the records of the descriptor on |

The running database builds a version for each edit, from the one before; recovery applies all edits to
one builder over the empty version. `Rebuilds` is what the builder and the running version share after
each edit: the files added so far and not deleted are the files of the version.
-/

namespace LevelDbSurf

variable {α : Type} [LinearOrder α]

/-- `VersionSet`, as `LogAndApply` and `Recover` see it; `descriptorLog` holds the records of the
descriptor, `none` while `descriptor_log_` is null. -/
structure LoggedVersionSet (α : Type) [LinearOrder α] where
  comparatorName : String
  current : Version α
  compactPointer : Nat → Option (InternalKey α)
  nextFileNumber : UInt64
  manifestFileNumber : UInt64
  lastSequence : Nat
  logNumber : UInt64
  prevLogNumber : UInt64
  descriptorLog : Option (List (VersionEdit α))

/-- The loop of `Finalize`: the best level and its score. -/
def bestLevel (score : Nat → List (FileMetaData α) → Rat) (v : Version α) : Nat × Rat :=
  (List.range (kNumLevels - 1)).foldl (fun best level =>
    if score level (v.files level) > best.2 then (level, score level (v.files level)) else best) (0, -1)

/-- `Finalize`. -/
def finalize (score : Nat → List (FileMetaData α) → Rat) (v : Version α) : Version α :=
  { v with compactionLevel := (bestLevel score v).1, compactionScore := (bestLevel score v).2 }

@[simp] theorem finalize_files (score : Nat → List (FileMetaData α) → Rat) (v : Version α) :
    (finalize score v).files = v.files := by
  unfold finalize
  rfl

/-- "Update compaction pointers" (`:648`). -/
def applyPointers (compactPointer : Nat → Option (InternalKey α)) (edit : VersionEdit α) :
    Nat → Option (InternalKey α) :=
  edit.compactPointers.foldl (fun compactPointer e l => if l = e.1 then some e.2 else compactPointer l)
    compactPointer

namespace LoggedVersionSet

/-- `WriteSnapshot`: the record. -/
def writeSnapshot (vset : LoggedVersionSet α) : VersionEdit α :=
  { comparator := some vset.comparatorName
    compactPointers := (List.range kNumLevels).filterMap fun level =>
      (vset.compactPointer level).map fun key => (level, key)
    newFiles := (List.range kNumLevels).flatMap fun level =>
      (vset.current.files level).map fun f => (level, f) }

/-- The start of `LogAndApply`: the numbers the edit does not set. -/
def completeEdit (vset : LoggedVersionSet α) (edit : VersionEdit α) : VersionEdit α :=
  { edit with
    logNumber := some (edit.logNumber.getD vset.logNumber)
    prevLogNumber := some (edit.prevLogNumber.getD vset.prevLogNumber)
    nextFileNumber := some vset.nextFileNumber
    lastSequence := some vset.lastSequence }

/-- `LogAndApply`. The first call of a new version set starts the descriptor with a snapshot. -/
def logAndApply (score : Nat → List (FileMetaData α) → Rat) (vset : LoggedVersionSet α)
    (edit : VersionEdit α) : LoggedVersionSet α :=
  let edit := vset.completeEdit edit
  let v := finalize score ((Builder.apply { base := vset.current } edit).saveTo)
  let vset := { vset with compactPointer := applyPointers vset.compactPointer edit }
  let records := vset.descriptorLog.getD [vset.writeSnapshot]
  { vset with
    descriptorLog := some (records ++ [edit])
    current := v
    logNumber := edit.logNumber.getD 0
    prevLogNumber := edit.prevLogNumber.getD 0 }

/-! ## `Recover` -/

/-- The errors `Recover` makes itself. -/
inductive RecoverError where
  | invalidArgument (msg msg2 : String)
  | corruption (msg : String)
deriving DecidableEq, Repr

/-- The locals of the loop of `Recover`, and `compact_pointer_`; the `have_..._` flags are the
`Option`s. -/
structure RecoverState (α : Type) [LinearOrder α] where
  builder : Builder α
  compactPointer : Nat → Option (InternalKey α)
  logNumber : Option UInt64 := none
  prevLogNumber : Option UInt64 := none
  nextFile : Option UInt64 := none
  lastSequence : Option Nat := none

/-- The body of the loop, for an edit of the right comparator. -/
def RecoverState.take (st : RecoverState α) (edit : VersionEdit α) : RecoverState α :=
  { builder := st.builder.apply edit
    compactPointer := applyPointers st.compactPointer edit
    logNumber := edit.logNumber.or st.logNumber
    prevLogNumber := edit.prevLogNumber.or st.prevLogNumber
    nextFile := edit.nextFileNumber.or st.nextFile
    lastSequence := edit.lastSequence.or st.lastSequence }

/-- The loop of `Recover`. -/
def recoverLoop (comparatorName : String) :
    RecoverState α → List (VersionEdit α) → Except RecoverError (RecoverState α)
  | st, [] => .ok st
  | st, edit :: records =>
    match edit.comparator with
    | some name =>
      if name ≠ comparatorName then
        .error (.invalidArgument (name ++ " does not match existing comparator ") comparatorName)
      else recoverLoop comparatorName (st.take edit) records
    | none => recoverLoop comparatorName (st.take edit) records

/-- `Recover`, for the edits its log reader decodes. `ReuseManifest` is left out. -/
def recover (score : Nat → List (FileMetaData α) → Rat) (vset : LoggedVersionSet α)
    (records : List (VersionEdit α)) : Except RecoverError (LoggedVersionSet α) :=
  match recoverLoop vset.comparatorName
      { builder := { base := vset.current }, compactPointer := vset.compactPointer } records with
  | .error e => .error e
  | .ok st =>
    match st.nextFile, st.logNumber, st.lastSequence with
    | none, _, _ => .error (.corruption "no meta-nextfile entry in descriptor")
    | some _, none, _ => .error (.corruption "no meta-lognumber entry in descriptor")
    | some _, some _, none => .error (.corruption "no last-sequence-number entry in descriptor")
    | some nextFile, some logNumber, some lastSequence =>
      .ok { vset with
        compactPointer := st.compactPointer
        current := finalize score st.builder.saveTo
        manifestFileNumber := nextFile
        nextFileNumber := nextFile + 1
        lastSequence
        logNumber
        prevLogNumber := st.prevLogNumber.getD 0 }

end LoggedVersionSet

/-! ## Edits that fit -/

/-- The files of every level are in order, and there are no others. -/
structure Version.FiledLevels (v : Version α) : Prop where
  filed : ∀ level, Filed (v.files level)
  none_beyond : ∀ level, kNumLevels ≤ level → v.files level = []

theorem Version.FiledLevels.nodup {v : Version α} (h : v.FiledLevels) (level : Nat) : (v.files level).Nodup :=
  List.Pairwise.imp (fun hne heq => hne.2 (congrArg _ heq)) (h.filed level)

/-- A file of this number is in the level. -/
def Version.Holds (v : Version α) (level : Nat) (number : UInt64) : Prop :=
  ∃ f ∈ v.files level, f.number = number

/-- The numbers the edit adds to a level have not been added to it before, and are not twice in it. -/
structure VersionEdit.Fits (seen : Nat → UInt64 → Prop) (edit : VersionEdit α) : Prop where
  fresh : ∀ level, ∀ f ∈ edit.added level, ¬ seen level f.number
  once : ∀ level, (edit.added level).Pairwise fun f g => f.number ≠ g.number

/-- Every number is added to a level at most once by all the edits; `seen` are the earlier ones. -/
def EditsFit : (Nat → UInt64 → Prop) → List (VersionEdit α) → Prop
  | _, [] => True
  | seen, edit :: edits =>
    edit.Fits seen ∧ EditsFit (fun level n => seen level n ∨ ∃ f ∈ edit.added level, f.number = n) edits

/-! ## One version for each edit, and one for all -/

/-- What the builder has collected, of files whose numbers are all among `seen`, comes to the files of
the version. -/
structure Rebuilds (seen : Nat → UInt64 → Prop) (b : Builder α) (v : Version α) : Prop where
  filed : ∀ level, Filed (b.levels level).addedFiles
  seen_of_added : ∀ level, ∀ f ∈ (b.levels level).addedFiles, seen level f.number
  files : ∀ level, v.files level = if level < kNumLevels then
    (b.levels level).addedFiles.filter fun f => decide (f.number ∉ (b.levels level).deletedFiles) else []

namespace Builder

/-- What an edit makes of a level. -/
theorem apply_deleted {b : Builder α} {edit : VersionEdit α} {level : Nat} {n : UInt64} :
    n ∈ ((b.apply edit).levels level).deletedFiles ↔
      (n ∈ edit.deleted level ∨ n ∈ (b.levels level).deletedFiles) ∧ ∀ f ∈ edit.added level, f.number ≠ n := by
  rw [apply_levels, LevelState.foldl_add_deleted, (LevelState.foldl_delete _ _).1]

theorem apply_added (b : Builder α) (edit : VersionEdit α) (level : Nat)
    (hb : Filed (b.levels level).addedFiles)
    (hnew : ∀ f ∈ edit.added level, ∀ g ∈ (b.levels level).addedFiles, g.number ≠ f.number)
    (honce : (edit.added level).Pairwise fun f g => f.number ≠ g.number) :
    Filed ((b.apply edit).levels level).addedFiles ∧
      ∀ f, f ∈ ((b.apply edit).levels level).addedFiles ↔
        f ∈ edit.added level ∨ f ∈ (b.levels level).addedFiles := by
  have hdelete := (LevelState.foldl_delete (edit.deleted level) (b.levels level)).2
  have hadd := LevelState.foldl_add_added (edit.added level)
    (s := (edit.deleted level).foldl LevelState.delete (b.levels level)) (by rw [hdelete]; exact hb)
    (by rw [hdelete]; exact hnew) honce
  rw [hdelete] at hadd
  rw [apply_levels]
  exact hadd

/-- **One edit.** The version built from `v`: the added files, and those of `v` that are not deleted. -/
theorem saveTo_apply {v : Version α} (hv : v.FiledLevels) (edit : VersionEdit α)
    (honce : ∀ level, (edit.added level).Pairwise fun f g => f.number ≠ g.number)
    (hnew : ∀ level, ∀ g ∈ edit.added level, ¬ v.Holds level g.number) :
    ((Builder.apply { base := v } edit).saveTo).FiledLevels ∧
      ∀ level < kNumLevels, ∀ f, f ∈ ((Builder.apply { base := v } edit).saveTo).files level ↔
        f ∈ edit.added level ∨ f ∈ v.files level ∧ f.number ∉ edit.deleted level := by
  have hadded : ∀ level, Filed ((Builder.apply { base := v } edit).levels level).addedFiles ∧
      ∀ f, f ∈ ((Builder.apply { base := v } edit).levels level).addedFiles ↔ f ∈ edit.added level := by
    intro level
    obtain ⟨hfiled, hmem⟩ := apply_added { base := v } edit level
      List.Pairwise.nil (by rintro f - g ⟨⟩) (honce level)
    refine ⟨hfiled, fun f => ?_⟩
    rw [hmem]
    simp
  have hdeleted : ∀ level n, n ∈ ((Builder.apply { base := v } edit).levels level).deletedFiles ↔
      n ∈ edit.deleted level ∧ ∀ f ∈ edit.added level, f.number ≠ n := by
    intro level n
    rw [apply_deleted]
    simp
  refine ⟨⟨fun level => ?_, fun level hl => if_neg (Nat.not_lt.2 hl)⟩, fun level hl f => ?_⟩
  · unfold saveTo
    dsimp only
    split
    · rw [apply_base]
      refine saveFiles_filed (hv.filed level) (hadded level).1 fun g hg f hf hn => ?_
      exact absurd ⟨f, hf, hn⟩ (hnew level g (((hadded level).2 g).1 hg))
    · exact List.Pairwise.nil
  · unfold saveTo
    dsimp only
    rw [if_pos hl, apply_base, mem_saveFiles, (hadded level).2, hdeleted]
    constructor
    · rintro ⟨hf | hf, hkept⟩
      · exact Or.inr ⟨hf, fun hdel => hkept ⟨hdel, fun g hg hn => hnew level g hg ⟨f, hf, hn.symm⟩⟩⟩
      · exact Or.inl hf
    · rintro (hf | ⟨hf, hkept⟩)
      · exact ⟨Or.inr hf, fun h => h.2 f hf rfl⟩
      · exact ⟨Or.inl hf, fun h => hkept h.1⟩

end Builder

/-- **Step.** One more edit for both. -/
theorem Rebuilds.step {seen : Nat → UInt64 → Prop} {b : Builder α} {v : Version α} (h : Rebuilds seen b v)
    (edit : VersionEdit α) (hfits : edit.Fits seen) :
    Rebuilds (fun level n => seen level n ∨ ∃ f ∈ edit.added level, f.number = n) (b.apply edit)
      (Builder.apply { base := v } edit).saveTo := by
  have hfiled : v.FiledLevels := by
    refine ⟨fun level => ?_, fun level hl => by rw [h.files, if_neg (Nat.not_lt.2 hl)]⟩
    rw [h.files]
    split
    · exact (h.filed level).filter _
    · exact List.Pairwise.nil
  have hholds : ∀ level n, v.Holds level n → seen level n := by
    rintro level n ⟨f, hf, rfl⟩
    rw [h.files] at hf
    split at hf
    · exact h.seen_of_added level f (List.mem_filter.1 hf).1
    · cases hf
  have hadded : ∀ level, Filed ((b.apply edit).levels level).addedFiles ∧
      ∀ f, f ∈ ((b.apply edit).levels level).addedFiles ↔
        f ∈ edit.added level ∨ f ∈ (b.levels level).addedFiles := fun level =>
    Builder.apply_added b edit level (h.filed level)
      (fun f hf g hg hn => hfits.fresh level f hf (hn ▸ h.seen_of_added level g hg)) (hfits.once level)
  obtain ⟨hfiled', hmem'⟩ := Builder.saveTo_apply hfiled edit hfits.once
    fun level g hg hholds' => hfits.fresh level g hg (hholds level _ hholds')
  refine ⟨fun level => (hadded level).1, fun level f hf => ?_, fun level => ?_⟩
  · rcases ((hadded level).2 f).1 hf with hf | hf
    · exact Or.inr ⟨f, hf, rfl⟩
    · exact Or.inl (h.seen_of_added level f hf)
  · split
    · rename_i hl
      -- both sides are in order, so only membership counts
      refine (hfiled'.filed level).ext ((hadded level).1.filter _) fun f => ?_
      rw [hmem' level hl, h.files, if_pos hl, List.mem_filter, List.mem_filter, (hadded level).2,
        decide_eq_true_eq, decide_eq_true_eq, Builder.apply_deleted]
      by_cases hf : f ∈ edit.added level
      · refine iff_of_true (Or.inl hf) ⟨Or.inl hf, fun hdel => hdel.2 f hf rfl⟩
      · by_cases hold : f ∈ (b.levels level).addedFiles
        · have hother : ∀ g ∈ edit.added level, g.number ≠ f.number := fun g hg hn =>
            hfits.fresh level g hg (hn ▸ h.seen_of_added level f hold)
          simp only [hf, hold, false_or, true_and]
          tauto
        · simp only [hf, hold, false_or, false_and]
    · rename_i hl
      exact hfiled'.none_beyond level (Nat.not_lt.1 hl)

/-! ## The running database -/

namespace LoggedVersionSet

/-- What happens to a version set between restarts: an edit is logged and applied, or the other threads
move the counters, and setting up a compaction its pointers. -/
inductive Event (α : Type) [LinearOrder α] where
  | logAndApply (edit : VersionEdit α)
  | advance (nextFileNumber : UInt64) (lastSequence : Nat) (compactPointer : Nat → Option (InternalKey α))

def step (score : Nat → List (FileMetaData α) → Rat) (vset : LoggedVersionSet α) :
    Event α → LoggedVersionSet α
  | .logAndApply edit => vset.logAndApply score edit
  | .advance nextFileNumber lastSequence compactPointer =>
    { vset with nextFileNumber, lastSequence, compactPointer }

def run (score : Nat → List (FileMetaData α) → Rat) (vset : LoggedVersionSet α) (events : List (Event α)) :
    LoggedVersionSet α :=
  events.foldl (step score) vset

/-- The edit of an event. -/
def Event.edit? : Event α → Option (VersionEdit α)
  | .logAndApply edit => some edit
  | .advance _ _ _ => none

/-- The last value the records give a field. -/
def lastSet {β : Type} (field : VersionEdit α → Option β) (records : List (VersionEdit α)) : Option β :=
  (records.filterMap field).getLast?

/-- The last pointer the records give a level. -/
def lastPointer (records : List (VersionEdit α)) (level : Nat) : Option (InternalKey α) :=
  (((records.flatMap (·.compactPointers)).filter fun e => decide (e.1 = level)).getLast?).map (·.2)

/-! ### What the loop of `Recover` collects -/

/-- The comparator an edit names is that of the version set. -/
def NamesComparator (name : String) (edit : VersionEdit α) : Prop :=
  ∀ name' ∈ edit.comparator, name' = name

theorem recoverLoop_eq {name : String} {records : List (VersionEdit α)}
    (h : ∀ edit ∈ records, NamesComparator name edit) (st : RecoverState α) :
    recoverLoop name st records = .ok (records.foldl RecoverState.take st) := by
  induction records generalizing st with
  | nil => rfl
  | cons edit records ih =>
    have hrecords := ih fun e he => h e (List.mem_cons_of_mem _ he)
    unfold recoverLoop
    split
    · rename_i name' hname
      rw [if_neg (not_not.2 (h edit List.mem_cons_self name' hname)), hrecords]
      rfl
    · rw [hrecords]
      rfl

@[simp] theorem lastSet_nil {β : Type} (field : VersionEdit α → Option β) : lastSet field [] = none := rfl

theorem lastSet_concat {β : Type} (field : VersionEdit α → Option β) (records : List (VersionEdit α))
    (edit : VersionEdit α) : lastSet field (records ++ [edit]) = (field edit).or (lastSet field records) := by
  unfold lastSet
  cases hfield : field edit <;> simp [List.filterMap_append, hfield]

theorem applyPointers_eq (compactPointer : Nat → Option (InternalKey α)) (edit : VersionEdit α)
    (level : Nat) :
    applyPointers compactPointer edit level =
      (((edit.compactPointers.filter fun e => decide (e.1 = level)).getLast?).map (·.2)).or
        (compactPointer level) := by
  unfold applyPointers
  generalize edit.compactPointers = pointers
  induction pointers using List.reverseRecOn with
  | nil => rfl
  | append_singleton pointers e ih =>
    rw [List.foldl_append, List.foldl_cons, List.foldl_nil, List.filter_append]
    by_cases he : level = e.1
    · simp [he]
    · have he' : ¬ e.1 = level := fun h => he h.symm
      rw [if_neg he, ih]
      simp [he']

@[simp] theorem lastPointer_nil (level : Nat) : lastPointer ([] : List (VersionEdit α)) level = none := rfl

theorem lastPointer_concat (records : List (VersionEdit α)) (edit : VersionEdit α) (level : Nat) :
    lastPointer (records ++ [edit]) level = applyPointers (lastPointer records) edit level := by
  rw [applyPointers_eq]
  unfold lastPointer
  rw [List.flatMap_append, List.flatMap_singleton, List.filter_append, List.getLast?_append]
  cases (edit.compactPointers.filter fun e => decide (e.1 = level)).getLast? <;> simp

/-- **The loop of `Recover`**: one builder for all edits, and of everything else the last value. -/
theorem foldl_take (b : Builder α) (records : List (VersionEdit α)) :
    records.foldl RecoverState.take { builder := b, compactPointer := fun _ => none } =
      { builder := records.foldl Builder.apply b
        compactPointer := lastPointer records
        logNumber := lastSet (·.logNumber) records
        prevLogNumber := lastSet (·.prevLogNumber) records
        nextFile := lastSet (·.nextFileNumber) records
        lastSequence := lastSet (·.lastSequence) records } := by
  induction records using List.reverseRecOn with
  | nil => rfl
  | append_singleton records edit ih =>
    have hpointers : lastPointer (records ++ [edit]) = applyPointers (lastPointer records) edit :=
      funext fun level => lastPointer_concat records edit level
    rw [List.foldl_append, List.foldl_append, ih, hpointers]
    simp only [List.foldl_cons, List.foldl_nil, RecoverState.take, lastSet_concat]

/-! ### What the descriptor holds -/

/-- The version before the first edit of a new database. -/
def noFiles : Version α := { files := fun _ => [] }

theorem added_flatMap (files : Nat → List (FileMetaData α)) {levels : List Nat} (hnodup : levels.Nodup)
    (level : Nat) :
    ((levels.flatMap fun l => (files l).map fun f => (l, f)).filter fun e => decide (e.1 = level)).map (·.2) =
      if level ∈ levels then files level else [] := by
  induction levels with
  | nil => rfl
  | cons l levels ih =>
    obtain ⟨hl, hnodup⟩ := List.nodup_cons.1 hnodup
    rw [List.flatMap_cons, List.filter_append, List.map_append, ih hnodup, List.filter_map, List.map_map]
    by_cases he : l = level
    · subst he
      simp [hl, Function.comp_def]
    · simp [he, Ne.symm he, Function.comp_def]

theorem writeSnapshot_added (vset : LoggedVersionSet α) (level : Nat) :
    vset.writeSnapshot.added level = if level < kNumLevels then vset.current.files level else [] := by
  unfold VersionEdit.added writeSnapshot
  simp only [added_flatMap _ List.nodup_range, List.mem_range]

/-- The snapshot rebuilds the version it is taken of. -/
theorem rebuilds_snapshot {vset : LoggedVersionSet α} (h : vset.current.FiledLevels) :
    Rebuilds vset.current.Holds (Builder.apply { base := noFiles } vset.writeSnapshot) vset.current := by
  have honce : ∀ level, Filed (vset.writeSnapshot.added level) := by
    intro level
    rw [writeSnapshot_added]
    split
    · exact h.filed level
    · exact List.Pairwise.nil
  have hbuilt : ∀ level, Filed ((Builder.apply { base := noFiles } vset.writeSnapshot).levels level).addedFiles ∧
      ∀ f, f ∈ ((Builder.apply { base := noFiles } vset.writeSnapshot).levels level).addedFiles ↔
        f ∈ vset.writeSnapshot.added level := by
    intro level
    obtain ⟨hfiled, hmem⟩ := Builder.apply_added { base := noFiles } vset.writeSnapshot
      level List.Pairwise.nil (by rintro f - g ⟨⟩) ((honce level).imp fun h => h.2)
    refine ⟨hfiled, fun f => ?_⟩
    rw [hmem]
    simp
  have hnotdeleted : ∀ level n,
      n ∉ ((Builder.apply { base := noFiles } vset.writeSnapshot).levels level).deletedFiles := by
    intro level n
    rw [Builder.apply_deleted]
    simp [writeSnapshot]
  refine ⟨fun level => (hbuilt level).1, fun level f hf => ?_, fun level => ?_⟩
  · rw [(hbuilt level).2, writeSnapshot_added] at hf
    split at hf
    · exact ⟨f, hf, rfl⟩
    · cases hf
  · split
    · rename_i hl
      refine (h.filed level).ext ((hbuilt level).1.filter _) fun f => ?_
      rw [List.mem_filter, (hbuilt level).2, writeSnapshot_added, if_pos hl]
      simp [hnotdeleted]
    · rename_i hl
      exact h.none_beyond level (Nat.not_lt.1 hl)

/-- What the descriptor of a running version set holds, of which `seen` are the files added so far. -/
structure Logged (seen : Nat → UInt64 → Prop) (vset : LoggedVersionSet α)
    (records : List (VersionEdit α)) : Prop where
  rebuilds : Rebuilds seen (records.foldl Builder.apply { base := noFiles }) vset.current
  comparator : ∀ edit ∈ records, NamesComparator vset.comparatorName edit
  logNumber : lastSet (·.logNumber) records = some vset.logNumber
  prevLogNumber : lastSet (·.prevLogNumber) records = some vset.prevLogNumber
  nextFile : (lastSet (·.nextFileNumber) records).isSome
  lastSequence : (lastSet (·.lastSequence) records).isSome

/-- The invariant of a run: before the first edit there is no descriptor yet. -/
def Running (seen : Nat → UInt64 → Prop) (vset : LoggedVersionSet α) : Prop :=
  match vset.descriptorLog with
  | none => vset.current.FiledLevels ∧ seen = vset.current.Holds
  | some records => vset.Logged seen records

/-- What `LogAndApply` starts from is rebuilt by the records before the new one. -/
theorem Running.rebuilds {seen : Nat → UInt64 → Prop} {vset : LoggedVersionSet α} (h : vset.Running seen) :
    Rebuilds seen ((vset.descriptorLog.getD [vset.writeSnapshot]).foldl Builder.apply { base := noFiles })
        vset.current ∧
      ∀ edit ∈ vset.descriptorLog.getD [vset.writeSnapshot], NamesComparator vset.comparatorName edit := by
  unfold Running at h
  split at h
  · rename_i hlog
    rw [hlog]
    obtain ⟨hfiled, rfl⟩ := h
    refine ⟨rebuilds_snapshot hfiled, fun edit hedit name hname => ?_⟩
    obtain rfl := List.mem_singleton.1 hedit
    exact (Option.some.inj hname).symm
  · rename_i records hlog
    rw [hlog]
    exact ⟨h.rebuilds, h.comparator⟩

/-- Moving the counters and the pointers changes nothing the descriptor has to hold. -/
theorem Running.advance {seen : Nat → UInt64 → Prop} {vset : LoggedVersionSet α} (h : vset.Running seen)
    (nextFileNumber : UInt64) (lastSequence : Nat) (compactPointer : Nat → Option (InternalKey α)) :
    ({ vset with nextFileNumber, lastSequence, compactPointer } : LoggedVersionSet α).Running seen := by
  unfold Running at h ⊢
  cases hlog : vset.descriptorLog with
  | none => simpa only [hlog] using h
  | some records =>
    simp only [hlog] at h ⊢
    exact ⟨h.rebuilds, h.comparator, h.logNumber, h.prevLogNumber, h.nextFile, h.lastSequence⟩

/-- **Step.** Completing an edit changes none of its files. -/
theorem Running.logAndApply {seen : Nat → UInt64 → Prop} {vset : LoggedVersionSet α}
    (h : vset.Running seen) (score : Nat → List (FileMetaData α) → Rat) {edit : VersionEdit α}
    (hfits : edit.Fits seen) (hname : NamesComparator vset.comparatorName edit) :
    (vset.logAndApply score edit).Running
      fun level n => seen level n ∨ ∃ f ∈ edit.added level, f.number = n := by
  -- the snapshot is written with the pointers of the edit
  obtain ⟨hrebuilds, hcomparator⟩ := (h.advance vset.nextFileNumber vset.lastSequence
    (applyPointers vset.compactPointer (vset.completeEdit edit))).rebuilds
  refine ⟨?_, fun e he => ?_, ?_, ?_, ?_, ?_⟩
  · rw [List.foldl_append, List.foldl_cons, List.foldl_nil]
    have hstep := hrebuilds.step (vset.completeEdit edit) ⟨hfits.fresh, hfits.once⟩
    exact ⟨hstep.filed, hstep.seen_of_added, hstep.files⟩
  · rcases List.mem_append.1 he with he | he
    · exact hcomparator e he
    · obtain rfl := List.mem_singleton.1 he
      exact hname
  · rw [lastSet_concat]
    rfl
  · rw [lastSet_concat]
    rfl
  · rw [lastSet_concat]
    rfl
  · rw [lastSet_concat]
    rfl

/-- **Run.** -/
theorem Running.run {seen : Nat → UInt64 → Prop} {vset : LoggedVersionSet α} (h : vset.Running seen)
    (score : Nat → List (FileMetaData α) → Rat) {events : List (Event α)}
    (hfits : EditsFit seen (events.filterMap Event.edit?))
    (hname : ∀ edit ∈ events.filterMap Event.edit?, NamesComparator vset.comparatorName edit) :
    ∃ seen', (vset.run score events).Running seen' ∧
      (vset.run score events).comparatorName = vset.comparatorName := by
  induction events generalizing seen vset with
  | nil => exact ⟨seen, h, rfl⟩
  | cons event events ih =>
    cases event with
    | logAndApply edit =>
      obtain ⟨hedit, hfits⟩ := hfits
      have hnames := List.forall_mem_cons.1 hname
      exact ih (h.logAndApply score hedit hnames.1) hfits hnames.2
    | advance nextFileNumber lastSequence compactPointer =>
      exact ih (h.advance nextFileNumber lastSequence compactPointer) hfits hname

theorem foldl_apply_base (records : List (VersionEdit α)) (b : Builder α) :
    (records.foldl Builder.apply b).base = b.base := by
  induction records generalizing b with
  | nil => rfl
  | cons edit records ih => rw [List.foldl_cons, ih, Builder.apply_base]

/-- What is saved over no base files. -/
theorem saveTo_noFiles {b : Builder α} (h : b.base = noFiles) (level : Nat) :
    b.saveTo.files level = if level < kNumLevels then
      (b.levels level).addedFiles.filter fun f => decide (f.number ∉ (b.levels level).deletedFiles) else [] := by
  unfold Builder.saveTo
  dsimp only
  rw [h, Builder.saveFiles_eq]
  simp only [noFiles, List.nil_merge]

/-- **Recovery rebuilds the version that was running.** -/
theorem recover_run (score : Nat → List (FileMetaData α) → Rat) {vset : LoggedVersionSet α}
    (hnew : vset.descriptorLog = none) (hfiled : vset.current.FiledLevels) {events : List (Event α)}
    (hfits : EditsFit vset.current.Holds (events.filterMap Event.edit?))
    (hname : ∀ edit ∈ events.filterMap Event.edit?, NamesComparator vset.comparatorName edit)
    {records : List (VersionEdit α)} (hrecords : (vset.run score events).descriptorLog = some records)
    {restarted : LoggedVersionSet α} (hsame : restarted.comparatorName = vset.comparatorName)
    (hempty : restarted.current = noFiles) (hpointers : restarted.compactPointer = fun _ => none) :
    ∃ recovered, restarted.recover score records = .ok recovered ∧
      recovered.current.files = (vset.run score events).current.files ∧
      recovered.compactPointer = lastPointer records ∧
      lastSet (·.logNumber) records = some recovered.logNumber ∧
      recovered.logNumber = (vset.run score events).logNumber ∧
      lastSet (·.prevLogNumber) records = some recovered.prevLogNumber ∧
      recovered.prevLogNumber = (vset.run score events).prevLogNumber ∧
      lastSet (·.lastSequence) records = some recovered.lastSequence := by
  have hstart : vset.Running vset.current.Holds := by
    unfold Running
    rw [hnew]
    exact ⟨hfiled, rfl⟩
  obtain ⟨seen, hrunning, hcomparator⟩ := hstart.run score hfits hname
  unfold Running at hrunning
  rw [hrecords] at hrunning
  obtain ⟨nextFile, hnext⟩ := Option.isSome_iff_exists.1 hrunning.nextFile
  obtain ⟨lastSequence, hlast⟩ := Option.isSome_iff_exists.1 hrunning.lastSequence
  have hloop : recoverLoop restarted.comparatorName
      { builder := { base := restarted.current }, compactPointer := restarted.compactPointer } records = .ok
        { builder := records.foldl Builder.apply { base := noFiles }
          compactPointer := lastPointer records
          logNumber := some (vset.run score events).logNumber
          prevLogNumber := some (vset.run score events).prevLogNumber
          nextFile := some nextFile
          lastSequence := some lastSequence } := by
    rw [hsame, ← hcomparator, recoverLoop_eq hrunning.comparator, hempty, hpointers, foldl_take,
      hrunning.logNumber, hrunning.prevLogNumber, hnext, hlast]
  unfold recover
  rw [hloop]
  refine ⟨_, rfl, ?_, rfl, hrunning.logNumber, rfl, hrunning.prevLogNumber, rfl, hlast⟩
  funext level
  rw [finalize_files, saveTo_noFiles (foldl_apply_base records _), hrunning.rebuilds.files]

end LoggedVersionSet

namespace SampleRecovery

open LoggedVersionSet

def file : FileMetaData Bytes :=
  ⟨7, 500, ⟨[97], packSequenceAndType 3 .value⟩, ⟨[97], packSequenceAndType 1 .value⟩, by decide⟩

def vset : LoggedVersionSet Bytes where
  comparatorName := "leveldb.BytewiseComparator"
  current := noFiles
  compactPointer := fun _ => none
  nextFileNumber := 8
  manifestFileNumber := 2
  lastSequence := 3
  logNumber := 3
  prevLogNumber := 0
  descriptorLog := none

/-- A flush to level 0, and later a trivial move to level 1. -/
def events : List (Event Bytes) :=
  [.logAndApply { logNumber := some 6, newFiles := [(0, file)] }, .advance 9 4 fun _ => some file.largest,
    .logAndApply { compactPointers := [(0, file.largest)], deletedFiles := [(0, 7)], newFiles := [(1, file)] }]

theorem editsFit : EditsFit vset.current.Holds (events.filterMap Event.edit?) := by
  have hempty : ∀ level n, ¬ vset.current.Holds level n := by
    rintro level n ⟨f, hf, -⟩
    cases hf
  refine ⟨⟨fun level f _ => hempty level _, fun level => ?_⟩, ⟨fun level f hf hseen => ?_, fun level => ?_⟩, trivial⟩
  · by_cases hl : 0 = level
    · simp [VersionEdit.added, hl]
    · simp [VersionEdit.added, hl]
  · rcases hseen with hseen | ⟨g, hg, -⟩
    · exact hempty level _ hseen
    · simp only [VersionEdit.mem_added, List.mem_singleton, Prod.mk.injEq] at hf hg
      omega
  · by_cases hl : 1 = level
    · simp [VersionEdit.added, hl]
    · simp [VersionEdit.added, hl]

end SampleRecovery

theorem LoggedVersionSet.recover_run_sample :
    ∃ recovered, SampleRecovery.vset.recover (fun _ files => files.length)
        (((SampleRecovery.vset.run (fun _ files => files.length) SampleRecovery.events).descriptorLog).getD []) =
          .ok recovered ∧
      recovered.current.files =
        (SampleRecovery.vset.run (fun _ files => files.length) SampleRecovery.events).current.files :=
  let ⟨recovered, hrecovered, hfiles, _⟩ := LoggedVersionSet.recover_run (fun _ files => files.length)
    (show SampleRecovery.vset.descriptorLog = none from rfl) ⟨fun _ => List.Pairwise.nil, fun _ _ => rfl⟩ SampleRecovery.editsFit
    (fun edit hedit name hname => by
      simp only [SampleRecovery.events, List.filterMap_cons, LoggedVersionSet.Event.edit?, List.filterMap_nil,
        List.mem_cons, List.not_mem_nil, or_false] at hedit
      rcases hedit with rfl | rfl <;> cases hname)
    rfl (show SampleRecovery.vset.comparatorName = SampleRecovery.vset.comparatorName from rfl) rfl rfl
  ⟨recovered, hrecovered, hfiles⟩

end LevelDbSurf
