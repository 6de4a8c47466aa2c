import LevelDbSurf.DurableDatabase

/-!
# What the descriptor of a running database holds

`Described` is kept by `LogAndApply` (`Described.logAndApply`), and is what `Recover` needs to come to the same files
(`Described.recover`). The first descriptor of a new database has no previous log number, so `prevLogNumber` may be
missing as long as it is zero. `next` and `last` are the counters in the last record that has them: recovery starts from
these, not from those that were running.
-/

namespace LevelDbSurf

variable {α : Type} [LinearOrder α]

namespace LoggedVersionSet

/-- The records rebuild the current files; `seen` are all that were ever added. -/
structure Described (vset : LoggedVersionSet α) (seen : Nat → UInt64 → Prop) (records : List (VersionEdit α))
    (next : UInt64) (last : Nat) : Prop where
  rebuilds : Rebuilds seen (records.foldl Builder.apply { base := noFiles }) vset.current
  comparator : ∀ edit ∈ records, NamesComparator vset.comparatorName edit
  named : ∃ edit ∈ records, edit.comparator = some vset.comparatorName
  logNumber : lastSet (·.logNumber) records = some vset.logNumber
  prevLogNumber : (lastSet (·.prevLogNumber) records).getD 0 = vset.prevLogNumber
  nextFile : lastSet (·.nextFileNumber) records = some next
  lastSequence : lastSet (·.lastSequence) records = some last

section Described
variable {vset : LoggedVersionSet α} {seen : Nat → UInt64 → Prop} {records : List (VersionEdit α)} {next : UInt64}
  {last : Nat}

/-- What the records say of the version set. -/
theorem Described.congr (h : vset.Described seen records next last) {vset' : LoggedVersionSet α}
    (hname : vset'.comparatorName = vset.comparatorName) (hfiles : vset'.current.files = vset.current.files)
    (hlog : vset'.logNumber = vset.logNumber) (hprev : vset'.prevLogNumber = vset.prevLogNumber) :
    vset'.Described seen records next last where
  rebuilds := ⟨h.rebuilds.filed, h.rebuilds.seen_of_added, hfiles.symm ▸ h.rebuilds.files⟩
  comparator := hname.symm ▸ h.comparator
  named := hname.symm ▸ h.named
  logNumber := hlog.symm ▸ h.logNumber
  prevLogNumber := hprev.symm ▸ h.prevLogNumber
  nextFile := h.nextFile
  lastSequence := h.lastSequence

/-- All files of the version have been added. -/
theorem Described.seen_of_holds (h : vset.Described seen records next last) {level : Nat} {n : UInt64}
    (hholds : vset.current.Holds level n) : seen level n := by
  obtain ⟨f, hf, rfl⟩ := hholds
  rw [h.rebuilds.files] at hf
  split at hf
  · exact h.rebuilds.seen_of_added level f (List.mem_filter.1 hf).1
  · cases hf

/-- **Recovery.** -/
theorem Described.recover (h : vset.Described seen records next last) (score : Nat → List (FileMetaData α) → Rat) :
    ∃ recovered, (LoggedVersionSet.new vset.comparatorName).recover score records = .ok recovered ∧
      recovered.current.files = vset.current.files ∧ recovered.current.fileToCompact = none ∧
      recovered.comparatorName = vset.comparatorName ∧ recovered.logNumber = vset.logNumber ∧
      recovered.prevLogNumber = vset.prevLogNumber ∧ recovered.nextFileNumber = next + 1 ∧
      recovered.lastSequence = last ∧ recovered.descriptorLog = none := by
  have hloop : recoverLoop (LoggedVersionSet.new (α := α) vset.comparatorName).comparatorName
      { builder := { base := (LoggedVersionSet.new (α := α) vset.comparatorName).current },
        compactPointer := (LoggedVersionSet.new (α := α) vset.comparatorName).compactPointer } records = .ok
        { builder := records.foldl Builder.apply { base := noFiles }
          compactPointer := lastPointer records
          logNumber := some vset.logNumber
          prevLogNumber := lastSet (·.prevLogNumber) records
          nextFile := some next
          lastSequence := some last } := by
    unfold LoggedVersionSet.new
    rw [recoverLoop_eq h.comparator, foldl_take, h.logNumber, h.nextFile, h.lastSequence]
  unfold LoggedVersionSet.recover
  rw [hloop]
  refine ⟨_, rfl, ?_, rfl, rfl, rfl, h.prevLogNumber, rfl, rfl, rfl⟩
  funext level
  rw [finalize_files, saveTo_noFiles (foldl_apply_base records _), h.rebuilds.files]

/-- One more record, for an edit that fits. -/
theorem Rebuilds.described {b : List (VersionEdit α)} (h : Rebuilds seen (b.foldl Builder.apply { base := noFiles })
      vset.current) (hcomparator : ∀ edit ∈ b, NamesComparator vset.comparatorName edit)
    (hnamed : ∃ edit ∈ b, edit.comparator = some vset.comparatorName)
    (score : Nat → List (FileMetaData α) → Rat) {edit : VersionEdit α} (hfits : edit.Fits seen)
    (hname : NamesComparator vset.comparatorName edit) :
    (vset.logAndApply score edit).Described (fun level n => seen level n ∨ ∃ f ∈ edit.added level, f.number = n)
      (b ++ [vset.completeEdit edit]) vset.nextFileNumber vset.lastSequence := by
  refine ⟨?_, fun e he => ?_, ?_, ?_, ?_, ?_, ?_⟩
  · rw [List.foldl_append, List.foldl_cons, List.foldl_nil]
    have hstep := h.step (vset.completeEdit edit) ⟨hfits.fresh, hfits.once⟩
    exact ⟨hstep.filed, hstep.seen_of_added, hstep.files⟩
  · rcases List.mem_append.1 he with he | he
    · exact hcomparator e he
    · obtain rfl := List.mem_singleton.1 he
      exact hname
  · obtain ⟨e, he, hcomparator⟩ := hnamed
    exact ⟨e, List.mem_append_left _ he, hcomparator⟩
  · rw [lastSet_concat]
    rfl
  · rw [lastSet_concat]
    rfl
  · rw [lastSet_concat]
    rfl
  · rw [lastSet_concat]
    rfl

/-- **`LogAndApply`**, while a descriptor is being written. -/
theorem Described.logAndApply (h : vset.Described seen records next last)
    (hlog : vset.descriptorLog = some records) (score : Nat → List (FileMetaData α) → Rat) {edit : VersionEdit α}
    (hfits : edit.Fits seen) (hname : NamesComparator vset.comparatorName edit) :
    (vset.logAndApply score edit).descriptorLog = some (records ++ [vset.completeEdit edit]) ∧
      (vset.logAndApply score edit).Described (fun level n => seen level n ∨ ∃ f ∈ edit.added level, f.number = n)
        (records ++ [vset.completeEdit edit]) vset.nextFileNumber vset.lastSequence :=
  ⟨by simp [LoggedVersionSet.logAndApply, hlog], Rebuilds.described h.rebuilds h.comparator h.named score hfits hname⟩

/-- **`LogAndApply`** that starts a descriptor. -/
theorem described_start (hlog : vset.descriptorLog = none) (hfiled : vset.current.FiledLevels)
    (score : Nat → List (FileMetaData α) → Rat) {edit : VersionEdit α} (hfits : edit.Fits vset.current.Holds)
    (hname : NamesComparator vset.comparatorName edit) :
    ∃ records, (vset.logAndApply score edit).descriptorLog = some records ∧
      (vset.logAndApply score edit).Described
        (fun level n => vset.current.Holds level n ∨ ∃ f ∈ edit.added level, f.number = n)
        records vset.nextFileNumber vset.lastSequence := by
  -- the pointers of the edit are in the snapshot already
  let pointed : LoggedVersionSet α :=
    { vset with compactPointer := applyPointers vset.compactPointer (vset.completeEdit edit) }
  have hsnapshot : Rebuilds vset.current.Holds ([pointed.writeSnapshot].foldl Builder.apply { base := noFiles })
      vset.current := rebuilds_snapshot (show pointed.current.FiledLevels from hfiled)
  refine ⟨[pointed.writeSnapshot] ++ [vset.completeEdit edit], ?_,
    Rebuilds.described hsnapshot (fun e he name hname => ?_) ⟨_, List.mem_singleton.2 rfl, rfl⟩ score hfits hname⟩
  · simp [LoggedVersionSet.logAndApply, hlog, pointed]
  · obtain rfl := List.mem_singleton.1 he
    exact (Option.some.inj hname).symm

end Described

end LoggedVersionSet

end LevelDbSurf
