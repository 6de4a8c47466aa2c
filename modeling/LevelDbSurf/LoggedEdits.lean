import LevelDbSurf.RecoveredTables

/-!
# The edits a running database logs

The version of the descriptor and the version of the database go the same way: a step changes the files as the edit it
logs says, or not at all (`loggedEdit_files`). A table is added under a new number, but for a trivial move, which takes
it one level down (`loggedEdit_fits`); so of all the places a table was ever put it is in the lowest one.
-/

namespace LevelDbSurf

open Cursors Versions

variable {α : Type} [LinearOrder α]

/-- What is added goes below all places it has been in. -/
structure VersionEdit.Sinks (seen : Nat → UInt64 → Prop) (edit : VersionEdit α) : Prop where
  comparator : edit.comparator = none
  once : ∀ level, (edit.added level).Pairwise fun f g => f.number ≠ g.number
  sinks : ∀ level, ∀ f ∈ edit.added level, ∀ level', seen level' f.number → level' < level
  level_lt : ∀ level, ∀ f ∈ edit.added level, level < kNumLevels

theorem VersionEdit.Sinks.fits {seen : Nat → UInt64 → Prop} {edit : VersionEdit α} (h : edit.Sinks seen) :
    edit.Fits seen where
  fresh level f hf hseen := absurd (h.sinks level f hf level hseen) (lt_irrefl _)
  once := h.once

/-- The places of tables: in a version they are in the last one; new numbers and those of a compaction under way have
none yet. -/
structure Database.Placed (db : Database α) (seen : Nat → UInt64 → Prop) : Prop where
  lt : ∀ level n, seen level n → n.toNat < db.nextFileNumber
  lowest : ∀ level n, seen level n → ∀ level', ∀ f ∈ db.vset.current.files level', f.number = n → level ≤ level'
  running : ∀ r, db.running = some r → ∀ n ∈ r.work.numbers, ∀ level, ¬ seen level n

/-- The memtable that a step flushes. -/
def Database.flushedBy (db : Database α) : DatabaseEvent α → Option (List (InternalKey α × Bytes))
  | .compactMemTable _ => db.imm
  | _ => none

/-- A new table has not been anywhere. -/
theorem Database.Placed.writeLevel0Table {db : Database α} {seen : Nat → UInt64 → Prop} (h : db.Placed seen)
    (hgood : db.Good) (fileSize : UInt64) (entries : List (InternalKey α × Bytes)) :
    (db.writeLevel0Table fileSize entries).Sinks seen := by
  unfold Database.writeLevel0Table
  cases hbuilt : buildTable db.newFileNumber fileSize entries with
  | none =>
    have hnone : ∀ level, ({} : VersionEdit α).added level = [] := fun _ => rfl
    refine ⟨rfl, fun level => ?_, fun level f hf => ?_, fun level f hf => ?_⟩
    · rw [hnone]
      exact List.Pairwise.nil
    · rw [hnone] at hf
      cases hf
    · rw [hnone] at hf
      cases hf
  | some f₀ =>
    obtain ⟨hnumber, -⟩ := buildTable_some hbuilt
    have hlevel := (Version.pickLevelForMemTableOutput_apart hgood.version.sortedLevels hgood.version.inFormat
      db.vset.options f₀.smallest.userKey f₀.largest.userKey).1
    dsimp only
    generalize db.vset.current.pickLevelForMemTableOutput db.vset.options f₀.smallest.userKey
      f₀.largest.userKey = level₀ at hlevel ⊢
    have hmem : ∀ {level f}, f ∈ (VersionEdit.addFile {} level₀ f₀).added level → level = level₀ ∧ f = f₀ := by
      intro level f hf
      rw [added_addFile] at hf
      by_cases hl : level = level₀
      · rw [if_pos hl] at hf
        exact ⟨hl, by simpa [VersionEdit.added] using hf⟩
      · simp [hl, VersionEdit.added] at hf
    refine ⟨rfl, fun level => ?_, fun level f hf level' hseen => ?_, fun level f hf => ?_⟩
    · rw [added_addFile]
      by_cases hl : level = level₀ <;> simp [hl, VersionEdit.added]
    · obtain ⟨-, rfl⟩ := hmem hf
      have hlt := h.lt level' _ hseen
      rw [hnumber, hgood.numbers.newFileNumber_toNat] at hlt
      exact absurd hlt (lt_irrefl _)
    · rw [(hmem hf).1]
      exact hlevel.trans_lt (by decide)

/-! ## The places of tables -/

section Placed
variable {db db' : Database α} {event : DatabaseEvent α} {seen : Nat → UInt64 → Prop}

/-- A compaction under way has got its numbers since, or has kept them. -/
theorem Database.Placed.running_of_step (h : db.Placed seen) (hstep : db.StepOf event db') {r' : RunningCompaction α}
    (hr' : db'.running = some r') {n : UInt64} (hn : n ∈ r'.work.numbers) (level : Nat) : ¬ seen level n := by
  intro hseen
  rcases hstep.numbers r' hr' n hn with ⟨r, hr, hold⟩ | hnew
  · exact h.running r hr n hold level hseen
  · exact absurd (h.lt level n hseen) (not_lt.2 hnew)

/-- A step that logs no edit. -/
theorem Database.Placed.congr (h : db.Placed seen) (hstep : db.StepOf event db')
    (hfiles : db'.vset.current.files = db.vset.current.files) : db'.Placed seen where
  lt level n hseen := (h.lt level n hseen).trans_le hstep.next
  lowest := hfiles.symm ▸ h.lowest
  running _ hr' _ hn level := h.running_of_step hstep hr' hn level

/-- The files after an edit: those it adds, and some of those there were. -/
theorem Database.Good.files_of_edit (hgood : db.Good)
    (hseen : ∀ level n, db.vset.current.Holds level n → seen level n) {edit : VersionEdit α}
    (hsinks : edit.Sinks seen)
    (hfiles : db'.vset.current.files = ((Builder.apply { base := db.vset.current } edit).saveTo).files) :
    (∀ level, ∀ f ∈ edit.added level, f ∈ db'.vset.current.files level) ∧
      ∀ level, ∀ f ∈ db'.vset.current.files level, f ∈ edit.added level ∨ f ∈ db.vset.current.files level := by
  obtain ⟨hfiled, hmem⟩ := Builder.saveTo_apply hgood.version.filed edit hsinks.once fun level g hg hholds =>
    absurd (hsinks.sinks level g hg level (hseen level _ hholds)) (lt_irrefl _)
  rw [hfiles]
  refine ⟨fun level f hf => (hmem level (hsinks.level_lt level f hf) f).2 (Or.inl hf), fun level f hf => ?_⟩
  by_cases hl : level < kNumLevels
  · exact ((hmem level hl f).1 hf).imp_right And.left
  · rw [hfiled.none_beyond level (not_lt.1 hl)] at hf
    cases hf

/-- **A step that logs an edit.** -/
theorem Database.Placed.step (h : db.Placed seen) (hgood : db.Good) (hgood' : db'.Good) (hstep : db.StepOf event db')
    (hseen : ∀ level n, db.vset.current.Holds level n → seen level n) {edit : VersionEdit α}
    (hsinks : edit.Sinks seen)
    (hfiles : db'.vset.current.files = ((Builder.apply { base := db.vset.current } edit).saveTo).files) :
    db'.Placed fun level n => seen level n ∨ ∃ f ∈ edit.added level, f.number = n := by
  obtain ⟨hin, hold⟩ := hgood.files_of_edit hseen hsinks hfiles
  refine ⟨?_, ?_, ?_⟩
  · rintro level n (hs | ⟨g, hg, rfl⟩)
    · exact (h.lt level n hs).trans_le hstep.next
    · exact hgood'.numbers.used level g (hin level g hg)
  · rintro level n (hs | ⟨g, hg, rfl⟩) level' f hf hn
    · rcases hold level' f hf with hf | hf
      · exact (hsinks.sinks level' f hf level (hn ▸ hs)).le
      · exact h.lowest level n hs level' f hf hn
    · exact (hgood'.version.oneLevel level level' g (hin level g hg) f hf hn.symm).le
  · rintro r' hr' n hn level (hs | ⟨g, hg, rfl⟩)
    · exact h.running_of_step hstep hr' hn level hs
    · exact ((hgood'.running r' hr').numbersNew _ hn).2 level ⟨g, hin level g hg, rfl⟩

end Placed

namespace DurableDatabase

variable {s : DurableDatabase α} {env : Environment α} {event : DatabaseEvent α} {db' : Database α}

/-- What a compaction that begins does to the version. -/
theorem moveEdit_files {isManual : Bool} {smallestSnapshot : Nat}
    {r : Option (Option (Compaction α × VersionSet α))}
    (hr : ∀ c vset', r = some (some (c, vset')) → vset'.current = s.db.vset.current)
    (hstep : s.db.backgroundCompaction env isManual smallestSnapshot r = some db') :
    (s.moveEdit isManual r = none → db'.vset.current.files = s.db.vset.current.files) ∧
      ∀ edit, s.moveEdit isManual r = some edit →
        db'.vset.current.files = ((Builder.apply { base := s.db.vset.current } edit).saveTo).files := by
  unfold Database.backgroundCompaction at hstep
  split at hstep
  · split at hstep
    · cases hstep
    · cases hstep
      exact ⟨fun _ => rfl, by rintro edit ⟨⟩⟩
    · rename_i c vset'
      have hcurrent := hr c vset' rfl
      obtain rfl := Option.some.inj hstep
      unfold Database.startCompaction moveEdit
      dsimp only
      cases c.inputs0 with
      | nil => exact ⟨fun _ => congrArg _ hcurrent, by rintro edit ⟨⟩⟩
      | cons f rest =>
        dsimp only
        by_cases hmove : (!isManual && c.isTrivialMove s.db.vset.options) = true
        · rw [if_pos hmove, if_pos hmove]
          refine ⟨by rintro ⟨⟩, ?_⟩
          rintro edit ⟨⟩
          rw [← hcurrent]
          rfl
        · rw [if_neg hmove, if_neg hmove]
          exact ⟨fun _ => congrArg _ hcurrent, by rintro edit ⟨⟩⟩
  · cases hstep

/-- **The version of the database** goes with the edits. -/
theorem loggedEdit_files (hgood : s.db.Good) (hallows : s.allows event = true)
    (hstep : s.db.step env event = some db') :
    (s.loggedEdit event = none → db'.vset.current.files = s.db.vset.current.files) ∧
      ∀ edit, s.loggedEdit event = some edit →
        db'.vset.current.files = ((Builder.apply { base := s.db.vset.current } edit).saveTo).files := by
  cases event with
  | write batch => exact Bool.noConfusion hallows
  | switchMemTable => exact Bool.noConfusion hallows
  | compactMemTable fileSize =>
    change s.db.compactMemTable env fileSize = some db' at hstep
    unfold Database.compactMemTable at hstep
    unfold loggedEdit
    cases himm : s.db.imm with
    | none =>
      rw [himm] at hstep
      cases hstep
    | some imm =>
      rw [himm] at hstep
      dsimp only at hstep
      split at hstep
      · cases hstep
        refine ⟨by rintro ⟨⟩, ?_⟩
        rintro edit ⟨⟩
        rfl
      · cases hstep
  | chargeSeek level f =>
    change s.db.chargeSeek level f = some db' at hstep
    unfold Database.chargeSeek at hstep
    split at hstep
    · cases hstep
      exact ⟨fun _ => rfl, by rintro edit ⟨⟩⟩
    · cases hstep
  | pickCompaction smallestSnapshot =>
    exact moveEdit_files (fun c vset' hc => (VersionSet.setUp_of_some hgood.version.sortedLevels hgood.seek
      (Or.inl hc)).2) hstep
  | compactRange level begin_ end_ smallestSnapshot =>
    exact moveEdit_files (fun c vset' hc => (VersionSet.setUp_of_some hgood.version.sortedLevels hgood.seek
      (Or.inr ⟨level, begin_, end_, hc⟩)).2) hstep
  | workOn =>
    change s.db.workOn = some db' at hstep
    unfold Database.workOn at hstep
    split at hstep
    · cases hstep
    · split at hstep
      · cases hstep
      · split at hstep
        · cases hstep
          exact ⟨fun _ => rfl, by rintro edit ⟨⟩⟩
        · cases hstep
  | installCompaction =>
    change s.db.installCompaction env = some db' at hstep
    unfold Database.installCompaction at hstep
    unfold loggedEdit
    cases hr : s.db.running with
    | none =>
      rw [hr] at hstep
      cases hstep
    | some r =>
      rw [hr] at hstep
      dsimp only at hstep
      split at hstep
      · cases hstep
      · cases hstep
        refine ⟨by rintro ⟨⟩, ?_⟩
        rintro edit ⟨⟩
        rfl
  | cleanupCompaction =>
    change s.db.cleanupCompaction = some db' at hstep
    unfold Database.cleanupCompaction at hstep
    split at hstep
    · cases hstep
      exact ⟨fun _ => rfl, by rintro edit ⟨⟩⟩
    · cases hstep

/-- A trivial move: the file goes one level down. -/
theorem moveEdit_sinks {seen : Nat → UInt64 → Prop} (hplaced : s.db.Placed seen) {isManual : Bool}
    {r : Option (Option (Compaction α × VersionSet α))}
    (hr : ∀ c vset', r = some (some (c, vset')) → c.SetUp s.db.vset.current) {edit : VersionEdit α}
    (hedit : s.moveEdit isManual r = some edit) : edit.Sinks seen := by
  unfold moveEdit at hedit
  split at hedit
  · rename_i c vset'
    have hsetup := hr c vset' rfl
    split at hedit
    · rename_i f rest h0
      split at hedit
      · cases hedit
        have hf : f ∈ s.db.vset.current.files c.level :=
          hsetup.mem (Or.inl ⟨rfl, by rw [h0]; exact List.mem_cons_self⟩)
        have hadded : ∀ {level g}, g ∈ (c.moveEdit f).added level ↔ level = c.level + 1 ∧ g = f := by
          intro level g
          simp [Compaction.moveEdit]
        refine ⟨rfl, fun level => ?_, fun level g hg level' hseen => ?_, fun level g hg => ?_⟩
        · unfold VersionEdit.added Compaction.moveEdit
          by_cases hl : c.level + 1 = level <;> simp [hl]
        · obtain ⟨rfl, rfl⟩ := hadded.1 hg
          exact Nat.lt_succ_of_le (hplaced.lowest level' _ hseen c.level g hf rfl)
        · obtain ⟨rfl, rfl⟩ := hadded.1 hg
          exact hsetup.closed.level_lt
      · cases hedit
    · cases hedit
  · cases hedit

/-- **The edits.** -/
theorem loggedEdit_sinks (hgood : s.db.Good) {seen : Nat → UInt64 → Prop} (hplaced : s.db.Placed seen)
    {edit : VersionEdit α} (hedit : s.loggedEdit event = some edit) : edit.Sinks seen := by
  cases event with
  | write batch => cases hedit
  | switchMemTable => cases hedit
  | compactMemTable fileSize =>
    obtain ⟨imm, -, rfl⟩ := Option.map_eq_some_iff.1 hedit
    have hsinks := hplaced.writeLevel0Table hgood fileSize (mergeAll [imm])
    exact ⟨hsinks.comparator, hsinks.once, hsinks.sinks, hsinks.level_lt⟩
  | chargeSeek level f => cases hedit
  | pickCompaction smallestSnapshot =>
    exact moveEdit_sinks hplaced (fun c vset' hc => (VersionSet.setUp_of_some hgood.version.sortedLevels hgood.seek
      (Or.inl hc)).1) hedit
  | compactRange level begin_ end_ smallestSnapshot =>
    exact moveEdit_sinks hplaced (fun c vset' hc => (VersionSet.setUp_of_some hgood.version.sortedLevels hgood.seek
      (Or.inr ⟨level, begin_, end_, hc⟩)).1) hedit
  | workOn => cases hedit
  | installCompaction =>
    obtain ⟨r, hr, rfl⟩ := Option.map_eq_some_iff.1 hedit
    have hrun := hgood.running r hr
    obtain ⟨-, -, hnumbers⟩ := RunningCompaction.outputs_spec hrun.recorded
    refine ⟨rfl, installResults_added_numbers (hnumbers ▸ hrun.numbers), fun level f hf level' hseen => ?_,
      fun level f hf => ?_⟩
    · obtain ⟨-, out, hout, hfile⟩ := mem_installResults_added.1 hf
      rw [Output.number_of_file? hfile] at hseen
      exact absurd hseen (hplaced.running r hr _ (hnumbers ▸ List.mem_map_of_mem hout) level')
    · obtain ⟨rfl, -⟩ := mem_installResults_added.1 hf
      exact hrun.setUp.closed.level_lt
  | cleanupCompaction => cases hedit

/-- Only a flush moves the log number. -/
theorem loggedEdit_numbers {edit : VersionEdit α} (hedit : s.loggedEdit event = some edit) :
    (∃ fileSize, event = .compactMemTable fileSize ∧ edit.logNumber = some s.logFileNumber ∧
        edit.prevLogNumber = some 0) ∨
      s.db.flushedBy event = none ∧ edit.logNumber = none ∧ edit.prevLogNumber = none := by
  have hmove : ∀ {isManual r}, s.moveEdit isManual r = some edit →
      edit.logNumber = none ∧ edit.prevLogNumber = none := by
    intro isManual r hedit
    unfold moveEdit at hedit
    split at hedit
    · split at hedit
      · split at hedit
        · cases hedit
          exact ⟨rfl, rfl⟩
        · cases hedit
      · cases hedit
    · cases hedit
  cases event with
  | compactMemTable fileSize =>
    obtain ⟨imm, -, rfl⟩ := Option.map_eq_some_iff.1 hedit
    exact Or.inl ⟨fileSize, rfl, rfl, rfl⟩
  | pickCompaction smallestSnapshot => exact Or.inr ⟨rfl, hmove hedit⟩
  | compactRange level begin_ end_ smallestSnapshot => exact Or.inr ⟨rfl, hmove hedit⟩
  | installCompaction =>
    obtain ⟨r, -, rfl⟩ := Option.map_eq_some_iff.1 hedit
    exact Or.inr ⟨rfl, rfl, rfl⟩
  | write batch => cases hedit
  | switchMemTable => cases hedit
  | chargeSeek level f => cases hedit
  | workOn => cases hedit
  | cleanupCompaction => cases hedit

end DurableDatabase

end LevelDbSurf
