import LevelDbSurf.DurableSteps

/-!
# The background thread of a database that may crash

A flush makes the records of the older log files superfluous when its edit is in the descriptor, and a compaction drops
what does not show; `RemoveObsoleteFiles` removes no log file that counts. So all of these keep `Durable`.
-/

namespace LevelDbSurf

open Cursors Versions Recovering

variable {α : Type} [LinearOrder α]

namespace DurableDatabase

section Work
variable {s s' : DurableDatabase α} {journal : List (LoggedBatch α)} {env : Environment α} {event : DatabaseEvent α}
  {db' : Database α}

/-- **`RemoveObsoleteFiles`.** -/
theorem Durable.removeObsoleteFiles (h : s.Durable journal) {live : List UInt64}
    (hstep : s.removeObsoleteFiles live = some s') : s'.Durable journal := by
  obtain ⟨older, log, front, hlogs, hnumber, hrecords, hmem, himm⟩ := h.logged.files
  obtain ⟨hdb, hversions, hfile, htables, hlogging, hlogs'⟩ : s'.db = s.db ∧ s'.versions = s.versions ∧
      s'.logFileNumber = s.logFileNumber ∧
      s'.tables = s.tables.filter (fun n => decide (n ∈ s.db.vset.current.fileNumbers ++ live)) ∧
      s'.logging = s.logging ∧ s'.logs = s.logs.filter fun log =>
        decide (s.versions.logNumber ≤ log.number) || decide (log.number = s.versions.prevLogNumber) := by
    unfold DurableDatabase.removeObsoleteFiles at hstep
    cases hstep
    exact ⟨rfl, rfl, rfl, rfl, rfl, rfl⟩
  generalize hp : (fun log : LogFile α =>
    decide (s.versions.logNumber ≤ log.number) || decide (log.number = s.versions.prevLogNumber)) = p at hlogs'
  have hkept : p log = true := by
    have hle : s.versions.logNumber ≤ log.number := by
      rw [hnumber]
      exact h.logged.logNumber
    simp [← hp, hle]
  have hsame : recordsFrom s.versions.logNumber (older.filter p) = recordsFrom s.versions.logNumber older :=
    recordsFrom_filter fun a _ hle => by simp [← hp, hle]
  have hsub : ∀ {a}, a ∈ s'.logs → a ∈ s.logs := fun {a} ha => (List.mem_filter.1 (hlogs' ▸ ha)).1
  have hsplit : s'.logs = older.filter p ++ [log] := by
    rw [hlogs', hlogs, List.filter_append, List.filter_singleton, hkept]
    rfl
  have hlogged : s'.Logged := by
    refine ⟨?_, ?_, fun a ha => h.logged.synced a (hsub ha), ⟨older.filter p, log, front, hsplit, ?_, ?_, ?_, ?_⟩,
      ?_, ?_⟩
    · rw [hlogs']
      exact h.logged.sorted.filter _
    · rw [hdb]
      exact fun a ha => h.logged.numbers a (hsub ha)
    · rw [hfile, hnumber]
    · rw [hlogging, hrecords]
    · rw [hdb, hmem]
    · rw [hdb, hversions, hsame, himm]
    · rw [hversions, hfile]
      exact h.logged.logNumber
    · rw [hversions]
      exact h.logged.prevLogNumber
  have hlatest : s'.latest = s.latest := by rw [latest, latest, hlogging, hdb]
  have hrecent : s'.recent = s.recent ++ [] := by
    rw [hlogged.recent_split hsplit (hfile ▸ hnumber), h.logged.recent_split hlogs hnumber, hversions, hsame,
      List.append_nil]
  have htablesame : s.SameTables s' := SameTables.of_db hdb hversions fun n hn hin => by
    rw [htables, List.mem_filter]
    exact ⟨hin, decide_eq_true (List.mem_append_left _ hn)⟩
  have hdurable := h.congr htablesame (hdb ▸ h.intact) (hlatest ▸ h.bounded) hlogged
    (by rw [hlogging, hdb]; exact h.logging) hrecent (by rw [hrecent, List.append_nil, hlatest]; exact h.recent)
    (by rintro r ⟨⟩)
  rwa [List.append_nil] at hdurable

/-! ## Steps of the background thread -/

theorem not_write_of_allows (hallows : s.allows event = true) :
    (∀ batch, event ≠ .write batch) ∧ event ≠ .switchMemTable := by
  constructor
  · rintro batch rfl
    exact Bool.noConfusion hallows
  · rintro rfl
    exact Bool.noConfusion hallows

theorem Durable.smallestSnapshot_lt (h : s.Durable journal) (hallows : s.allows event = true) :
    ∀ n ∈ event.smallestSnapshot, n < kMaxSequenceNumber := by
  have hbounded := h.bounded
  have hlast : s.db.lastSequence ≤ s.latest := Nat.le_add_right _ _
  cases event with
  | pickCompaction smallestSnapshot =>
    rintro n ⟨⟩
    have hle := of_decide_eq_true hallows
    omega
  | compactRange level begin_ end_ smallestSnapshot =>
    rintro n ⟨⟩
    have hle := of_decide_eq_true hallows
    omega
  | _ => rintro n ⟨⟩

/-- The memtables after a step: the one it flushes is gone. -/
theorem memory_of_step (hallows : s.allows event = true) (hstep : s.db.StepOf event db') :
    db'.mem = s.db.mem ∧ db'.lastSequence = s.db.lastSequence ∧
      (s.db.flushedBy event = none ∧ db'.imm = s.db.imm ∨ s.db.flushedBy event = s.db.imm ∧ db'.imm = none) := by
  obtain ⟨hwrite, hswitch⟩ := not_write_of_allows hallows
  have hmemory := hstep.memory
  cases event with
  | write batch => exact absurd rfl (hwrite batch)
  | switchMemTable => exact absurd rfl hswitch
  | compactMemTable fileSize =>
    obtain ⟨himm, hmem, hlast⟩ := hmemory
    exact ⟨hmem, hlast, Or.inr ⟨rfl, himm⟩⟩
  | _ =>
    obtain ⟨hmem, himm, hlast⟩ := hmemory
    exact ⟨hmem, hlast, Or.inl ⟨rfl, himm⟩⟩

/-- The log files stay as they are; those of the flushed memtable may not count any more. -/
theorem Logged.background (h : s.Logged) {older : List (LogFile α)} {log : LogFile α} {front : List (LoggedBatch α)}
    (hlogs : s.logs = older ++ [log]) (hnumber : log.number = s.logFileNumber)
    (hrecords : log.records = front ++ s.logging.toList) (hmem : s.db.mem = entriesOf front)
    (hlogs' : s'.logs = s.logs) (hfile : s'.logFileNumber = s.logFileNumber) (hlogging : s'.logging = s.logging)
    (hnext : s.db.nextFileNumber ≤ s'.db.nextFileNumber) (hmem' : s'.db.mem = s.db.mem)
    (himm' : s'.db.imm.getD [] = entriesOf (recordsFrom s'.versions.logNumber older))
    (hlogNumber : s'.versions.logNumber ≤ s.logFileNumber) (hprev : s'.versions.prevLogNumber = 0) : s'.Logged where
  sorted := hlogs' ▸ h.sorted
  numbers a ha := ⟨(h.numbers a (hlogs' ▸ ha)).1, (h.numbers a (hlogs' ▸ ha)).2.trans_le hnext⟩
  synced a ha := h.synced a (hlogs' ▸ ha)
  files := ⟨older, log, front, hlogs'.trans hlogs, hnumber.trans hfile.symm, by rw [hlogging, hrecords],
    hmem'.trans hmem, himm'⟩
  logNumber := hfile.symm ▸ hlogNumber
  prevLogNumber := hprev

/-- A step that logs no edit. -/
theorem Durable.background_none (h : s.Durable journal) (hallows : s.allows event = true) (hintact : db'.Intact)
    (hstepOf : s.db.StepOf event db') (hdb : s.db.step env event = some db') (hnone : s.loggedEdit event = none) :
    DurableDatabase.Durable { s with db := db' } journal := by
  have hfiles := (loggedEdit_files h.intact.good hallows hdb).1 hnone
  obtain ⟨hmem', hlast', himm'⟩ := memory_of_step hallows hstepOf
  have hflushed : s.db.flushedBy event = none := by
    cases event with
    | compactMemTable fileSize => exact Option.map_eq_none_iff.1 hnone
    | _ => rfl
  have hsame : db'.imm = s.db.imm := by
    rcases himm' with ⟨-, hsame⟩ | ⟨heq, hnone⟩
    · exact hsame
    · rw [hnone, ← heq, hflushed]
  have hin : ∀ y, db'.InTables y ↔ s.db.InTables y := by
    have hcontents : ∀ level, ∀ f ∈ s.db.vset.current.files level, db'.contents f.number = s.db.contents f.number := by
      intro level f hf
      obtain ⟨hlt, hnot⟩ := h.intact.good.number_kept hf
      exact hstepOf.contents f.number hlt hnot
    intro y
    unfold Database.InTables
    rw [hfiles]
    constructor
    · rintro ⟨level, f, hf, hy⟩
      exact ⟨level, f, hf, hcontents level f hf ▸ hy⟩
    · rintro ⟨level, f, hf, hy⟩
      exact ⟨level, f, hf, (hcontents level f hf).symm ▸ hy⟩
  obtain ⟨older, log, front, hlogs, hnumber, hrecords, hmem, himm⟩ := h.logged.files
  have hlogged : DurableDatabase.Logged { s with db := db' } := h.logged.background hlogs hnumber hrecords hmem rfl
    rfl rfl hstepOf.next hmem' ((congrArg (·.getD []) hsame).trans himm) h.logged.logNumber h.logged.prevLogNumber
  have hlatest : DurableDatabase.latest { s with db := db' } = s.latest := by
    unfold latest
    dsimp only
    rw [hlast']
  have hrecent : DurableDatabase.recent { s with db := db' } = s.recent ++ [] := (List.append_nil _).symm
  have htables : s.SameTables { s with db := db' } :=
    ⟨hfiles, hin, rfl, fun _ hp => hp.congr hstepOf hfiles, hstepOf.next, hlast'.ge, fun _ _ hn => hn⟩
  have hdurable := h.congr htables hintact
    (hlatest ▸ h.bounded) hlogged (fun r hr => by rw [hlast']; exact h.logging r hr) hrecent
    (by rw [hrecent, List.append_nil, hlatest]; exact h.recent) (by rintro r ⟨⟩)
  rwa [List.append_nil] at hdurable

/-- The version set that `LogAndApply` begins with. -/
def counted (s : DurableDatabase α) (db' : Database α) : LoggedVersionSet α :=
  { s.versions with
    nextFileNumber := UInt64.ofNat db'.nextFileNumber
    lastSequence := s.db.lastSequence
    compactPointer := db'.vset.compactPointer }

theorem mem_fileNumbers {v : Version α} (hfiled : v.FiledLevels) {n : UInt64} :
    n ∈ v.fileNumbers ↔ ∃ level, ∃ f ∈ v.files level, f.number = n := by
  unfold Version.fileNumbers
  simp only [List.mem_flatMap, List.mem_range, List.mem_map]
  constructor
  · rintro ⟨level, -, f, hf, rfl⟩
    exact ⟨level, f, hf, rfl⟩
  · rintro ⟨level, f, hf, rfl⟩
    refine ⟨level, ?_, f, hf, rfl⟩
    by_contra hl
    rw [hfiled.none_beyond level (not_lt.1 hl)] at hf
    cases hf

/-- What the edit of a step makes of the log files: `moved` are the records that are in tables now. -/
theorem Durable.moved (h : s.Durable journal) {edit : VersionEdit α} (hedit : s.loggedEdit event = some edit)
    {older : List (LogFile α)} {log : LogFile α} (hlogs : s.logs = older ++ [log])
    (hnumber : log.number = s.logFileNumber)
    (himm : s.db.imm.getD [] = entriesOf (recordsFrom s.versions.logNumber older)) :
    ∃ moved, entriesOf moved = (s.db.flushedBy event).getD [] ∧
      recordsFrom s.versions.logNumber older =
        moved ++ recordsFrom (edit.logNumber.getD s.versions.logNumber) older ∧
      edit.logNumber.getD s.versions.logNumber ≤ s.logFileNumber ∧
      (edit.logNumber.getD s.versions.logNumber).toNat < s.db.nextFileNumber ∧
      edit.prevLogNumber.getD s.versions.prevLogNumber = 0 := by
  rcases loggedEdit_numbers hedit with ⟨fileSize, rfl, hlog, hprev⟩ | ⟨hnone, hlog, hprev⟩
  · rw [hlog, hprev, Option.getD_some, Option.getD_some]
    refine ⟨recordsFrom s.versions.logNumber older, himm.symm, ?_, UInt64.le_refl _, ?_, rfl⟩
    · have hnil : recordsFrom s.logFileNumber older = [] := recordsFrom_eq_nil fun a ha => by
        rw [← hnumber]
        exact h.logged.older_lt hlogs a ha
      rw [hnil, List.append_nil]
    · rw [← hnumber]
      exact (h.logged.numbers log (by rw [hlogs]; exact List.mem_append_right _ (List.mem_singleton.2 rfl))).2
  · obtain ⟨seen, records, next, last, hw⟩ := h.written
    rw [hlog, hprev, Option.getD_none, Option.getD_none, hnone]
    exact ⟨[], rfl, rfl, h.logged.logNumber, hw.logNumber.trans_le hw.counter, h.logged.prevLogNumber⟩

variable (env) in
/-- A step that logs an edit: the descriptor. -/
theorem Written.background (hw : ∃ seen records next last, s.Written seen records next last)
    (hfiles : s.versions.current.files = s.db.vset.current.files) (hintact : s.db.Intact) (hintact' : db'.Intact)
    (hstepOf : s.db.StepOf event db') (hlast : db'.lastSequence = s.db.lastSequence) {edit : VersionEdit α}
    (hedit : s.loggedEdit event = some edit)
    (hnumber : (edit.logNumber.getD s.versions.logNumber).toNat < s.db.nextFileNumber)
    (happlied : db'.vset.current.files = ((Builder.apply { base := s.db.vset.current } edit).saveTo).files)
    (tables : List UInt64) :
    (∃ seen records next last, Written { s with
      db := db', versions := (s.counted db').logAndApply env.score edit, tables } seen records next last) ∧
      ((s.counted db').logAndApply env.score edit).current.files = db'.vset.current.files ∧
      ∀ level, ∀ f ∈ db'.vset.current.files level, f ∈ edit.added level ∨ f ∈ s.db.vset.current.files level := by
  obtain ⟨seen, records, next, last, hw⟩ := hw
  have hsinks := loggedEdit_sinks hintact.good hw.placed hedit
  have hseen : ∀ level n, s.db.vset.current.Holds level n → seen level n := by
    rintro level n ⟨f, hf, hn⟩
    rw [← hfiles] at hf
    exact hw.described.seen_of_holds ⟨f, hf, hn⟩
  have hcounted : (s.counted db').Described seen records next last := hw.described.congr rfl rfl rfl rfl
  obtain ⟨hlog, hdescribed⟩ := hcounted.logAndApply hw.descriptorLog env.score hsinks.fits fun name hname => by
    rw [hsinks.comparator] at hname
    cases hname
  have hplaced := hw.placed.step hintact.good hintact'.good hstepOf hseen hsinks happlied
  have hnext : (UInt64.ofNat db'.nextFileNumber).toNat = db'.nextFileNumber :=
    UInt64.toNat_ofNat_of_lt' hintact'.good.numbers.lt
  refine ⟨⟨_, _, _, _, hlog, hdescribed, hplaced, hnext.le, fun level n hs => ?_, ?_, hlast.ge, fun y hy => ?_⟩, ?_,
    (hintact.good.files_of_edit hseen hsinks happlied).2⟩
  · exact (hplaced.lt level n hs).trans_eq hnext.symm
  · exact (hnumber.trans_le hstepOf.next).trans_eq hnext.symm
  · exact (hintact'.good.memtables.tables y hy).trans_eq hlast
  · rw [happlied]
    exact (finalize_files _ _).trans (Builder.saveTo_files_congr hfiles edit)

/-- A step that logs an edit. -/
theorem Durable.background_some (h : s.Durable journal) (hallows : s.allows event = true)
    (hclear : s.db.Clear event) (hintact : db'.Intact) (hstepOf : s.db.StepOf event db')
    (hdb : s.db.step env event = some db') {edit : VersionEdit α} (hedit : s.loggedEdit event = some edit) :
    DurableDatabase.Durable { s with
      db := db'
      versions := (s.counted db').logAndApply env.score edit
      tables := s.tables ++ edit.newFiles.map fun e => e.2.number } journal := by
  obtain ⟨hwrite, hswitch⟩ := not_write_of_allows hallows
  obtain ⟨hmem', hlast', himm'⟩ := memory_of_step hallows hstepOf
  have happlied := (loggedEdit_files h.intact.good hallows hdb).2 edit hedit
  obtain ⟨older, log, front, hlogs, hnumber, hrecords, hmem, himm⟩ := h.logged.files
  obtain ⟨moved, hmoved, hsplit, hle, hlt, hprev⟩ := h.moved hedit hlogs hnumber himm
  obtain ⟨hwritten, hfiles, hold⟩ := Written.background env h.written h.files h.intact hintact hstepOf hlast'
    hedit hlt happlied (s.tables ++ edit.newFiles.map fun e => e.2.number)
  obtain ⟨s₀, hthinned⟩ := h.intact.background_tables hclear (h.smallestSnapshot_lt hallows) hwrite hswitch hdb
  generalize hs' : ({ s with
    db := db'
    versions := (s.counted db').logAndApply env.score edit
    tables := s.tables ++ edit.newFiles.map fun e => e.2.number } : DurableDatabase α) = s' at hwritten ⊢
  obtain ⟨hdb', hversions, hlogNumber, hprevNumber, hfile, htables, hlogging, hlogs'⟩ : s'.db = db' ∧
      s'.versions.current.files = db'.vset.current.files ∧
      s'.versions.logNumber = edit.logNumber.getD s.versions.logNumber ∧
      s'.versions.prevLogNumber = edit.prevLogNumber.getD s.versions.prevLogNumber ∧
      s'.logFileNumber = s.logFileNumber ∧ s'.tables = s.tables ++ edit.newFiles.map (fun e => e.2.number) ∧
      s'.logging = s.logging ∧ s'.logs = s.logs := by
    rw [← hs']
    exact ⟨rfl, hfiles, rfl, rfl, rfl, rfl, rfl, rfl⟩
  have hunflushed : db'.imm.getD [] = entriesOf (recordsFrom s'.versions.logNumber older) := by
    rw [hsplit, entriesOf_append, hmoved, ← hlogNumber] at himm
    rcases himm' with ⟨hnone, hsame⟩ | ⟨heq, hnone⟩
    · rw [hsame, himm, hnone]
      rfl
    · rw [heq] at himm
      rw [hnone]
      exact (List.append_right_eq_self.1 himm.symm).symm
  have hlogged := h.logged.background hlogs hnumber hrecords hmem hlogs' hfile hlogging
    (by rw [hdb']; exact hstepOf.next) (by rw [hdb', hmem']) (by rw [hdb', hunflushed]) (hlogNumber ▸ hle)
    (hprevNumber.trans hprev)
  have hrecent : s.recent = moved ++ s'.recent := by
    rw [h.logged.recent_split hlogs hnumber, hlogged.recent_split (hlogs'.trans hlogs) (hnumber.trans hfile.symm),
      hsplit, hlogNumber, List.append_assoc]
  have hlatest : s'.latest = s.latest := by rw [latest, latest, hlogging, hdb', hlast']
  have horder := h.recent
  rw [hrecent] at horder
  -- what is in tables, and what is flushed
  have hset : versionsOf {y | y ∈ (s.db.flushedBy event).getD [] ∨ s.db.InTables y} =
      versionsOf {y | s.db.InTables y} ∪ versionsOf {y | y ∈ entriesOf moved} := by
    rw [← versionsOf_union, hmoved]
    exact congrArg versionsOf (Set.ext fun y => or_comm)
  have hunique : StampsUnique (versionsOf {y | y ∈ (s.db.flushedBy event).getD [] ∨ s.db.InTables y}) := by
    refine h.intact.sources_good.unique.mono ?_
    rintro w ⟨y, hy, hw⟩
    exact ⟨y, hy.imp_left fun hy => (s.db.flushedBy_sublist event).subset hy, hw⟩
  rw [hset] at hthinned hunique
  have hnewer : ∀ w ∈ versionsOf {y | s.db.InTables y} ∪ versionsOf {y | y ∈ entriesOf moved}, ∀ r ∈ s'.recent,
      w.stamp < r.sequence := by
    rintro w (hw | ⟨y, hy, hw⟩) r hr
    · exact h.newer w hw r (by rw [hrecent]; exact List.mem_append_right _ hr)
    · obtain ⟨r₀, hr₀, hy⟩ := mem_entriesOf.1 hy
      have hy := (Database.mem_insertInto hy).2.1
      have hle := (List.pairwise_append.1 horder.order).2.2 r₀ hr₀ r hr
      rw [(stampedOf_some hw).2.1]
      omega
  have hmax : ∀ w ∈ versionsOf {y | s.db.InTables y} ∪ versionsOf {y | y ∈ entriesOf moved},
      w.stamp ≤ s.db.lastSequence := by
    rw [← hset]
    rintro w ⟨y, hy, hw⟩
    rw [(stampedOf_some hw).2.1]
    rcases hy with hy | hy
    · exact (h.intact.good.memtables.bounds y ((s.db.flushedBy_sublist event).subset hy)).2
    · exact h.intact.good.memtables.tables y hy
  obtain ⟨flushed, hjournal, hshows⟩ := h.journal
  refine ⟨hdb' ▸ hintact, hlatest ▸ h.bounded, by rw [hversions, hdb'], hwritten, hlogged, ?_, ?_, fun n hn => ?_,
    fun w hw r hr => ?_, flushed ++ moved, ?_, ?_⟩
  · rw [hlogging, hdb', hlast']
    exact h.logging
  · rw [hlatest]
    exact horder.sublist (List.sublist_append_right _ _)
  · rw [hdb', mem_fileNumbers hintact.good.version.filed] at hn
    obtain ⟨level, f, hf, rfl⟩ := hn
    rw [htables, List.mem_append]
    rcases hold level f hf with hf | hf
    · obtain ⟨e, he, rfl⟩ := List.mem_map.1 hf
      exact Or.inr (List.mem_map.2 ⟨e, List.mem_of_mem_filter he, rfl⟩)
    · exact Or.inl (h.tables _ ((mem_fileNumbers h.intact.good.version.filed).2 ⟨level, f, hf, rfl⟩))
  · rw [hdb'] at hw
    exact hnewer w (hthinned.subset hw) r hr
  · rw [hjournal, hrecent, List.append_assoc]
  · rw [hdb']
    refine Shows.thinned (shows_records hshows ?_ (horder.sublist (List.sublist_append_left _ _)) ?_) hunique hmax
      hthinned
    · exact hunique.mono Set.subset_union_left
    · exact fun w hw r hr => h.newer w hw r (by rw [hrecent]; exact List.mem_append_left _ hr)

/-- **A step of the background thread.** -/
theorem Durable.background (h : s.Durable journal) (hclear : s.db.Clear event)
    (hstep : s.background env event = some s') : s'.Durable journal := by
  unfold DurableDatabase.background at hstep
  split at hstep
  · rename_i hallows
    obtain ⟨db', hdb, rfl⟩ := Option.map_eq_some_iff.1 hstep
    obtain ⟨hintact, hstepOf⟩ := h.intact.step hclear (h.smallestSnapshot_lt hallows) hdb
    cases hedit : s.loggedEdit event with
    | none => exact h.background_none hallows hintact hstepOf hdb hedit
    | some edit => exact h.background_some hallows hclear hintact hstepOf hdb hedit
  · cases hstep

end Work

end DurableDatabase

end LevelDbSurf
