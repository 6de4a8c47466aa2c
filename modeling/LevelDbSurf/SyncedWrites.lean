import LevelDbSurf.CrashRecovery

/-!
# What a crash cannot take (`include/leveldb/options.h:187-205`)

Of `WriteOptions::sync`: "If this flag is false, and the machine crashes, some recent writes may be lost. Note that if it
is just the process that crashes (i.e., the machine does not reboot), no writes will be lost even if sync==false."

`stable` is what is in tables, and what is synced. No step makes it less (`Durable.stable_step`), so whatever was in the
log file when it was synced stays in the journal for ever (`synced_kept`). If no crash cuts log files off, nothing is
lost at all (`process_crash_keeps`).
-/

namespace LevelDbSurf

open Cursors Versions Recovering

variable {α : Type} [LinearOrder α]

/-! ## Log files from a later number on -/

section Later
variable {logs : List (LogFile α)} {number number' : UInt64}

omit [LinearOrder α] in
/-- The records of one of them. -/
theorem sublist_recordsFrom {log : LogFile α} (hlog : log ∈ logs) (hle : number ≤ log.number) :
    log.records.Sublist (recordsFrom number logs) := by
  unfold recordsFrom
  rw [List.flatMap_def]
  exact List.sublist_flatten_of_mem
    (List.mem_map.2 ⟨log, List.mem_filter.2 ⟨hlog, decide_eq_true hle⟩, rfl⟩)

omit [LinearOrder α] in
/-- What is between two numbers. -/
theorem recordsFrom_later (hsorted : logs.Pairwise fun a b => a.number < b.number) (hle : number ≤ number')
    (kept : LogFile α → Nat) :
    ∃ between kept', recordsFrom number logs = between ++ recordsFrom number' logs ∧
      recordsFrom number (cut kept logs) = kept' ++ recordsFrom number' (cut kept logs) ∧
      kept'.Sublist between := by
  induction logs with
  | nil => exact ⟨[], [], rfl, rfl, List.Sublist.slnil⟩
  | cons log logs ih =>
    obtain ⟨hafter, hsorted⟩ := List.pairwise_cons.1 hsorted
    obtain ⟨between, kept', hbetween, hkept, hsub⟩ := ih hsorted
    by_cases hlater : number' ≤ log.number
    · -- all log files count for both
      have hsame : ∀ a ∈ log :: logs, (number ≤ a.number ↔ number' ≤ a.number) := by
        intro a ha
        have hlog : number' ≤ a.number := by
          rcases List.mem_cons.1 ha with rfl | ha
          · exact hlater
          · exact UInt64.le_trans hlater (UInt64.le_of_lt (hafter a ha))
        exact iff_of_true (UInt64.le_trans hle hlog) hlog
      have hfilter : ∀ logs' : List (LogFile α), (∀ a ∈ logs', ∃ b ∈ log :: logs, a.number = b.number) →
          recordsFrom number logs' = recordsFrom number' logs' := by
        intro logs' hlogs'
        refine congrArg _ (List.filter_congr fun a ha => ?_)
        obtain ⟨b, hb, heq⟩ := hlogs' a ha
        rw [heq]
        exact decide_eq_decide.2 (hsame b hb)
      refine ⟨[], [], hfilter _ fun a ha => ⟨a, ha, rfl⟩, hfilter _ fun a ha => ?_, List.Sublist.slnil⟩
      obtain ⟨b, hb, rfl⟩ := List.mem_map.1 ha
      exact ⟨b, hb, rfl⟩
    · unfold cut at hkept ⊢
      rw [List.map_cons, recordsFrom_cons, recordsFrom_cons number', recordsFrom_cons, recordsFrom_cons number']
      dsimp only
      rw [if_neg hlater, if_neg hlater, List.nil_append, List.nil_append, hbetween, hkept, ← List.append_assoc,
        ← List.append_assoc]
      refine ⟨_, _, rfl, rfl, List.Sublist.append ?_ hsub⟩
      split
      · exact List.take_sublist _ _
      · exact List.Sublist.slnil

omit [LinearOrder α] in
/-- Records that have come to tables are stable. -/
theorem stable_later (hsorted : logs.Pairwise fun a b => a.number < b.number) (hle : number ≤ number')
    (kept : LogFile α → Nat) {flushed flushed' : List (LoggedBatch α)}
    (hsame : flushed ++ recordsFrom number logs = flushed' ++ recordsFrom number' logs) :
    (flushed ++ recordsFrom number (cut kept logs)).Sublist (flushed' ++ recordsFrom number' (cut kept logs)) := by
  obtain ⟨between, kept', hbetween, hkept, hsub⟩ := recordsFrom_later hsorted hle kept
  rw [hbetween, ← List.append_assoc] at hsame
  rw [← List.append_cancel_right hsame, hkept, ← List.append_assoc]
  exact List.Sublist.append_right (List.Sublist.append_left hsub _) _

end Later

namespace DurableDatabase

/-- What is in tables, and what is synced. -/
def stable (s : DurableDatabase α) (journal : List (LoggedBatch α)) : List (LoggedBatch α) :=
  journal.take (journal.length - s.recent.length) ++ recordsOf s.versions (cut (·.synced) s.logs)

section Stable
variable {s s' : DurableDatabase α} {journal journal' : List (LoggedBatch α)} {env : Environment α}

theorem Durable.stable_eq (h : s.Durable journal) {flushed : List (LoggedBatch α)}
    (hjournal : journal = flushed ++ s.recent) :
    s.stable journal = flushed ++ recordsFrom s.versions.logNumber (cut (·.synced) s.logs) := by
  have hrecords : recordsOf s.versions (cut (·.synced) s.logs) =
      recordsFrom s.versions.logNumber (cut (·.synced) s.logs) := by
    refine recordsOf_eq h.logged.prevLogNumber (List.pairwise_map.2 h.logged.sorted) fun log hlog => ?_
    obtain ⟨a, ha, rfl⟩ := List.mem_map.1 hlog
    exact (h.logged.numbers a ha).1
  unfold stable
  rw [hrecords, hjournal, List.length_append, Nat.add_sub_cancel, List.take_left]

/-- What is stable is in the journal. -/
theorem Durable.stable_sublist (h : s.Durable journal) : (s.stable journal).Sublist journal := by
  obtain ⟨flushed, hjournal, -⟩ := h.journal
  rw [h.stable_eq hjournal, hjournal, h.logged.recent_eq]
  refine List.Sublist.append_left ?_ _
  have hkept : ∀ log ∈ s.logs, log.synced ≤ max log.synced log.records.length := fun log _ => le_max_left _ _
  refine (recordsFrom_cut_sublist _ hkept).trans ?_
  rw [cut_eq_self fun log _ => le_max_right _ _]

/-- A step that takes no log file away that counts, and syncs no less. -/
theorem Durable.stable_of_logs (h : s.Durable journal) (h' : s'.Durable journal')
    (hle : s.versions.logNumber ≤ s'.versions.logNumber) {flushed : List (LoggedBatch α)}
    (hjournal : journal = flushed ++ s.recent)
    (hjournal' : journal' = flushed ++ recordsFrom s.versions.logNumber s'.logs)
    (hcut : (recordsFrom s.versions.logNumber (cut (·.synced) s.logs)).Sublist
      (recordsFrom s.versions.logNumber (cut (·.synced) s'.logs))) :
    (s.stable journal).Sublist (s'.stable journal') := by
  obtain ⟨flushed', hflushed', -⟩ := h'.journal
  rw [h.stable_eq hjournal, h'.stable_eq hflushed']
  refine (List.Sublist.append_left hcut _).trans (stable_later h'.logged.sorted hle _ ?_)
  rw [← h'.logged.recent_eq, ← hjournal', hflushed']

/-- The log number goes up. -/
theorem Durable.logNumber_background (h : s.Durable journal) {event : DatabaseEvent α}
    (hstep : s.background env event = some s') :
    s.versions.logNumber ≤ s'.versions.logNumber ∧ s'.logs = s.logs := by
  unfold DurableDatabase.background at hstep
  split at hstep
  · obtain ⟨db', -, rfl⟩ := Option.map_eq_some_iff.1 hstep
    cases hedit : s.loggedEdit event with
    | none => exact ⟨UInt64.le_refl _, rfl⟩
    | some edit =>
      refine ⟨?_, rfl⟩
      show s.versions.logNumber ≤ edit.logNumber.getD s.versions.logNumber
      rcases loggedEdit_numbers hedit with ⟨-, -, hlog, -⟩ | ⟨-, hlog, -⟩
      · rw [hlog]
        exact h.logged.logNumber
      · rw [hlog]
        exact UInt64.le_refl _
  · cases hstep

theorem allows_of_crash {c : Crash α} {o : OpenCall α} (hstep : s.step env (.crash c o) = some s') : s.Allows c := by
  change s.crash env c o = some s' at hstep
  unfold DurableDatabase.crash at hstep
  split at hstep
  · assumption
  · cases hstep

/-- The log file that is written to is the last one, and counts. -/
theorem Durable.last_log (h : s.Durable journal) :
    ∃ older log, s.logs = older ++ [log] ∧ log.number = s.logFileNumber ∧ s.versions.logNumber ≤ log.number ∧
      s.recent = recordsFrom s.versions.logNumber older ++ log.records := by
  obtain ⟨older, log, front, hlogs, hnumber, -⟩ := h.logged.files
  exact ⟨older, log, hlogs, hnumber, hnumber ▸ h.logged.logNumber, h.logged.recent_split hlogs hnumber⟩

/-- What was synced of it was so many of its first records. -/
theorem Durable.stable_addRecord (h : s.Durable journal) {batch : WriteBatch α} (hstep : s.addRecord batch = some s')
    (h' : s'.Durable (s.follow journal (.addRecord batch))) :
    (s.stable journal).Sublist (s'.stable (s.follow journal (.addRecord batch))) := by
  obtain ⟨flushed, hjournal, -⟩ := h.journal
  obtain ⟨older, log, hlogs, hnumber, hle, hrecent⟩ := h.last_log
  unfold DurableDatabase.addRecord at hstep
  split at hstep
  · cases hstep
    have hlogs' := h.logged.onLogFile_logs hlogs hnumber fun log =>
      { log with records := log.records ++ [{ sequence := s.db.lastSequence + 1, batch }] }
    refine h.stable_of_logs h' (UInt64.le_refl _) hjournal ?_ ?_
    · rw [hlogs', recordsFrom_append, recordsFrom_singleton (by exact hle)]
      show journal ++ _ = _
      rw [hjournal, hrecent]
      simp
    · have hsynced := h.logged.synced log (by rw [hlogs]; exact List.mem_append_right _ (List.mem_singleton.2 rfl))
      rw [hlogs', hlogs]
      unfold cut
      rw [List.map_append, List.map_append, List.map_singleton, List.map_singleton,
        List.take_append_of_le_length hsynced]
  · cases hstep

/-- All its records are synced now. -/
theorem Durable.stable_sync (h : s.Durable journal) (hstep : s.sync = some s') (h' : s'.Durable journal) :
    (s.stable journal).Sublist (s'.stable journal) := by
  obtain ⟨flushed, hjournal, -⟩ := h.journal
  obtain ⟨older, log, hlogs, hnumber, hle, hrecent⟩ := h.last_log
  cases hstep
  have hlogs' := h.logged.onLogFile_logs hlogs hnumber fun log => { log with synced := log.records.length }
  refine h.stable_of_logs h' (UInt64.le_refl _) hjournal ?_ ?_
  · rw [hlogs', recordsFrom_append, recordsFrom_singleton (by exact hle), ← hrecent]
    exact hjournal
  · rw [hlogs', hlogs]
    unfold cut
    rw [List.map_append, List.map_append, recordsFrom_append, recordsFrom_append, List.map_singleton,
      List.map_singleton, recordsFrom_singleton (by exact hle), recordsFrom_singleton (by exact hle)]
    refine List.Sublist.append_left ?_ _
    rw [List.take_length]
    exact List.take_sublist _ _

/-- The new log file is empty. -/
theorem Durable.stable_switchMemTable (h : s.Durable journal) (hstep : s.switchMemTable = some s')
    (h' : s'.Durable journal) : (s.stable journal).Sublist (s'.stable journal) := by
  obtain ⟨flushed, hjournal, -⟩ := h.journal
  unfold DurableDatabase.switchMemTable at hstep
  split at hstep
  · obtain ⟨db', -, rfl⟩ := Option.map_eq_some_iff.1 hstep
    have hnew : newLogFile s.db.newFileNumber s.logs = s.logs ++ [{ number := s.db.newFileNumber }] := by
      refine newLogFile_eq fun a ha => ?_
      rw [UInt64.lt_iff_toNat_lt, h.intact.good.numbers.newFileNumber_toNat]
      exact (h.logged.numbers a ha).2
    have hempty := recordsFrom_new (α := α) s.versions.logNumber [s.db.newFileNumber]
    rw [List.map_singleton] at hempty
    refine h.stable_of_logs h' (UInt64.le_refl _) hjournal ?_ ?_
    · dsimp only
      rw [hnew, recordsFrom_append, hempty, List.append_nil, ← h.logged.recent_eq]
      exact hjournal
    · dsimp only
      unfold cut
      rw [hnew, List.map_append, recordsFrom_append]
      exact List.sublist_append_left _ _
  · cases hstep

/-- No log file goes that counts. -/
theorem Durable.stable_removeObsoleteFiles (h : s.Durable journal) {live : List UInt64}
    (hstep : s.removeObsoleteFiles live = some s') (h' : s'.Durable journal) :
    (s.stable journal).Sublist (s'.stable journal) := by
  obtain ⟨flushed, hjournal, -⟩ := h.journal
  cases hstep
  have hcounts : ∀ log ∈ s.logs, s.versions.logNumber ≤ log.number →
      (decide (s.versions.logNumber ≤ log.number) || decide (log.number = s.versions.prevLogNumber)) = true := by
    intro log _ hle
    simp [hle]
  refine h.stable_of_logs h' (UInt64.le_refl _) hjournal ?_ ?_
  · dsimp only
    rw [recordsFrom_filter hcounts, ← h.logged.recent_eq]
    exact hjournal
  · dsimp only
    rw [recordsFrom_cut_filter hcounts]

/-- A crash keeps what was synced. -/
theorem recordsFrom_synced_crashedLogs {c : Crash α} (hallows : s.Allows c) :
    recordsFrom s.versions.logNumber (cut (·.synced) (s.crashedLogs c)) =
      recordsFrom s.versions.logNumber (cut (·.synced) s.logs) := by
  have hnew : recordsFrom s.versions.logNumber
      (cut (·.synced) (c.newLogs.map fun number => ({ number := number } : LogFile α))) = [] := by
    unfold cut
    rw [List.map_map]
    exact recordsFrom_new _ _
  unfold crashedLogs cut at *
  rw [List.map_append, recordsFrom_append, hnew, List.append_nil, List.map_map]
  refine congrArg _ (List.map_congr_left fun log hlog => ?_)
  simp only [Function.comp_apply, List.take_take, min_eq_left (hallows.1 log hlog)]

/-- `Open` takes no log file away that counts. -/
theorem Durable.stable_crash (h : s.Durable journal) {c : Crash α} {o : OpenCall α}
    (hstep : s.step env (.crash c o) = some s') (h' : s'.Durable (s.follow journal (.crash c o))) :
    (s.stable journal).Sublist (s'.stable (s.follow journal (.crash c o))) := by
  obtain ⟨flushed, hjournal, -⟩ := h.journal
  obtain ⟨hreopened, hlt⟩ := h.crash hstep
  have hallows := allows_of_crash hstep
  have hempty : ∀ number : UInt64, recordsFrom s.versions.logNumber [({ number } : LogFile α)] = [] := fun number =>
    recordsFrom_new (α := α) s.versions.logNumber [number]
  have hlogs' : recordsFrom s.versions.logNumber s'.logs = recordsFrom s.versions.logNumber (s.crashedLogs c) ∧
      recordsFrom s.versions.logNumber (cut (·.synced) s'.logs) =
        recordsFrom s.versions.logNumber (cut (·.synced) (s.crashedLogs c)) := by
    rcases hreopened.logs hlt with heq | ⟨number, heq⟩
    · rw [heq]
      exact ⟨rfl, rfl⟩
    · rw [heq]
      unfold cut
      rw [List.map_append, recordsFrom_append, recordsFrom_append]
      refine ⟨?_, ?_⟩
      · exact (congrArg _ (hempty number)).trans (List.append_nil _)
      · exact (congrArg _ (hempty number)).trans (List.append_nil _)
  refine h.stable_of_logs h' (hreopened.logNumber hlt) hjournal ?_ ?_
  · rw [hlogs'.1]
    exact h.follow_crash hallows o hjournal
  · rw [hlogs'.2, recordsFrom_synced_crashedLogs hallows]

/-- **Step.** No step makes less stable. -/
theorem Durable.stable_step (h : s.Durable journal) {event : DurableEvent α}
    (hclear : ∀ e, event = .background e → s.db.Clear e) (hstep : s.step env event = some s') :
    (s.stable journal).Sublist (s'.stable (s.follow journal event)) := by
  have h' := h.step hclear hstep
  cases event with
  | addRecord batch => exact h.stable_addRecord hstep h'
  | sync => exact h.stable_sync hstep h'
  | switchMemTable => exact h.stable_switchMemTable hstep h'
  | removeObsoleteFiles live => exact h.stable_removeObsoleteFiles hstep h'
  | crash c o => exact h.stable_crash hstep h'
  | insertInto =>
    obtain ⟨flushed, hjournal, -⟩ := h.journal
    change s.insertInto = some s' at hstep
    unfold DurableDatabase.insertInto at hstep
    obtain ⟨r, -, hstep⟩ := Option.bind_eq_some_iff.1 hstep
    obtain ⟨db', -, rfl⟩ := Option.map_eq_some_iff.1 hstep
    refine h.stable_of_logs h' (UInt64.le_refl _) hjournal ?_ (List.Sublist.refl _)
    rw [← h.logged.recent_eq]
    exact hjournal
  | background event =>
    obtain ⟨flushed, hjournal, -⟩ := h.journal
    obtain ⟨hlogNumber, hsame⟩ := h.logNumber_background hstep
    refine h.stable_of_logs h' hlogNumber hjournal ?_ ?_
    · rw [hsame, ← h.logged.recent_eq]
      exact hjournal
    · rw [hsame]

/-- **Run.** -/
theorem Durable.stable_run {events : List (DurableEvent α)}
    {states : List (DurableDatabase α × List (LoggedBatch α))} (h : s.Durable journal)
    (hclear : s.ClearRun env events) (hrun : s.run env journal events = some states) :
    ∀ p ∈ states, (s.stable journal).Sublist (p.1.stable p.2) := by
  induction events generalizing s journal states with
  | nil =>
    cases hrun
    intro p hp
    rw [List.mem_singleton.1 hp]
  | cons event events ih =>
    obtain ⟨s', rest, hstep, hrest, rfl⟩ := run_cons_some hrun
    refine List.forall_mem_cons.2 ⟨List.Sublist.refl _, fun p hp => ?_⟩
    exact (h.stable_step hclear.1 hstep).trans
      (ih (h.step hclear.1 hstep) (hclear.2 s' hstep) hrest p hp)

/-- **What was synced stays.** The batches that were in the log file when it was synced are in the journal for ever, in
their order, whatever crashes. -/
theorem synced_kept (h : Reached env s journal) (hsync : s.sync = some s') {events : List (DurableEvent α)}
    {states : List (DurableDatabase α × List (LoggedBatch α))} (hclear : s'.ClearRun env events)
    (hrun : s'.run env journal events = some states) {log : LogFile α} (hlog : log ∈ s.logs)
    (hnumber : log.number = s.logFileNumber) : ∀ p ∈ states, log.records.Sublist p.2 := by
  have hdurable := h.durable
  have h' := hdurable.sync hsync
  have hstable : log.records.Sublist (s'.stable journal) := by
    obtain ⟨flushed, hjournal, -⟩ := h'.journal
    rw [h'.stable_eq hjournal]
    refine List.Sublist.trans ?_ (List.sublist_append_right _ _)
    cases hsync
    have hmem : { log with records := log.records.take log.records.length, synced := log.records.length } ∈
        cut (·.synced) (s.onLogFile fun log => { log with synced := log.records.length }).logs :=
      List.mem_map.2 ⟨_, List.mem_map.2 ⟨log, hlog, if_pos hnumber⟩, rfl⟩
    have hle : s.versions.logNumber ≤ log.number := hnumber ▸ hdurable.logged.logNumber
    have hsub := sublist_recordsFrom hmem hle
    rwa [List.take_length] at hsub
  intro p hp
  exact (hstable.trans (h'.stable_run hclear hrun p hp)).trans (h'.run hclear hrun p hp).stable_sublist

/-- Log files are not cut off: only the process crashes. -/
def ProcessRun (env : Environment α) : DurableDatabase α → List (DurableEvent α) → Prop
  | _, [] => True
  | s, event :: events =>
    (∀ c o, event = .crash c o → ∀ log ∈ s.logs, log.records.length ≤ c.kept log.number) ∧
      ∀ s', s.step env event = some s' → ProcessRun env s' events

/-- A step that cuts no log file off. -/
theorem Durable.follow_process (h : s.Durable journal) {event : DurableEvent α}
    (hkept : ∀ c o, event = .crash c o → ∀ log ∈ s.logs, log.records.length ≤ c.kept log.number)
    (hstep : s.step env event = some s') : journal.IsPrefix (s.follow journal event) := by
  cases event with
  | addRecord batch => exact List.prefix_append _ _
  | crash c o =>
    obtain ⟨flushed, hjournal, -⟩ := h.journal
    have hallows := allows_of_crash hstep
    rw [h.follow_crash hallows o hjournal, recordsFrom_crashedLogs,
      cut_eq_self fun log hlog => hkept c o rfl log hlog, ← h.logged.recent_eq, ← hjournal]
  | _ => exact List.prefix_refl _

/-- A run in which no log file is cut off. -/
theorem Durable.process_run {events : List (DurableEvent α)}
    {states : List (DurableDatabase α × List (LoggedBatch α))} (h : s.Durable journal) (hclear : s.ClearRun env events)
    (hprocess : s.ProcessRun env events) (hrun : s.run env journal events = some states) :
    ∀ p ∈ states, journal.IsPrefix p.2 := by
  induction events generalizing s journal states with
  | nil =>
    cases hrun
    intro p hp
    rw [List.mem_singleton.1 hp]
  | cons event events ih =>
    obtain ⟨s', rest, hstep, hrest, rfl⟩ := run_cons_some hrun
    refine List.forall_mem_cons.2 ⟨List.prefix_refl _, fun p hp => ?_⟩
    exact (h.follow_process hprocess.1 hstep).trans
      (ih (h.step hclear.1 hstep) (hclear.2 s' hstep) (hprocess.2 s' hstep) hrest p hp)

/-- **A crash of the process** loses nothing, synced or not. -/
theorem process_crash_keeps (h : Reached env s journal) {events : List (DurableEvent α)}
    {states : List (DurableDatabase α × List (LoggedBatch α))} (hclear : s.ClearRun env events)
    (hprocess : s.ProcessRun env events) (hrun : s.run env journal events = some states) :
    ∀ p ∈ states, journal.IsPrefix p.2 :=
  h.durable.process_run hclear hprocess hrun

end Stable

end DurableDatabase

/-! ### A synced write, and one that was not -/

namespace SampleCrash

theorem reached_written : DurableDatabase.Reached env written journalA := by
  refine ⟨{}, opening, created, [.addRecord [([97], .value, [1])], .insertInto],
    [(created, []), (logged, journalA), (written, journalA)], rfl, rfl, opened, clearRun (by simp) _, ?_, by simp⟩
  rw [DurableDatabase.run_cons logged_eq, DurableDatabase.run_cons written_eq]
  rfl

/-- `a` is synced, and `b` is logged before the crash. -/
def synced : DurableDatabase Bytes := written.sync.getD written

def syncedB : DurableDatabase Bytes := (synced.step env (.addRecord [([98], .value, [2])])).getD synced

def syncedLeft : DurableDatabase Bytes := ((syncedB.crashed crash).openDB env opening).toOption.getD blank

def journalSynced : List (LoggedBatch Bytes) :=
  syncedB.follow (synced.follow journalA (.addRecord [([98], .value, [2])])) (.crash crash opening)

/-- The log file that was synced. -/
def log : LogFile Bytes := written.logs.headD { number := 0 }

/-- All is kept. -/
def processCrash : Crash Bytes := { kept := fun _ => 2 }

def restarted : DurableDatabase Bytes := ((pending.crashed processCrash).openDB env opening).toOption.getD blank

theorem ran_synced : (synced.step env (.addRecord [([98], .value, [2])])).isSome = true ∧ syncedB.Allows crash ∧
    ((syncedB.crashed crash).openDB env opening).isOk = true ∧ syncedLeft.db.nextFileNumber < 2 ^ 64 ∧
    written.logs.isEmpty = false ∧ log.number = written.logFileNumber := by
  decide +kernel

theorem ran_process : pending.Allows processCrash ∧
    ((pending.crashed processCrash).openDB env opening).isOk = true ∧ restarted.db.nextFileNumber < 2 ^ 64 ∧
    ∀ log ∈ pending.logs, log.records.length ≤ 2 := by
  decide +kernel

theorem headD_mem {β : Type} {l : List β} {x : β} (h : l.isEmpty = false) : l.headD x ∈ l := by
  cases l with
  | nil => cases h
  | cons y l => exact List.mem_cons_self

theorem crash_eq {s s' : DurableDatabase Bytes} {c : Crash Bytes} (hallows : s.Allows c)
    (hopen : (s.crashed c).openDB env opening = .ok s') (hlt : s'.db.nextFileNumber < 2 ^ 64) :
    s.step env (.crash c opening) = some s' := by
  show s.crash env c opening = _
  unfold DurableDatabase.crash
  rw [if_pos hallows, hopen]
  exact if_pos hlt

theorem syncedB_eq : synced.step env (.addRecord [([98], .value, [2])]) = some syncedB := eq_some_getD ran_synced.1

theorem syncedLeft_eq : syncedB.step env (.crash crash opening) = some syncedLeft :=
  crash_eq ran_synced.2.1 (eq_ok_getD ran_synced.2.2.1) ran_synced.2.2.2.1

theorem syncedRun : synced.run env journalA [.addRecord [([98], .value, [2])], .crash crash opening] =
    some [(synced, journalA), (syncedB, synced.follow journalA (.addRecord [([98], .value, [2])])),
      (syncedLeft, journalSynced)] := by
  rw [DurableDatabase.run_cons syncedB_eq, DurableDatabase.run_cons syncedLeft_eq]
  rfl

theorem restarted_eq : pending.step env (.crash processCrash opening) = some restarted :=
  crash_eq ran_process.1 (eq_ok_getD ran_process.2.1) ran_process.2.2.1

theorem restartedRun : pending.run env journalB [.crash processCrash opening] =
    some [(pending, journalB), (restarted, pending.follow journalB (.crash processCrash opening))] := by
  rw [DurableDatabase.run_cons restarted_eq]
  rfl

theorem processRun : pending.ProcessRun env [.crash processCrash opening] := by
  refine ⟨?_, fun _ _ => trivial⟩
  rintro c o ⟨⟩
  exact ran_process.2.2.2

end SampleCrash

theorem DurableDatabase.synced_kept_sample : SampleCrash.log.records.Sublist SampleCrash.journalSynced :=
  DurableDatabase.synced_kept SampleCrash.reached_written (show _ = some SampleCrash.synced from rfl)
    (SampleCrash.clearRun (by simp) _) SampleCrash.syncedRun (SampleCrash.headD_mem SampleCrash.ran_synced.2.2.2.2.1)
    SampleCrash.ran_synced.2.2.2.2.2 (SampleCrash.syncedLeft, SampleCrash.journalSynced) (by simp)

theorem DurableDatabase.process_crash_keeps_sample :
    SampleCrash.journalB.IsPrefix (SampleCrash.pending.follow SampleCrash.journalB
      (.crash SampleCrash.processCrash SampleCrash.opening)) :=
  DurableDatabase.process_crash_keeps SampleCrash.reached_pending (SampleCrash.clearRun (by simp) _)
    SampleCrash.processRun SampleCrash.restartedRun (SampleCrash.restarted, _)
    (List.mem_cons_of_mem _ List.mem_cons_self)

end LevelDbSurf
