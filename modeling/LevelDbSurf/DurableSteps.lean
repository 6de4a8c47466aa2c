import LevelDbSurf.LogFiles

/-!
# What holds of a database that may crash

`Durable` says what a crash can rely on. The descriptor describes the version; the log files from the log number on hold
what is not in tables, in order, and what is in memtables; tables and log files together show the map of the journal.
Every step but a crash keeps it (`Durable.step`); the last log file is the one that is written to.
-/

namespace LevelDbSurf

open Cursors Versions Recovering

variable {α : Type} [LinearOrder α]

namespace DurableDatabase

/-- The last sequence number in the log files. -/
def latest (s : DurableDatabase α) : Nat := s.db.lastSequence + (s.logging.map (·.batch.length)).getD 0

/-- The log files are in order, and those from the log number on are those of the memtables. -/
structure Logged (s : DurableDatabase α) : Prop where
  sorted : s.logs.Pairwise fun a b => a.number < b.number
  numbers : ∀ log ∈ s.logs, 0 < log.number ∧ log.number.toNat < s.db.nextFileNumber
  synced : ∀ log ∈ s.logs, log.synced ≤ log.records.length
  files : ∃ older log front, s.logs = older ++ [log] ∧ log.number = s.logFileNumber ∧
    log.records = front ++ s.logging.toList ∧ s.db.mem = entriesOf front ∧
    s.db.imm.getD [] = entriesOf (recordsFrom s.versions.logNumber older)
  logNumber : s.versions.logNumber ≤ s.logFileNumber
  prevLogNumber : s.versions.prevLogNumber = 0

/-- The records of the descriptor, and the counters in them. -/
structure Written (s : DurableDatabase α) (seen : Nat → UInt64 → Prop) (records : List (VersionEdit α))
    (next : UInt64) (last : Nat) : Prop where
  descriptorLog : s.versions.descriptorLog = some records
  described : s.versions.Described seen records next last
  placed : s.db.Placed seen
  counter : next.toNat ≤ s.db.nextFileNumber
  numbers : ∀ level n, seen level n → n.toNat < next.toNat
  logNumber : s.versions.logNumber.toNat < next.toNat
  sequence : last ≤ s.db.lastSequence
  tables : ∀ y, s.db.InTables y → y.1.sequence ≤ last

/-- The invariant. -/
structure Durable (s : DurableDatabase α) (journal : List (LoggedBatch α)) : Prop where
  intact : s.db.Intact
  bounded : s.latest < kMaxSequenceNumber
  files : s.versions.current.files = s.db.vset.current.files
  written : ∃ seen records next last, s.Written seen records next last
  logged : s.Logged
  logging : ∀ r ∈ s.logging, r.sequence = s.db.lastSequence + 1
  recent : InOrder s.recent s.latest
  tables : ∀ n ∈ s.db.vset.current.fileNumbers, n ∈ s.tables
  newer : ∀ w ∈ versionsOf {y | s.db.InTables y}, ∀ r ∈ s.recent, w.stamp < r.sequence
  journal : ∃ flushed, journal = flushed ++ s.recent ∧ Shows (versionsOf {y | s.db.InTables y}) (mapOf flushed)

section Logs
variable {s s' : DurableDatabase α} {older : List (LogFile α)} {log : LogFile α}

theorem recordsOf_eq {versions : LoggedVersionSet α} (hprev : versions.prevLogNumber = 0) {logs : List (LogFile α)}
    (hsorted : logs.Pairwise fun a b => a.number < b.number) (hpos : ∀ log ∈ logs, 0 < log.number) :
    recordsOf versions logs = recordsFrom versions.logNumber logs := by
  unfold recordsOf recordsFrom
  rw [hprev, liveLogs_eq hsorted hpos]

theorem Logged.recent_eq (h : s.Logged) : s.recent = recordsFrom s.versions.logNumber s.logs :=
  recordsOf_eq h.prevLogNumber h.sorted fun log hlog => (h.numbers log hlog).1

/-- The records, with those of the memtable apart. -/
theorem Logged.recent_split (h : s.Logged) (hlogs : s.logs = older ++ [log]) (hnumber : log.number = s.logFileNumber) :
    s.recent = recordsFrom s.versions.logNumber older ++ log.records := by
  rw [h.recent_eq, hlogs, recordsFrom_append, recordsFrom_singleton]
  rw [hnumber]
  exact h.logNumber

theorem Logged.older_lt (h : s.Logged) (hlogs : s.logs = older ++ [log]) : ∀ a ∈ older, a.number < log.number := by
  have hsorted := h.sorted
  rw [hlogs, List.pairwise_append] at hsorted
  exact fun a ha => hsorted.2.2 a ha log (List.mem_singleton.2 rfl)

/-- Only the last log file is written to. -/
theorem Logged.onLogFile_logs (h : s.Logged) (hlogs : s.logs = older ++ [log])
    (hnumber : log.number = s.logFileNumber) (f : LogFile α → LogFile α) :
    (s.onLogFile f).logs = older ++ [f log] := by
  have holder : older.map (fun log => if log.number = s.logFileNumber then f log else log) = older := by
    refine (List.map_congr_left fun a ha => if_neg ?_).trans (List.map_id _)
    rw [← hnumber]
    exact UInt64.ne_of_lt (h.older_lt hlogs a ha)
  unfold onLogFile
  dsimp only
  rw [hlogs, List.map_append, holder, List.map_singleton, if_pos hnumber]

/-- The last log file grows, or is synced, or its records come to the memtable. -/
theorem Logged.replace (h : s.Logged) (front : List (LoggedBatch α)) (hlogs : s.logs = older ++ [log])
    (hnumber : log.number = s.logFileNumber)
    (himm : s.db.imm.getD [] = entriesOf (recordsFrom s.versions.logNumber older)) {log' : LogFile α}
    (hlogs' : s'.logs = older ++ [log']) (hsame : log'.number = log.number)
    (hsynced : log'.synced ≤ log'.records.length) (hfile : s'.logFileNumber = s.logFileNumber)
    (hversions : s'.versions = s.versions) (hnext : s.db.nextFileNumber ≤ s'.db.nextFileNumber)
    (himm' : s'.db.imm = s.db.imm) (hrecords : log'.records = front ++ s'.logging.toList)
    (hmem : s'.db.mem = entriesOf front) : s'.Logged where
  sorted := by
    have hsorted := h.sorted
    rw [hlogs, List.pairwise_append] at hsorted
    rw [hlogs', List.pairwise_append]
    refine ⟨hsorted.1, List.pairwise_singleton _ _, fun a ha b hb => ?_⟩
    rw [List.mem_singleton.1 hb, hsame]
    exact h.older_lt hlogs a ha
  numbers a ha := by
    rw [hlogs', List.mem_append, List.mem_singleton] at ha
    rcases ha with ha | rfl
    · have hn := h.numbers a (by rw [hlogs]; exact List.mem_append_left _ ha)
      exact ⟨hn.1, hn.2.trans_le hnext⟩
    · have hn := h.numbers log (by rw [hlogs]; exact List.mem_append_right _ (List.mem_singleton.2 rfl))
      rw [hsame]
      exact ⟨hn.1, hn.2.trans_le hnext⟩
  synced a ha := by
    rw [hlogs', List.mem_append, List.mem_singleton] at ha
    rcases ha with ha | rfl
    · exact h.synced a (by rw [hlogs]; exact List.mem_append_left _ ha)
    · exact hsynced
  files := ⟨older, log', front, hlogs', by rw [hsame, hnumber, hfile], hrecords, hmem, by
    rw [himm', hversions]
    exact himm⟩
  logNumber := by
    rw [hversions, hfile]
    exact h.logNumber
  prevLogNumber := by
    rw [hversions]
    exact h.prevLogNumber

end Logs

/-! ## Steps that leave the tables alone -/

/-- The version and its tables stay as they are, and so does the descriptor. -/
structure SameTables (s s' : DurableDatabase α) : Prop where
  files : s'.db.vset.current.files = s.db.vset.current.files
  inTables : ∀ y, s'.db.InTables y ↔ s.db.InTables y
  versions : s'.versions = s.versions
  placed : ∀ seen, s.db.Placed seen → s'.db.Placed seen
  next : s.db.nextFileNumber ≤ s'.db.nextFileNumber
  last : s.db.lastSequence ≤ s'.db.lastSequence
  kept : ∀ n ∈ s.db.vset.current.fileNumbers, n ∈ s.tables → n ∈ s'.tables

section Same
variable {s s' : DurableDatabase α} {journal : List (LoggedBatch α)}

/-- The numbers of the version's files. -/
theorem fileNumbers_congr {v w : Version α} (h : v.files = w.files) : v.fileNumbers = w.fileNumbers := by
  unfold Version.fileNumbers
  rw [h]

theorem Durable.congr (h : s.Durable journal) (hsame : s.SameTables s') (hintact : s'.db.Intact)
    (hbounded : s'.latest < kMaxSequenceNumber) (hlogged : s'.Logged)
    (hlogging : ∀ r ∈ s'.logging, r.sequence = s'.db.lastSequence + 1) {more : List (LoggedBatch α)}
    (hrecent : s'.recent = s.recent ++ more) (horder : InOrder s'.recent s'.latest)
    (hmore : ∀ r ∈ more, s.db.lastSequence < r.sequence) : s'.Durable (journal ++ more) where
  intact := hintact
  bounded := hbounded
  files := by
    rw [hsame.versions, hsame.files]
    exact h.files
  written := by
    obtain ⟨seen, records, next, last, hw⟩ := h.written
    exact ⟨seen, records, next, last, hsame.versions ▸ hw.descriptorLog, hsame.versions ▸ hw.described,
      hsame.placed seen hw.placed, hw.counter.trans hsame.next, hw.numbers, hsame.versions ▸ hw.logNumber,
      hw.sequence.trans hsame.last, fun y hy => hw.tables y ((hsame.inTables y).1 hy)⟩
  logged := hlogged
  logging := hlogging
  recent := horder
  tables n hn := by
    rw [fileNumbers_congr hsame.files] at hn
    exact hsame.kept n hn (h.tables n hn)
  newer := by
    rintro w ⟨y, hy, hw⟩ r hr
    have hy' := (hsame.inTables y).1 hy
    rw [hrecent, List.mem_append] at hr
    rcases hr with hr | hr
    · exact h.newer w ⟨y, hy', hw⟩ r hr
    · rw [(stampedOf_some hw).2.1]
      exact (h.intact.good.memtables.tables y hy').trans_lt (hmore r hr)
  journal := by
    obtain ⟨flushed, hjournal, hshows⟩ := h.journal
    have hset : {y | s'.db.InTables y} = {y | s.db.InTables y} := Set.ext hsame.inTables
    rw [hset]
    exact ⟨flushed, by rw [hjournal, hrecent, List.append_assoc], hshows⟩

/-- Only the files of the log change. -/
theorem SameTables.of_db (hdb : s'.db = s.db) (hversions : s'.versions = s.versions)
    (hkept : ∀ n ∈ s.db.vset.current.fileNumbers, n ∈ s.tables → n ∈ s'.tables) : s.SameTables s' := by
  refine ⟨?_, ?_, hversions, ?_, ?_, ?_, hkept⟩ <;> rw [hdb]
  · exact fun y => Iff.rfl
  · exact fun seen hp => hp

/-- **`AddRecord`.** -/
theorem Durable.addRecord (h : s.Durable journal) {batch : WriteBatch α} (hstep : s.addRecord batch = some s') :
    s'.Durable (journal ++ [{ sequence := s.db.lastSequence + 1, batch }]) := by
  generalize hr : ({ sequence := s.db.lastSequence + 1, batch } : LoggedBatch α) = r
  have hsequence : r.sequence = s.db.lastSequence + 1 := by rw [← hr]
  obtain ⟨hnone, hbound, hdb, hversions, hfile, htables, hlogging, hlogs'⟩ : s.logging = none ∧
      s.db.lastSequence + r.batch.length < kMaxSequenceNumber ∧ s'.db = s.db ∧ s'.versions = s.versions ∧
      s'.logFileNumber = s.logFileNumber ∧ s'.tables = s.tables ∧ s'.logging = some r ∧
      s'.logs = (s.onLogFile fun log => { log with records := log.records ++ [r] }).logs := by
    unfold DurableDatabase.addRecord at hstep
    split at hstep
    · rename_i hif
      cases hstep
      rw [← hr]
      exact ⟨Option.isNone_iff_eq_none.1 hif.1, hif.2, rfl, rfl, rfl, rfl, rfl, rfl⟩
    · cases hstep
  have hlatest : s.latest = s.db.lastSequence := by simp [latest, hnone]
  have hlatest' : s'.latest = s.latest + r.batch.length := by
    rw [hlatest, latest, hlogging, hdb]
    rfl
  obtain ⟨older, log, front, hlogs, hnumber, hrecords, hmem, himm⟩ := h.logged.files
  rw [hnone, Option.toList_none, List.append_nil] at hrecords
  rw [h.logged.onLogFile_logs hlogs hnumber] at hlogs'
  have hsynced := h.logged.synced log (by rw [hlogs]; exact List.mem_append_right _ (List.mem_singleton.2 rfl))
  have hlogged := h.logged.replace front hlogs hnumber himm hlogs' rfl (by simp only [List.length_append]; omega)
    hfile hversions (by rw [hdb]) (by rw [hdb]) (by rw [hrecords, hlogging]; rfl) (by rw [hdb, hmem])
  have hrecent : s'.recent = s.recent ++ [r] := by
    rw [hlogged.recent_split hlogs' (hfile ▸ hnumber), h.logged.recent_split hlogs hnumber, hversions,
      List.append_assoc]
  refine h.congr (SameTables.of_db hdb hversions fun _ _ hn => htables ▸ hn) (hdb ▸ h.intact) ?_ hlogged ?_ hrecent
    ?_ ?_
  · rw [hlatest', hlatest]
    exact hbound
  · rw [hlogging, hdb]
    rintro r' ⟨⟩
    exact hsequence
  · rw [hrecent, hlatest']
    exact h.recent.concat (hlatest ▸ hsequence)
  · intro r' hr'
    rw [List.mem_singleton.1 hr', hsequence]
    exact Nat.lt_succ_self _

/-- **`Sync`.** -/
theorem Durable.sync (h : s.Durable journal) (hstep : s.sync = some s') : s'.Durable journal := by
  obtain ⟨hdb, hversions, hfile, htables, hlogging, hlogs'⟩ : s'.db = s.db ∧ s'.versions = s.versions ∧
      s'.logFileNumber = s.logFileNumber ∧ s'.tables = s.tables ∧ s'.logging = s.logging ∧
      s'.logs = (s.onLogFile fun log => { log with synced := log.records.length }).logs := by
    unfold DurableDatabase.sync at hstep
    cases hstep
    exact ⟨rfl, rfl, rfl, rfl, rfl, rfl⟩
  have hlatest : s'.latest = s.latest := by rw [latest, latest, hlogging, hdb]
  obtain ⟨older, log, front, hlogs, hnumber, hrecords, hmem, himm⟩ := h.logged.files
  rw [h.logged.onLogFile_logs hlogs hnumber] at hlogs'
  have hlogged := h.logged.replace front hlogs hnumber himm hlogs' rfl (le_refl _) hfile hversions (by rw [hdb])
    (by rw [hdb]) (by rw [hrecords, hlogging]) (by rw [hdb, hmem])
  have hrecent : s'.recent = s.recent ++ [] := by
    rw [hlogged.recent_split hlogs' (hfile ▸ hnumber), h.logged.recent_split hlogs hnumber, hversions,
      List.append_nil]
  have hdurable := h.congr (SameTables.of_db hdb hversions fun _ _ hn => htables ▸ hn) (hdb ▸ h.intact)
    (hlatest ▸ h.bounded) hlogged (by rw [hlogging, hdb]; exact h.logging) hrecent
    (by rw [hrecent, List.append_nil, hlatest]; exact h.recent) (by rintro r ⟨⟩)
  rwa [List.append_nil] at hdurable

/-- **`InsertInto`**, and `SetLastSequence`. -/
theorem Durable.insertInto (h : s.Durable journal) (hstep : s.insertInto = some s') : s'.Durable journal := by
  unfold DurableDatabase.insertInto at hstep
  obtain ⟨r, hr, hstep⟩ := Option.bind_eq_some_iff.1 hstep
  obtain ⟨db', hdb, rfl⟩ := Option.map_eq_some_iff.1 hstep
  obtain ⟨hintact, hstepOf⟩ := h.intact.write hdb
  obtain ⟨hmem', himm', hlast'⟩ := hstepOf.memory
  have hsequence := h.logging r hr
  have hvset : db'.vset = s.db.vset ∧ db'.contents = s.db.contents := by
    unfold Database.write at hdb
    split at hdb
    · cases hdb
      exact ⟨rfl, rfl⟩
    · cases hdb
  have hlatest : s.latest = db'.lastSequence := by
    rw [hlast', latest, hr]
    rfl
  obtain ⟨older, log, front, hlogs, hnumber, hrecords, hmem, himm⟩ := h.logged.files
  have hsynced := h.logged.synced log (by rw [hlogs]; exact List.mem_append_right _ (List.mem_singleton.2 rfl))
  have hlogged : DurableDatabase.Logged { s with db := db', logging := none } := h.logged.replace log.records hlogs
    hnumber himm hlogs rfl hsynced rfl rfl hstepOf.next himm' (List.append_nil _).symm (by
      show db'.mem = _
      rw [hmem', hmem, hrecords, hr, Option.toList_some, entriesOf_append, entriesOf_singleton, LoggedBatch.entries,
        hsequence])
  have hrecent : DurableDatabase.recent { s with db := db', logging := none } = s.recent ++ [] :=
    (List.append_nil _).symm
  have hsame : s.SameTables { s with db := db', logging := none } := by
    refine ⟨?_, fun y => ?_, rfl, fun _ hp => hp.congr hstepOf ?_, hstepOf.next, ?_, fun _ _ hn => hn⟩
    · rw [hvset.1]
    · unfold Database.InTables
      rw [hvset.1, hvset.2]
    · rw [hvset.1]
    · dsimp only
      omega
  have hdurable := h.congr hsame hintact (show db'.lastSequence + 0 < _ from hlatest ▸ h.bounded) hlogged
    (by rintro r ⟨⟩) hrecent
    (by
      rw [hrecent, List.append_nil]
      show InOrder s.recent (db'.lastSequence + 0)
      exact hlatest ▸ h.recent) (by rintro r ⟨⟩)
  rwa [List.append_nil] at hdurable

/-- **A new memtable**, and a new log file. -/
theorem Durable.switchMemTable (h : s.Durable journal) (hstep : s.switchMemTable = some s') : s'.Durable journal := by
  unfold DurableDatabase.switchMemTable at hstep
  split at hstep
  · rename_i hif
    have hnone : s.logging = none := Option.isNone_iff_eq_none.1 hif
    obtain ⟨db', hdb, rfl⟩ := Option.map_eq_some_iff.1 hstep
    obtain ⟨hintact, hstepOf⟩ := h.intact.switchMemTable hdb
    obtain ⟨himmNone, himm', hmem', hlast'⟩ := hstepOf.memory
    have hvset : db'.vset = s.db.vset ∧ db'.contents = s.db.contents ∧
        db'.nextFileNumber = s.db.nextFileNumber + 1 := by
      unfold Database.switchMemTable at hdb
      split at hdb
      · cases hdb
        exact ⟨rfl, rfl, rfl⟩
      · cases hdb
    obtain ⟨older, log, front, hlogs, hnumber, hrecords, hmem, himm⟩ := h.logged.files
    rw [hnone, Option.toList_none, List.append_nil] at hrecords
    have hnew := h.intact.good.numbers.newFileNumber_toNat
    have hlt : ∀ a ∈ s.logs, a.number < s.db.newFileNumber := by
      intro a ha
      rw [UInt64.lt_iff_toNat_lt, hnew]
      exact (h.logged.numbers a ha).2
    have hlogFile : s.logFileNumber < s.db.newFileNumber := by
      rw [← hnumber]
      exact hlt log (by rw [hlogs]; exact List.mem_append_right _ (List.mem_singleton.2 rfl))
    generalize hs' : ({ s with
      db := db', logFileNumber := s.db.newFileNumber
      logs := newLogFile s.db.newFileNumber s.logs } : DurableDatabase α) = s'
    obtain ⟨hdb', hversions, hfile, htables, hlogging, hlogs'⟩ : s'.db = db' ∧ s'.versions = s.versions ∧
        s'.logFileNumber = s.db.newFileNumber ∧ s'.tables = s.tables ∧ s'.logging = none ∧
        s'.logs = s.logs ++ [{ number := s.db.newFileNumber }] := by
      rw [← hs']
      exact ⟨rfl, rfl, rfl, rfl, hnone, newLogFile_eq hlt⟩
    have hlogged : s'.Logged := by
      refine ⟨?_, ?_, ?_, ⟨s.logs, { number := s.db.newFileNumber }, [], hlogs', hfile.symm, ?_, ?_, ?_⟩, ?_, ?_⟩
      · rw [hlogs', List.pairwise_append]
        refine ⟨h.logged.sorted, List.pairwise_singleton _ _, fun a ha b hb => ?_⟩
        rw [List.mem_singleton.1 hb]
        exact hlt a ha
      · intro a ha
        rw [hlogs', List.mem_append, List.mem_singleton] at ha
        rw [hdb', hvset.2.2]
        rcases ha with ha | rfl
        · exact ⟨(h.logged.numbers a ha).1, (h.logged.numbers a ha).2.trans (Nat.lt_succ_self _)⟩
        · refine ⟨UInt64.lt_of_le_of_lt (UInt64.zero_le) hlogFile, ?_⟩
          dsimp only
          rw [hnew]
          exact Nat.lt_succ_self _
      · intro a ha
        rw [hlogs', List.mem_append, List.mem_singleton] at ha
        rcases ha with ha | rfl
        · exact h.logged.synced a ha
        · exact le_refl _
      · rw [hlogging]
        rfl
      · rw [hdb', hmem']
        rfl
      · rw [hdb', himm', Option.getD_some, hversions, ← h.logged.recent_eq, h.logged.recent_split hlogs hnumber,
          entriesOf_append, ← himm, himmNone, Option.getD_none, List.nil_append, hrecords, hmem]
      · rw [hversions, hfile]
        exact UInt64.le_of_lt (UInt64.lt_of_le_of_lt h.logged.logNumber hlogFile)
      · rw [hversions]
        exact h.logged.prevLogNumber
    have hrecent : s'.recent = s.recent ++ [] := by
      rw [hlogged.recent_split hlogs' hfile.symm, hversions, ← h.logged.recent_eq]
    have hlatest : s'.latest = s.latest := by
      rw [latest, latest, hlogging, hnone, hdb', hlast']
    have hsame : s.SameTables s' := by
      refine ⟨?_, fun y => ?_, hversions, fun _ hp => ?_, ?_, ?_, fun _ _ hn => htables ▸ hn⟩
      · rw [hdb', hvset.1]
      · unfold Database.InTables
        rw [hdb', hvset.1, hvset.2.1]
      · rw [hdb']
        exact hp.congr hstepOf (by rw [hvset.1])
      · rw [hdb']
        exact hstepOf.next
      · rw [hdb', hlast']
    have hdurable := h.congr hsame (hdb' ▸ hintact) (hlatest ▸ h.bounded) hlogged
      (by rw [hlogging]; rintro r ⟨⟩) hrecent (by rw [hrecent, List.append_nil, hlatest]; exact h.recent)
      (by rintro r ⟨⟩)
    rwa [List.append_nil] at hdurable
  · cases hstep

end Same

end DurableDatabase

end LevelDbSurf
