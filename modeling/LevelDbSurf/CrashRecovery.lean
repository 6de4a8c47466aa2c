import LevelDbSurf.ReopenedDatabase
import LevelDbSurf.SnapshotReads

/-!
# Crashes and recovery

A database is created, and then anything happens: writes, flushes, compactions, crashes at any moment and calls of `Open`
after them (`Reached`). The invariant holds throughout (`Reached.durable`). So `Get` reads the map of the journal at any
time, and after a crash `Open` comes to what is left of it.
-/

namespace LevelDbSurf

open Cursors Versions Recovering

variable {α : Type} [LinearOrder α]

/-! ## Log files that are cut off -/

/-- Of each log file only so many records. -/
def cut (kept : LogFile α → Nat) (logs : List (LogFile α)) : List (LogFile α) :=
  logs.map fun log => { log with records := log.records.take (kept log) }

omit [LinearOrder α] in
theorem recordsFrom_cut_sublist (number : UInt64) {logs : List (LogFile α)} {kept kept' : LogFile α → Nat}
    (h : ∀ log ∈ logs, kept log ≤ kept' log) :
    (recordsFrom number (cut kept logs)).Sublist (recordsFrom number (cut kept' logs)) := by
  induction logs with
  | nil => exact List.Sublist.slnil
  | cons log logs ih =>
    have hlogs := ih fun log hlog => h log (List.mem_cons_of_mem _ hlog)
    unfold cut at hlogs ⊢
    rw [List.map_cons, List.map_cons, recordsFrom_cons, recordsFrom_cons]
    refine List.Sublist.append ?_ hlogs
    dsimp only
    split
    · exact List.take_sublist_take_left (h log List.mem_cons_self)
    · exact List.Sublist.slnil

omit [LinearOrder α] in
theorem recordsFrom_cut_filter {logs : List (LogFile α)} {number : UInt64} {p : LogFile α → Bool}
    (h : ∀ log ∈ logs, number ≤ log.number → p log = true) (kept : LogFile α → Nat) :
    recordsFrom number (cut kept (logs.filter p)) = recordsFrom number (cut kept logs) := by
  unfold recordsFrom cut
  rw [List.filter_map, List.filter_map, List.filter_filter]
  refine congrArg _ (congrArg _ (List.filter_congr fun log hlog => ?_))
  by_cases hle : number ≤ log.number
  · simp [hle, h log hlog hle]
  · simp [hle]

omit [LinearOrder α] in
theorem cut_eq_self {logs : List (LogFile α)} {kept : LogFile α → Nat}
    (h : ∀ log ∈ logs, log.records.length ≤ kept log) : cut kept logs = logs := by
  refine (List.map_congr_left fun log hlog => ?_).trans (List.map_id _)
  rw [List.take_of_length_le (h log hlog)]
  rfl

/-! ## After a crash -/

namespace DurableDatabase

section Crash
variable {s s' : DurableDatabase α} {journal : List (LoggedBatch α)} {env : Environment α} {c : Crash α}
  {o : OpenCall α}

/-- The records that are left. -/
theorem recordsFrom_crashedLogs (number : UInt64) (s : DurableDatabase α) (c : Crash α) :
    recordsFrom number (s.crashedLogs c) = recordsFrom number (cut (fun log => c.kept log.number) s.logs) := by
  unfold crashedLogs
  rw [recordsFrom_append, recordsFrom_new, List.append_nil]
  rfl

/-- The log files that are left are in order. -/
theorem Logged.crashed (h : s.Logged) (hallows : s.Allows c) :
    ((s.crashedLogs c).Pairwise fun a b => a.number < b.number) ∧ (∀ log ∈ s.crashedLogs c, 0 < log.number) ∧
      ∀ log ∈ s.crashedLogs c, log.synced ≤ log.records.length := by
  obtain ⟨hkept, hnew, hafter⟩ := hallows
  have hcases : ∀ {a}, a ∈ s.crashedLogs c →
      (∃ log ∈ s.logs, a = { log with records := log.records.take (c.kept log.number) }) ∨
        ∃ n ∈ c.newLogs, a = { number := n } := by
    intro a ha
    rcases List.mem_append.1 ha with ha | ha
    · obtain ⟨log, hlog, rfl⟩ := List.mem_map.1 ha
      exact Or.inl ⟨log, hlog, rfl⟩
    · obtain ⟨n, hn, rfl⟩ := List.mem_map.1 ha
      exact Or.inr ⟨n, hn, rfl⟩
  refine ⟨?_, fun a ha => ?_, fun a ha => ?_⟩
  · unfold crashedLogs
    rw [List.pairwise_append, List.pairwise_map, List.pairwise_map]
    refine ⟨h.sorted, hnew, fun a ha b hb => ?_⟩
    obtain ⟨log, hlog, rfl⟩ := List.mem_map.1 ha
    obtain ⟨n, hn, rfl⟩ := List.mem_map.1 hb
    exact hafter n hn log hlog
  · rcases hcases ha with ⟨log, hlog, rfl⟩ | ⟨n, hn, rfl⟩
    · exact (h.numbers log hlog).1
    · obtain ⟨older, log, -, hlogs, -⟩ := h.files
      exact UInt64.lt_of_le_of_lt UInt64.zero_le
        (hafter n hn log (by rw [hlogs]; exact List.mem_append_right _ (List.mem_singleton.2 rfl)))
  · rcases hcases ha with ⟨log, hlog, rfl⟩ | ⟨n, -, rfl⟩
    · have hle := hkept log hlog
      have hlen := h.synced log hlog
      simp only [List.length_take]
      omega
    · exact le_refl _

/-- The journal after a crash. -/
theorem Durable.follow_crash (h : s.Durable journal) (hallows : s.Allows c) (o : OpenCall α)
    {flushed : List (LoggedBatch α)} (hjournal : journal = flushed ++ s.recent) :
    s.follow journal (.crash c o) = flushed ++ recordsFrom s.versions.logNumber (s.crashedLogs c) := by
  obtain ⟨hsorted, hpositive, -⟩ := h.logged.crashed hallows
  rw [← recordsOf_eq h.logged.prevLogNumber hsorted hpositive]
  show journal.take (journal.length - s.recent.length) ++ recordsOf s.versions (s.crashedLogs c) = _
  rw [hjournal, List.length_append, Nat.add_sub_cancel, List.take_left]

/-- **What a crash leaves behind** can be recovered. -/
theorem Durable.crashed (h : s.Durable journal) (hallows : s.Allows c) (o : OpenCall α) :
    ∃ seen records next last flushed, s.versions.descriptorLog = some records ∧
      (s.crashed c).Recoverable s.versions seen records next last flushed ∧
      s.follow journal (.crash c o) = flushed ++ recordsFrom s.versions.logNumber (s.crashedLogs c) := by
  obtain ⟨seen, records, next, last, hw⟩ := h.written
  obtain ⟨flushed, hjournal, hshows⟩ := h.journal
  obtain ⟨hsorted, hpositive, hsynced⟩ := h.logged.crashed hallows
  have hcontents : ∀ level, ∀ f ∈ s.db.vset.current.files level,
      (s.crashed c).contents f.number = s.db.contents f.number := fun level f hf =>
    if_pos ((mem_fileNumbers h.intact.good.version.filed).2 ⟨level, f, hf, rfl⟩)
  have hin : ∀ y, (s.crashed c).InTables s.versions.current y ↔ s.db.InTables y := by
    intro y
    unfold Directory.InTables Database.InTables
    rw [h.files]
    constructor
    · rintro ⟨level, f, hf, hy⟩
      exact ⟨level, f, hf, hcontents level f hf ▸ hy⟩
    · rintro ⟨level, f, hf, hy⟩
      exact ⟨level, f, hf, (hcontents level f hf).symm ▸ hy⟩
  have hset : {y | (s.crashed c).InTables s.versions.current y} = {y | s.db.InTables y} := Set.ext hin
  have hsub : (recordsFrom s.versions.logNumber (s.crashedLogs c)).Sublist s.recent := by
    rw [recordsFrom_crashedLogs, h.logged.recent_eq]
    have hkept : ∀ log ∈ s.logs, c.kept log.number ≤ max (c.kept log.number) log.records.length := fun log _ =>
      le_max_left _ _
    refine (recordsFrom_cut_sublist _ hkept).trans ?_
    rw [cut_eq_self fun log _ => le_max_right _ _]
  have hlast : s.db.lastSequence ≤ s.latest := Nat.le_add_right _ _
  have hbounded := h.bounded
  refine ⟨seen, records, next, last, flushed, hw.descriptorLog, ⟨hw.described, h.intact.good.version.congr h.files
    hcontents, ?_, ?_, hw.numbers, ?_, ?_, hw.logNumber, h.logged.prevLogNumber, hsorted, hpositive, hsynced, ?_, ?_, ?_,
    ?_, ?_⟩, h.follow_crash hallows o hjournal⟩
  · exact fun y hy => h.intact.parses y (Or.inr ((hin y).1 hy))
  · intro level f hf
    rw [h.files] at hf
    rw [hcontents level f hf]
    exact h.intact.largest level f hf
  · rw [h.files]
    exact hw.placed.lowest
  · intro n hn
    rw [fileNumbers_congr h.files] at hn
    exact List.mem_append_left _ (h.tables n hn)
  · exact (h.recent.sublist hsub).mono (by omega)
  · have := hw.sequence
    omega
  · exact fun y hy => hw.tables y ((hin y).1 hy)
  · rw [hset]
    exact fun w hw r hr => h.newer w hw r (hsub.subset hr)
  · rw [hset]
    exact hshows

/-- **`Open`** after a crash. -/
theorem Durable.openDB (h : s.Durable journal) (env : Environment α) (hallows : s.Allows c)
    (hexists : o.options.errorIfExists = false) (hname : o.comparatorName = s.versions.comparatorName) :
    ∃ s', (s.crashed c).openDB env o = .ok s' ∧
      (s.crashed c).Reopened s.versions (s.follow journal (.crash c o)) s' := by
  obtain ⟨seen, records, next, last, flushed, hlog, hrecoverable, hfollow⟩ := h.crashed hallows o
  have hrecover : (s.crashed c).recover env o =
      (s.crashed c).recoverFrom env o s.versions.manifestFileNumber records := by
    unfold Directory.recover
    have hcurrent : (s.crashed c).current = some (s.versions.manifestFileNumber, records) := by
      unfold DurableDatabase.crashed
      rw [hlog]
      rfl
    rw [hcurrent]
    exact if_neg (by simp [hexists])
  obtain ⟨s', hs', hreopened, -⟩ := hrecoverable.openDB env hname hrecover
  rw [hfollow]
  exact ⟨s', hs', hreopened⟩

/-- An option that forbids it. -/
theorem openDB_exists (env : Environment α) (s : DurableDatabase α) (c : Crash α)
    (hexists : o.options.errorIfExists = true) :
    (s.crashed c).openDB env o = .error (.invalidArgument o.dbname "exists (error_if_exists is true)") := by
  unfold Directory.openDB Directory.recover DurableDatabase.crashed
  dsimp only
  rw [if_pos hexists]
  rfl

/-- Another comparator. -/
theorem recoverLoop_other {records : List (VersionEdit α)} {name name' : String} (hne : name ≠ name')
    (hnames : ∀ edit ∈ records, LoggedVersionSet.NamesComparator name edit)
    (hnamed : ∃ edit ∈ records, edit.comparator = some name) (st : LoggedVersionSet.RecoverState α) :
    LoggedVersionSet.recoverLoop name' st records =
      .error (.invalidArgument (name ++ " does not match existing comparator ") name') := by
  induction records generalizing st with
  | nil =>
    obtain ⟨edit, hedit, -⟩ := hnamed
    cases hedit
  | cons edit records ih =>
    unfold LoggedVersionSet.recoverLoop
    cases hcomparator : edit.comparator with
    | some name₁ =>
      obtain rfl := hnames edit List.mem_cons_self name₁ hcomparator
      exact if_pos hne
    | none =>
      refine ih (fun e he => hnames e (List.mem_cons_of_mem _ he)) ?_ _
      obtain ⟨e, he, hname⟩ := hnamed
      rcases List.mem_cons.1 he with rfl | he
      · rw [hcomparator] at hname
        cases hname
      · exact ⟨e, he, hname⟩

theorem Durable.openDB_other (h : s.Durable journal) (env : Environment α) (c : Crash α)
    (hexists : o.options.errorIfExists = false) (hname : o.comparatorName ≠ s.versions.comparatorName) :
    (s.crashed c).openDB env o = .error (.versions (.invalidArgument
      (s.versions.comparatorName ++ " does not match existing comparator ") o.comparatorName)) := by
  obtain ⟨seen, records, next, last, hw⟩ := h.written
  have hloop := fun st => recoverLoop_other hname.symm hw.described.comparator
    hw.described.named st
  have hrecover : (s.crashed c).recover env o = .error (.versions (.invalidArgument
      (s.versions.comparatorName ++ " does not match existing comparator ") o.comparatorName)) := by
    unfold Directory.recover DurableDatabase.crashed
    dsimp only
    rw [hw.descriptorLog, Option.getD_some, if_neg (by simp [hexists])]
    unfold Directory.recoverFrom Directory.recoverVersions LoggedVersionSet.recover LoggedVersionSet.new
    dsimp only
    rw [hloop]
    rfl
  unfold Directory.openDB
  rw [hrecover]
  rfl

/-- **A crash**, with the `Open` after it. -/
theorem Durable.crash (h : s.Durable journal) (hstep : s.crash env c o = some s') :
    (s.crashed c).Reopened s.versions (s.follow journal (.crash c o)) s' ∧ s'.db.nextFileNumber < 2 ^ 64 := by
  unfold DurableDatabase.crash at hstep
  split at hstep
  · rename_i hallows
    cases hexists : o.options.errorIfExists with
    | true =>
      rw [openDB_exists env s c hexists] at hstep
      cases hstep
    | false =>
      by_cases hname : o.comparatorName = s.versions.comparatorName
      · obtain ⟨s₁, hs₁, hreopened⟩ := h.openDB env hallows hexists hname
        rw [hs₁] at hstep
        dsimp only at hstep
        split at hstep
        · rename_i hlt
          cases hstep
          exact ⟨hreopened, hlt⟩
        · cases hstep
      · rw [h.openDB_other env c hexists hname] at hstep
        cases hstep
  · cases hstep

/-- **Step.** -/
theorem Durable.step (h : s.Durable journal) {event : DurableEvent α}
    (hclear : ∀ e, event = .background e → s.db.Clear e) (hstep : s.step env event = some s') :
    s'.Durable (s.follow journal event) := by
  cases event with
  | addRecord batch => exact h.addRecord hstep
  | sync => exact h.sync hstep
  | insertInto => exact h.insertInto hstep
  | switchMemTable => exact h.switchMemTable hstep
  | background event => exact h.background (hclear event rfl) hstep
  | removeObsoleteFiles live => exact h.removeObsoleteFiles hstep
  | crash c o =>
    obtain ⟨hreopened, hlt⟩ := h.crash hstep
    exact hreopened.durable hlt

theorem run_cons_some {event : DurableEvent α} {events : List (DurableEvent α)}
    {states : List (DurableDatabase α × List (LoggedBatch α))}
    (hrun : s.run env journal (event :: events) = some states) :
    ∃ s' rest, s.step env event = some s' ∧ s'.run env (s.follow journal event) events = some rest ∧
      states = (s, journal) :: rest := by
  unfold DurableDatabase.run at hrun
  obtain ⟨s', hstep, hrun⟩ := Option.bind_eq_some_iff.1 hrun
  obtain ⟨rest, hrest, hrun⟩ := Option.bind_eq_some_iff.1 hrun
  exact ⟨s', rest, hstep, hrest, (Option.some.inj hrun).symm⟩

theorem run_cons {event : DurableEvent α} (hstep : s.step env event = some s') (events : List (DurableEvent α)) :
    s.run env journal (event :: events) =
      (s'.run env (s.follow journal event) events).map fun states => (s, journal) :: states := by
  rw [DurableDatabase.run, hstep]
  show ((DurableDatabase.run env s' (s.follow journal event) events).bind fun states =>
    some ((s, journal) :: states)) = _
  exact Option.map_eq_bind.symm

/-- **Run.** -/
theorem Durable.run {events : List (DurableEvent α)} {states : List (DurableDatabase α × List (LoggedBatch α))}
    (h : s.Durable journal) (hclear : s.ClearRun env events) (hrun : s.run env journal events = some states) :
    ∀ p ∈ states, p.1.Durable p.2 := by
  induction events generalizing s journal states with
  | nil =>
    cases hrun
    intro p hp
    rw [List.mem_singleton.1 hp]
    exact h
  | cons event events ih =>
    obtain ⟨s', rest, hstep, hrest, rfl⟩ := run_cons_some hrun
    refine List.forall_mem_cons.2 ⟨h, ?_⟩
    exact ih (h.step hclear.1 hstep) (hclear.2 s' hstep) hrest

end Crash

end DurableDatabase

/-! ## A new database -/

section New
variable {env : Environment α} {o : OpenCall α} {dir : Directory α}

/-- The first descriptor. -/
theorem newDB_described (name : String) :
    (LoggedVersionSet.new name : LoggedVersionSet α).Described (fun _ _ => False) [newDB name] 2 0 where
  rebuilds := ⟨fun _ => List.Pairwise.nil, by rintro level f ⟨⟩, fun _ => (ite_self _).symm⟩
  comparator edit hedit := by
    obtain rfl := List.mem_singleton.1 hedit
    rintro name' ⟨⟩
    rfl
  named := ⟨_, List.mem_singleton.2 rfl, rfl⟩
  logNumber := rfl
  prevLogNumber := rfl
  nextFile := rfl
  lastSequence := rfl

/-- A directory without a database, and without log files. -/
theorem Directory.recoverable_new (dir : Directory α) (hlogs : dir.logs = []) (name : String) :
    dir.Recoverable (LoggedVersionSet.new name) (fun _ _ => False) [newDB name] 2 0 [] := by
  have hnone : ∀ y, ¬ dir.InTables (LoggedVersionSet.new name : LoggedVersionSet α).current y := by
    rintro y ⟨level, f, hf, -⟩
    cases hf
  have hset : versionsOf {y | dir.InTables (LoggedVersionSet.new name : LoggedVersionSet α).current y} = ∅ := by
    ext w
    constructor
    · rintro ⟨y, hy, -⟩
      exact hnone y hy
    · rintro ⟨⟩
  refine ⟨newDB_described name, ?_, fun y hy => absurd hy (hnone y), ?_, ?_, ?_, ?_, Nat.zero_lt_two, rfl, ?_, ?_, ?_,
    ?_, by decide, fun y hy => absurd hy (hnone y), ?_, ?_⟩
  · refine ⟨⟨fun _ => List.Pairwise.nil, fun _ _ => rfl⟩, fun _ _ => List.Pairwise.nil, ⟨?_, ?_⟩, ?_, ?_, ?_⟩
    · rintro level level' - f ⟨⟩
    · rintro f ⟨⟩
    · rintro level f ⟨⟩
    · rintro level level' f ⟨⟩
    · rintro level level' f ⟨⟩
  · rintro level f ⟨⟩
  · rintro level n ⟨⟩
  · rintro level n ⟨⟩
  · intro n hn
    simp [Version.fileNumbers, LoggedVersionSet.new, LoggedVersionSet.noFiles] at hn
  · rw [hlogs]
    exact List.Pairwise.nil
  · rw [hlogs]
    rintro log ⟨⟩
  · rw [hlogs]
    rintro log ⟨⟩
  · rw [hlogs]
    exact ⟨List.Pairwise.nil, by rintro r ⟨⟩⟩
  · rw [hset]
    rintro w ⟨⟩
  · rw [hset]
    exact shows_empty

/-- **`Open`** of a directory without a database. -/
theorem Directory.openDB_new {s : DurableDatabase α} (hcurrent : dir.current = none) (hlogs : dir.logs = [])
    (hopen : dir.openDB env o = .ok s) : s.Durable [] := by
  cases hcreate : o.options.createIfMissing with
  | true =>
    have hrecover : dir.recover env o = dir.recoverFrom env o 1 [newDB o.comparatorName] := by
      unfold Directory.recover
      rw [hcurrent]
      exact if_pos hcreate
    obtain ⟨s', hs', hreopened, hnext⟩ := (dir.recoverable_new hlogs o.comparatorName).openDB env rfl hrecover
    obtain rfl : s' = s := Except.ok.inj (hs'.symm.trans hopen)
    have hdurable := hreopened.durable ((hnext hlogs).trans_lt (by decide))
    rwa [hlogs] at hdurable
  | false =>
    unfold Directory.openDB Directory.recover at hopen
    rw [hcurrent] at hopen
    dsimp only at hopen
    rw [if_neg (by simp [hcreate])] at hopen
    cases hopen

end New

/-! ## All that may happen -/

namespace DurableDatabase

/-- A database that has been created with `Open`, after any steps; `journal` is what has been logged and not lost. -/
def Reached (env : Environment α) (s : DurableDatabase α) (journal : List (LoggedBatch α)) : Prop :=
  ∃ (dir : Directory α) (o : OpenCall α) (s₀ : DurableDatabase α) (events : List (DurableEvent α))
    (states : List (DurableDatabase α × List (LoggedBatch α))), dir.current = none ∧ dir.logs = [] ∧
    dir.openDB env o = .ok s₀ ∧ s₀.ClearRun env events ∧ s₀.run env [] events = some states ∧ (s, journal) ∈ states

/-- The memtables and the current version, as `Get` and the iterators have them. -/
def impl (s : DurableDatabase α) (tableCache : TableCache α) : DBImpl α where
  mem := mergeAll [s.db.mem]
  imm := s.db.imm.map fun imm => mergeAll [imm]
  current := s.db.vset.current
  lastSequence := s.db.lastSequence
  tableCache

section Reached
variable {s : DurableDatabase α} {journal : List (LoggedBatch α)} {env : Environment α} {c : Crash α} {o : OpenCall α}

theorem Reached.durable (h : Reached env s journal) : s.Durable journal := by
  obtain ⟨dir, o, s₀, events, states, hcurrent, hlogs, hopen, hclear, hrun, hs⟩ := h
  exact (Directory.openDB_new hcurrent hlogs hopen).run hclear hrun (s, journal) hs

/-- **Memtables and tables** show the map of what has been written to them. -/
theorem Durable.view_eq (h : s.Durable journal) :
    view s.db.sources.versions s.db.lastSequence = mapOf (s.applied journal) := by
  obtain ⟨older, log, front, hlogs, hnumber, hrecords, hmem, himm⟩ := h.logged.files
  obtain ⟨flushed, hjournal, hshows⟩ := h.journal
  have hrecent := h.logged.recent_split hlogs hnumber
  rw [hrecords, ← List.append_assoc] at hrecent
  have happlied : s.applied journal = flushed ++ (recordsFrom s.versions.logNumber older ++ front) := by
    unfold applied
    rw [hjournal, hrecent]
    cases s.logging with
    | none => simp
    | some r =>
      rw [if_pos Option.isSome_some, Option.toList_some, ← List.append_assoc, List.dropLast_concat]
  have hsub : (recordsFrom s.versions.logNumber older ++ front).Sublist s.recent := by
    rw [hrecent]
    exact List.sublist_append_left _ _
  have hentries : s.db.sources.versions = versionsOf {y | s.db.InTables y} ∪
      versionsOf {x | x ∈ entriesOf (recordsFrom s.versions.logNumber older ++ front)} := by
    rw [entriesOf_append, ← himm, ← hmem, ← versionsOf_union]
    exact congrArg versionsOf (Set.ext fun x => or_comm)
  have hunique := h.intact.sources_good.unique
  rw [hentries] at hunique
  have hall := shows_records hshows (hunique.mono Set.subset_union_left) (h.recent.sublist hsub)
    fun w hw r hr => h.newer w hw r (hsub.subset hr)
  rw [happlied, ← hall s.db.lastSequence fun w hw => ?_, hentries]
  rw [← hentries] at hw
  obtain ⟨x, hx, hw⟩ := hw
  rw [(stampedOf_some hw).2.1]
  rcases hx with hx | hx
  · exact (h.intact.good.memtables.bounds x hx).2
  · exact h.intact.good.memtables.tables x hx

theorem Durable.impl_reads (h : s.Durable journal) (cache : TableCache α) : (s.impl cache).Reads s.db.sources := by
  have horder := h.intact.good.memtables.order
  refine ⟨rfl, ⟨mergeAll_sorted _, ?_⟩, fun x => ?_, ?_⟩
  · intro imm himm
    obtain ⟨L, -, rfl⟩ := Option.map_eq_some_iff.1 himm
    exact mergeAll_sorted _
  · show x ∈ s.db.imm.getD [] ++ s.db.mem ↔ _
    unfold impl
    rw [List.mem_append, or_comm]
    refine or_congr (by simp [mem_mergeAll]) ?_
    cases s.db.imm with
    | none => simp
    | some imm => simp [mem_mergeAll]
  · intro imm himm x hx y hy
    obtain ⟨L, hL, rfl⟩ := Option.map_eq_some_iff.1 himm
    have hx : x ∈ L := by simpa [mem_mergeAll] using hx
    have hy : y ∈ s.db.mem := by simpa [impl, mem_mergeAll] using hy
    rw [Database.unflushed, hL, List.pairwise_append] at horder
    exact horder.2.2 x hx y hy

/-- **`Get` reads the journal.** Whatever has happened since the database was created, crashes and recoveries included,
`Get` answers with the map that the batches lead to that were logged and not lost, in order. -/
theorem get_reads_journal [Slice α] [Coding] [TableFormat] (rawOptions : Options)
    (hP : ∀ P, rawOptions.filterPolicy = some P → P.AcceptsAdded) (cache : TableCache α)
    (hcache : cache.options = sanitizeOptions rawOptions) (h : Reached env s journal)
    (hserved : s.db.sources.Served cache rawOptions.filterPolicy) (options : ReadOptions α)
    (hsnapshot : options.snapshot = none) (u : α) (value : Bytes) (metrics : Option MetricsCounters) :
    (((s.impl cache).get options u value metrics).status, ((s.impl cache).get options u value metrics).value) =
      answerOf value (mapOf (s.applied journal) u) := by
  have hdurable := h.durable
  have hsequence : (s.impl cache).snapshotOf options = s.db.lastSequence := by
    unfold DBImpl.snapshotOf
    rw [hsnapshot]
    rfl
  rw [DBImpl.get_eq_view rawOptions hP hcache hdurable.intact.sources_good (hdurable.impl_reads cache) hserved options
    u value metrics, hsequence, hdurable.view_eq]

/-- **`Open` after a crash** fails only if the database must not exist, or has another comparator. Else it comes to a
valid database without work under way, which shows the map of what was flushed, or is left in the log files. -/
theorem openDB_crashed (h : Reached env s journal) (hallows : s.Allows c) (o : OpenCall α) :
    o.options.errorIfExists = true ∧ (s.crashed c).openDB env o =
        .error (.invalidArgument o.dbname "exists (error_if_exists is true)") ∨
    o.options.errorIfExists = false ∧ o.comparatorName ≠ s.versions.comparatorName ∧ (s.crashed c).openDB env o =
        .error (.versions (.invalidArgument
          (s.versions.comparatorName ++ " does not match existing comparator ") o.comparatorName)) ∨
    o.options.errorIfExists = false ∧ o.comparatorName = s.versions.comparatorName ∧
      ∃ s', (s.crashed c).openDB env o = .ok s' ∧ s'.db.running = none ∧ s'.logging = none ∧
        (s'.db.nextFileNumber < 2 ^ 64 → s'.db.Intact ∧ s'.db.lastSequence < kMaxSequenceNumber ∧
          view s'.db.sources.versions s'.db.lastSequence = mapOf (s.follow journal (.crash c o))) := by
  cases hexists : o.options.errorIfExists with
  | true => exact Or.inl ⟨rfl, openDB_exists env s c hexists⟩
  | false =>
    by_cases hname : o.comparatorName = s.versions.comparatorName
    · obtain ⟨s', hs', hreopened⟩ := h.durable.openDB env hallows hexists hname
      refine Or.inr (Or.inr ⟨rfl, hname, s', hs', hreopened.running, hreopened.logging, fun hlt => ?_⟩)
      have hdurable := hreopened.durable hlt
      have hview := hdurable.view_eq
      have happlied : s'.applied (s.follow journal (.crash c o)) = s.follow journal (.crash c o) := by
        unfold applied
        rw [hreopened.logging]
        rfl
      rw [happlied] at hview
      exact ⟨hdurable.intact, (Nat.le_add_right _ _).trans_lt hdurable.bounded, hview⟩
    · exact Or.inr (Or.inl ⟨rfl, hname, h.durable.openDB_other env c hexists hname⟩)

end Reached

end DurableDatabase

/-! ### A write that a crash takes away -/

namespace SampleCrash

def env : Environment Bytes := SampleReader.env

/-- Log files and the descriptor are used again. -/
def opening : OpenCall Bytes where
  options := { createIfMissing := true, reuseLogs := true }
  dbOptions := {}
  tableCache := TableCache.ofOptions {} (fun _ => .error (.ioError "")) fun _ => .error (.ioError "")
  memory := { byteSize := fun _ => 0, approximateMemoryUsage := List.length, writeBufferSize := 100 }
  logAppendable := true
  manifestAppendable := true

/-- What is there if `Open` fails. -/
def blank : DurableDatabase Bytes where
  db := SampleReader.db
  versions := LoggedVersionSet.new ""
  logFileNumber := 0
  logs := []
  tables := []

/-- One record of each log file is left. -/
def crash : Crash Bytes := { kept := fun _ => 1 }

def created : DurableDatabase Bytes := (({} : Directory Bytes).openDB env opening).toOption.getD blank

/-- `a` is logged, and inserted. -/
def logged : DurableDatabase Bytes := (created.step env (.addRecord [([97], .value, [1])])).getD created

def written : DurableDatabase Bytes := (logged.step env .insertInto).getD logged

/-- `b` is logged. -/
def pending : DurableDatabase Bytes := (written.step env (.addRecord [([98], .value, [2])])).getD written

def recovered : DurableDatabase Bytes := ((pending.crashed crash).openDB env opening).toOption.getD blank

theorem eq_some_getD {β : Type} {x : Option β} {y : β} (h : x.isSome = true) : x = some (x.getD y) := by
  cases x with
  | none => cases h
  | some z => rfl

theorem eq_ok_getD {ε β : Type} {x : Except ε β} {y : β} (h : x.isOk = true) : x = .ok (x.toOption.getD y) := by
  cases x with
  | ok z => rfl
  | error e => cases h

/-- The journals. -/
def journalA : List (LoggedBatch Bytes) := created.follow [] (.addRecord [([97], .value, [1])])

def journalB : List (LoggedBatch Bytes) := written.follow journalA (.addRecord [([98], .value, [2])])

def left : List (LoggedBatch Bytes) := pending.follow journalB (.crash crash opening)

/-- The steps go through, and `a` is left. -/
theorem ran : (({} : Directory Bytes).openDB env opening).isOk = true ∧
    (created.step env (.addRecord [([97], .value, [1])])).isSome = true ∧
    (logged.step env .insertInto).isSome = true ∧
    (written.step env (.addRecord [([98], .value, [2])])).isSome = true ∧
    ((pending.crashed crash).openDB env opening).isOk = true ∧ pending.Allows crash ∧
    recovered.db.nextFileNumber < 2 ^ 64 := by
  decide +kernel

theorem recovered_shows : (∀ level < kNumLevels, (recovered.db.vset.current.files level).isEmpty = true) ∧
    opening.comparatorName = pending.versions.comparatorName ∧
    DurableDatabase.mapOf (recovered.applied left) [97] = some [1] ∧ DurableDatabase.mapOf left [97] = some [1] ∧ DurableDatabase.mapOf left [98] = none := by
  decide +kernel

theorem opened : ({} : Directory Bytes).openDB env opening = .ok created := eq_ok_getD ran.1

theorem logged_eq : created.step env (.addRecord [([97], .value, [1])]) = some logged := eq_some_getD ran.2.1

theorem written_eq : logged.step env .insertInto = some written := eq_some_getD ran.2.2.1

theorem pending_eq : written.step env (.addRecord [([98], .value, [2])]) = some pending := eq_some_getD ran.2.2.2.1

theorem reopened : (pending.crashed crash).openDB env opening = .ok recovered := eq_ok_getD ran.2.2.2.2.1

theorem allows : pending.Allows crash := ran.2.2.2.2.2.1

theorem next_lt : recovered.db.nextFileNumber < 2 ^ 64 := ran.2.2.2.2.2.2

theorem recovered_eq : pending.step env (.crash crash opening) = some recovered := by
  show pending.crash env crash opening = _
  unfold DurableDatabase.crash
  rw [if_pos allows, reopened]
  exact if_pos next_lt

/-- Steps other than those of the background thread are clear. -/
theorem clearRun {events : List (DurableEvent Bytes)} (h : ∀ event ∈ events, ∀ e, event ≠ .background e)
    (s : DurableDatabase Bytes) : s.ClearRun env events := by
  induction events generalizing s with
  | nil => trivial
  | cons event events ih =>
    exact ⟨fun e he => absurd he (h event List.mem_cons_self e),
      fun s' _ => ih (fun event' he => h event' (List.mem_cons_of_mem _ he)) s'⟩

theorem reached_pending : DurableDatabase.Reached env pending journalB := by
  refine ⟨{}, opening, created, [.addRecord [([97], .value, [1])], .insertInto, .addRecord [([98], .value, [2])]],
    [(created, []), (logged, journalA), (written, journalA), (pending, journalB)], rfl, rfl, opened,
    clearRun (by simp) _, ?_, by simp⟩
  rw [DurableDatabase.run_cons logged_eq, DurableDatabase.run_cons written_eq, DurableDatabase.run_cons pending_eq]
  rfl

theorem reached_recovered : DurableDatabase.Reached env recovered left := by
  refine ⟨{}, opening, created,
    [.addRecord [([97], .value, [1])], .insertInto, .addRecord [([98], .value, [2])], .crash crash opening],
    [(created, []), (logged, journalA), (written, journalA), (pending, journalB), (recovered, left)], rfl, rfl, opened,
    clearRun (by simp) _, ?_, by simp⟩
  rw [DurableDatabase.run_cons logged_eq, DurableDatabase.run_cons written_eq, DurableDatabase.run_cons pending_eq,
    DurableDatabase.run_cons recovered_eq]
  rfl

theorem no_files (level : Nat) : recovered.db.vset.current.files level = [] := by
  by_cases hl : level < kNumLevels
  · exact List.isEmpty_iff.1 (recovered_shows.1 level hl)
  · exact reached_recovered.durable.intact.good.version.filed.none_beyond level (not_lt.1 hl)

end SampleCrash

theorem DurableDatabase.get_reads_journal_sample :
    letI := littleEndian
    letI := smallHandles
    (((SampleCrash.recovered.impl SampleCrash.opening.tableCache).get {} [97] [] none).status,
      ((SampleCrash.recovered.impl SampleCrash.opening.tableCache).get {} [97] [] none).value) = (.ok, [1]) := by
  let _ := littleEndian
  let _ := smallHandles
  have hserved : SampleCrash.recovered.db.sources.Served SampleCrash.opening.tableCache ({} : Options).filterPolicy := by
    refine ⟨fun level f hf => ?_, fun level f hf => ?_, fun level f hf => ?_⟩ <;>
      exact absurd (SampleCrash.no_files level ▸ hf) List.not_mem_nil
  rw [DurableDatabase.get_reads_journal {} (by rintro P ⟨⟩) _ rfl SampleCrash.reached_recovered hserved {} rfl,
    SampleCrash.recovered_shows.2.2.1]
  rfl

theorem DurableDatabase.openDB_crashed_sample :
    view SampleCrash.recovered.db.sources.versions SampleCrash.recovered.db.lastSequence [97] = some [1] ∧
      view SampleCrash.recovered.db.sources.versions SampleCrash.recovered.db.lastSequence [98] = none := by
  rcases DurableDatabase.openDB_crashed SampleCrash.reached_pending SampleCrash.allows SampleCrash.opening with
    ⟨hexists, -⟩ | ⟨-, hname, -⟩ | ⟨-, -, s', hs', -, -, hview⟩
  · cases hexists
  · exact absurd SampleCrash.recovered_shows.2.1 hname
  · obtain rfl : SampleCrash.recovered = s' := Except.ok.inj (SampleCrash.reopened.symm.trans hs')
    rw [(hview SampleCrash.next_lt).2.2]
    exact SampleCrash.recovered_shows.2.2.2

end LevelDbSurf
