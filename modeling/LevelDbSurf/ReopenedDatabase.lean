import LevelDbSurf.DurableWork

/-!
# Open a database again

What a crash leaves behind is `Recoverable`, and so is the descriptor of a new database. `Recover` rebuilds the version
from the descriptor and puts what is in the log files into new tables and a memtable (`Recoverable.recoverFrom`); then
`Open` writes an edit for these, or goes on with the log file and the descriptor there are. Either way the database it
opens is `Durable`, with the same journal (`Recoverable.openDB`).
-/

namespace LevelDbSurf

open Cursors Versions Recovering DurableDatabase

variable {α : Type} [LinearOrder α]

namespace Directory

/-- The entry is in a table of the version. -/
def InTables (dir : Directory α) (v : Version α) (y : InternalKey α × Bytes) : Prop :=
  ∃ level, ∃ f ∈ v.files level, y ∈ dir.contents f.number

/-- The descriptor describes `vset`, whose tables show what `flushed` has written; the rest is in the log files. -/
structure Recoverable (dir : Directory α) (vset : LoggedVersionSet α) (seen : Nat → UInt64 → Prop)
    (records : List (VersionEdit α)) (next : UInt64) (last : Nat) (flushed : List (LoggedBatch α)) : Prop where
  described : vset.Described seen records next last
  valid : ValidVersion dir.contents vset.current
  parses : ∀ y, dir.InTables vset.current y → (parseInternalKey y.1).isSome
  largest : ∀ level, ∀ f ∈ vset.current.files level, ∃ x ∈ dir.contents f.number, x.1 = f.largest
  numbers : ∀ level n, seen level n → n.toNat < next.toNat
  lowest : ∀ level n, seen level n → ∀ level', ∀ f ∈ vset.current.files level', f.number = n → level ≤ level'
  tables : ∀ n ∈ vset.current.fileNumbers, n ∈ dir.tables
  logNumber : vset.logNumber.toNat < next.toNat
  prevLogNumber : vset.prevLogNumber = 0
  sorted : dir.logs.Pairwise fun a b => a.number < b.number
  positive : ∀ log ∈ dir.logs, 0 < log.number
  synced : ∀ log ∈ dir.logs, log.synced ≤ log.records.length
  inOrder : InOrder (recordsFrom vset.logNumber dir.logs) (kMaxSequenceNumber - 1)
  sequence : last < kMaxSequenceNumber
  older : ∀ y, dir.InTables vset.current y → y.1.sequence ≤ last
  newer : ∀ w ∈ versionsOf {y | dir.InTables vset.current y}, ∀ r ∈ recordsFrom vset.logNumber dir.logs,
    w.stamp < r.sequence
  shows : Shows (versionsOf {y | dir.InTables vset.current y}) (mapOf flushed)

/-- What `Recover` comes to. -/
structure Recovered (dir : Directory α) (vset : LoggedVersionSet α) (records : List (VersionEdit α)) (next : UInt64)
    (last : Nat) (b : Base α) (vset' : LoggedVersionSet α) (st : Recovering α) : Prop where
  version : b.version = vset'.current
  contents : b.contents = dir.contents
  tables : b.tables = dir.tables
  nextFileNumber : b.nextFileNumber = next.toNat + 1
  files : vset'.current.files = vset.current.files
  fileToCompact : vset'.current.fileToCompact = none
  comparatorName : vset'.comparatorName = vset.comparatorName
  logNumber : vset'.logNumber = vset.logNumber
  prevLogNumber : vset'.prevLogNumber = vset.prevLogNumber
  lastSequence : vset'.lastSequence = max last st.maxSequence
  descriptorLog : vset'.descriptorLog = some records ∨ vset'.descriptorLog = none ∧ b.save = true
  next_le : b.nextFileNumber ≤ st.nextFileNumber
  logs : ∀ log ∈ dir.logs, log.number.toNat < st.nextFileNumber
  logless : dir.logs = [] → st.nextFileNumber = b.nextFileNumber
  stored : st.nextFileNumber < 2 ^ 64 → Has b kMaxSequenceNumber (recordsFrom vset.logNumber dir.logs) st
  reused : st.reused = none ∨ ∃ older log, dir.logs = older ++ [log] ∧ vset.logNumber ≤ log.number ∧
    ∃ mem, st.reused = some (log.number, mem) ∧ (st.nextFileNumber < 2 ^ 64 → mem = entriesOf log.records)

section Recover
variable {dir : Directory α} {vset vset' : LoggedVersionSet α} {seen : Nat → UInt64 → Prop}
  {records : List (VersionEdit α)} {next : UInt64} {last : Nat} {flushed : List (LoggedBatch α)} {env : Environment α}
  {o : OpenCall α} {st : Recovering α} {b : Base α}

omit [LinearOrder α] in
/-- The last log file that counts is the last one of all. -/
theorem last_of_filter {logs front : List (LogFile α)} {log : LogFile α} {number : UInt64}
    (hsorted : logs.Pairwise fun a b => a.number < b.number)
    (h : (logs.filter fun log => decide (number ≤ log.number)) = front ++ [log]) :
    (∃ older, logs = older ++ [log]) ∧ number ≤ log.number := by
  have hlog : log ∈ logs.filter fun log => decide (number ≤ log.number) := by
    rw [h]
    exact List.mem_append_right _ (List.mem_singleton.2 rfl)
  have hle : number ≤ log.number := of_decide_eq_true (List.mem_filter.1 hlog).2
  refine ⟨?_, hle⟩
  induction logs using List.reverseRecOn with
  | nil => cases hlog
  | append_singleton older last _ =>
    rw [List.filter_append, List.filter_singleton] at h
    -- if the last one did not count, none would
    have hlive : number ≤ last.number := by
      rcases List.mem_append.1 (List.mem_filter.1 hlog).1 with hmem | hmem
      · exact UInt64.le_of_lt (UInt64.lt_of_le_of_lt hle
          ((List.pairwise_append.1 hsorted).2.2 log hmem last (List.mem_singleton.2 rfl)))
      · rwa [← List.mem_singleton.1 hmem]
    rw [decide_eq_true hlive] at h
    obtain ⟨-, hlast⟩ := List.append_inj' h rfl
    obtain rfl : last = log := by simpa using hlast
    exact ⟨older, rfl⟩

/-- What there is before the log files are read. -/
def Recoverable.base (h : dir.Recoverable vset seen records next last flushed) {current : Version α}
    (hfiles : current.files = vset.current.files) (save : Bool) : Base α where
  version := current
  contents := dir.contents
  tables := dir.tables
  nextFileNumber := next.toNat + 1
  save
  valid := h.valid.congr hfiles fun _ _ _ => rfl
  used level f hf := by
    rw [hfiles] at hf
    exact (h.numbers level _ (h.described.seen_of_holds ⟨f, hf, rfl⟩)).trans (Nat.lt_succ_self _)

theorem Recoverable.base_records (h : dir.Recoverable vset seen records next last flushed) {current : Version α}
    (hfiles : current.files = vset.current.files) (save : Bool) :
    (h.base hfiles save).Records kMaxSequenceNumber (recordsFrom vset.logNumber dir.logs) where
  extends_ := by
    refine ⟨h.inOrder.entries_order, fun y hy x hx => ?_, fun x hx =>
      (h.inOrder.entries_bounds (Nat.sub_le _ _) hx).1⟩
    obtain ⟨level, f, hf, hy⟩ := hy
    have hf' : f ∈ vset.current.files level := hfiles ▸ hf
    obtain ⟨w, hw⟩ := exists_stampedOf (h.parses y ⟨level, f, hf', hy⟩)
    obtain ⟨r, hr, hx⟩ := mem_entriesOf.1 hx
    have hlt := h.newer w ⟨y, ⟨level, f, hf', hy⟩, hw⟩ r hr
    rw [(stampedOf_some hw).2.1] at hlt
    exact hlt.trans_le (Database.mem_insertInto hx).1
  bounds r hr := h.inOrder.bounds r hr
  small := by decide

/-- Nothing has been read yet. -/
theorem Base.has_nil (b : Base α) (st : Recovering α) (hcontents : st.contents = b.contents)
    (htables : st.tables = b.tables) (hnext : st.nextFileNumber = b.nextFileNumber) (hedit : st.edit = {})
    (hsave : st.saveManifest = b.save) (hmax : st.maxSequence = 0) (hreused : st.reused = none) :
    Has b kMaxSequenceNumber [] st := by
  have hnone : ∀ level, st.edit.added level = [] := by
    rw [hedit]
    exact fun _ => rfl
  refine ⟨⟨[], ?_, by simp [memory, hreused, entriesOf]⟩, by rintro r ⟨⟩, by rw [hmax]; decide⟩
  refine ⟨⟨b.version, hcontents ▸ b.valid, fun level f => ?_⟩, fun level _ => hnone level, ?_, fun f hf => ?_, ?_, ?_,
    fun x => ?_, fun f hf => ?_, ⟨fun f hf => ?_, fun n hn => htables ▸ hn⟩, hnext.ge, fun hs => hsave.trans hs,
    fun _ => rfl⟩
  · simp [hnone]
  · rw [hnone]
    exact List.Pairwise.nil
  · rw [hnone] at hf
    cases hf
  · rw [hcontents]
    exact fun _ _ => rfl
  · rw [hedit]
    exact ⟨rfl, rfl⟩
  · simp [hnone]
  · rw [hnone] at hf
    cases hf
  · rw [hnone] at hf
    cases hf

variable (env) in
/-- **`Recover`**, from the descriptor on. -/
theorem Recoverable.recoverFrom (h : dir.Recoverable vset seen records next last flushed)
    (hname : o.comparatorName = vset.comparatorName) (number : UInt64) :
    ∃ b vset' st, dir.recoverFrom env o number records = .ok (vset', st) ∧
      dir.Recovered vset records next last b vset' st := by
  obtain ⟨v₁, hv₁, hfiles, hcompact, hcomparator, hlog, hprev, hnext, hlast, hdescriptor⟩ :=
    h.described.recover env.score
  -- the descriptor may be written further
  obtain ⟨v₂, save, hv₂, hfields, hdescriptor₂⟩ : ∃ v₂ save, recoverVersions env o number records = .ok (v₂, save) ∧
      (v₂.current = v₁.current ∧ v₂.comparatorName = v₁.comparatorName ∧ v₂.logNumber = v₁.logNumber ∧
        v₂.prevLogNumber = v₁.prevLogNumber ∧ v₂.nextFileNumber = v₁.nextFileNumber ∧
        v₂.lastSequence = v₁.lastSequence) ∧
      (v₂.descriptorLog = some records ∨ v₂.descriptorLog = none ∧ save = true) := by
    unfold recoverVersions
    rw [hname, hv₁]
    dsimp only
    split
    · exact ⟨_, _, rfl, ⟨rfl, rfl, rfl, rfl, rfl, rfl⟩, Or.inl rfl⟩
    · exact ⟨_, _, rfl, ⟨rfl, rfl, rfl, rfl, rfl, rfl⟩, Or.inr ⟨hdescriptor, rfl⟩⟩
  obtain ⟨hcurrent, hcomparator₂, hlog₂, hprev₂, hnext₂, hlast₂⟩ := hfields
  have hfiles₂ : v₂.current.files = vset.current.files := by rw [hcurrent, hfiles]
  have hmissing : dir.missing v₂.current = [] := by
    unfold missing
    rw [fileNumbers_congr hfiles₂]
    refine List.filter_eq_nil_iff.2 fun n hn => ?_
    simp [h.tables n hn]
  have hlive : liveLogs v₂.logNumber v₂.prevLogNumber dir.logs =
      dir.logs.filter fun log => decide (vset.logNumber ≤ log.number) := by
    rw [hlog₂, hlog, hprev₂, hprev, h.prevLogNumber, liveLogs_eq h.sorted h.positive]
  have hcounter : (v₂.nextFileNumber - 1).toNat + 1 = next.toNat + 1 := by
    rw [hnext₂, hnext, UInt64.add_sub_cancel]
  let b := h.base hfiles₂ save
  let st₀ : Recovering α :=
    { contents := dir.contents, tables := dir.tables, nextFileNumber := next.toNat + 1, saveManifest := save }
  have hstart : st₀.nextFileNumber < 2 ^ 64 → Has b kMaxSequenceNumber [] st₀ := fun _ =>
    Base.has_nil b st₀ rfl rfl rfl rfl rfl rfl rfl
  obtain ⟨st, hst, hle, hnumbers, hhas, hreused⟩ := Has.recoverLogs env o hstart rfl
    (dir.logs.filter fun log => decide (vset.logNumber ≤ log.number)) (h.base_records hfiles₂ save)
  refine ⟨b, { v₂ with lastSequence := max v₂.lastSequence st.maxSequence }, st, ?_, rfl, rfl, rfl, rfl, hfiles₂, ?_,
    ?_, ?_, ?_, ?_, hdescriptor₂, hle, fun log hlog => ?_, fun hnone => ?_, hhas, ?_⟩
  · unfold LevelDbSurf.Directory.recoverFrom
    rw [hv₂]
    dsimp only [bind, Except.bind]
    rw [hmissing, List.dedup_nil]
    dsimp only
    rw [hlive, hcounter, hst]
    rfl
  · rw [hcurrent, hcompact]
  · rw [hcomparator₂, hcomparator]
  · rw [hlog₂, hlog]
  · rw [hprev₂, hprev]
  · rw [hlast₂, hlast]
  · by_cases hcounts : vset.logNumber ≤ log.number
    · exact hnumbers log (List.mem_filter.2 ⟨hlog, decide_eq_true hcounts⟩)
    · have hlt := UInt64.lt_iff_toNat_lt.1 (UInt64.not_le.1 hcounts)
      exact ((hlt.trans h.logNumber).trans (Nat.lt_succ_self _)).trans_le hle
  · rw [hnone] at hst
    exact congrArg Recovering.nextFileNumber (Except.ok.inj hst).symm
  · rcases hreused with hnone | ⟨front, log, hsplit, -, hmem⟩
    · exact Or.inl hnone
    · obtain ⟨⟨older, hlogs⟩, hcounts⟩ := last_of_filter h.sorted hsplit
      exact Or.inr ⟨older, log, hlogs, hcounts, hmem⟩

end Recover

/-! ## `Open` -/

/-- What `Open` makes of what `Recover` comes to. -/
structure OpenedFrom (env : Environment α) (dir : Directory α) (vset : LoggedVersionSet α) (st : Recovering α)
    (s : DurableDatabase α) : Prop where
  contents : s.db.contents = st.contents
  next : s.db.nextFileNumber = if st.reused.isSome then st.nextFileNumber else st.nextFileNumber + 1
  mem : s.db.mem = st.memory
  imm : s.db.imm = none
  lastSequence : s.db.lastSequence = s.versions.lastSequence
  running : s.db.running = none
  current : s.db.vset.current = s.versions.current
  versions : s.versions =
    let vset := { vset with nextFileNumber := UInt64.ofNat s.db.nextFileNumber }
    if st.saveManifest then
      vset.logAndApply env.score { st.edit with prevLogNumber := some 0, logNumber := some s.logFileNumber }
    else vset
  logFileNumber : s.logFileNumber = (st.reused.map Prod.fst).getD (UInt64.ofNat st.nextFileNumber)
  logs : s.logs = if st.reused.isSome then dir.logs else newLogFile (UInt64.ofNat st.nextFileNumber) dir.logs
  tables : s.tables = st.tables
  logging : s.logging = none

theorem openDB_ok {env : Environment α} {o : OpenCall α} {dir : Directory α} {vset : LoggedVersionSet α}
    {st : Recovering α} (h : dir.recover env o = .ok (vset, st)) :
    ∃ s, dir.openDB env o = .ok s ∧ OpenedFrom env dir vset st s := by
  unfold openDB
  rw [h]
  cases hreused : st.reused with
  | none =>
    exact ⟨_, rfl, rfl, by simp [hreused], by simp [memory, hreused], rfl, rfl, rfl, rfl, rfl, by simp [hreused],
      by simp [hreused], rfl, rfl⟩
  | some r =>
    exact ⟨_, rfl, rfl, by simp [hreused], by simp [memory, hreused], rfl, rfl, rfl, rfl, rfl, by simp [hreused],
      by simp [hreused], rfl, rfl⟩

section Open
variable {dir : Directory α} {vset vset' : LoggedVersionSet α} {seen : Nat → UInt64 → Prop}
  {records : List (VersionEdit α)} {next : UInt64} {last : Nat} {flushed : List (LoggedBatch α)} {env : Environment α}
  {st : Recovering α} {b : Base α} {s : DurableDatabase α} {L : List (InternalKey α × Bytes)}

theorem OpenedFrom.next_le (h : OpenedFrom env dir vset st s) : st.nextFileNumber ≤ s.db.nextFileNumber := by
  rw [h.next]
  split
  · exact le_refl _
  · exact Nat.le_succ _

/-- The log number, and the previous one. -/
theorem OpenedFrom.logNumbers (h : OpenedFrom env dir vset st s) :
    s.versions.logNumber = (if st.saveManifest then s.logFileNumber else vset.logNumber) ∧
      (vset.prevLogNumber = 0 → s.versions.prevLogNumber = 0) := by
  rw [h.versions]
  dsimp only
  split
  · exact ⟨rfl, fun _ => rfl⟩
  · exact ⟨rfl, fun hprev => hprev⟩

/-- The records of log files that are not written to any more; `moved` are in new tables. -/
theorem OpenedFrom.moved (h : OpenedFrom env dir vset st s) (logs : List (LogFile α))
    (hlt : ∀ log ∈ logs, log.number < s.logFileNumber) (hL : entriesOf (recordsFrom vset.logNumber logs) = L)
    (hunsaved : st.saveManifest = false → L = []) :
    ∃ moved, recordsFrom vset.logNumber logs = moved ++ recordsFrom s.versions.logNumber logs ∧
      entriesOf moved = L ∧ entriesOf (recordsFrom s.versions.logNumber logs) = [] := by
  rw [h.logNumbers.1]
  split
  · have hnil := recordsFrom_eq_nil hlt
    exact ⟨_, by rw [hnil, List.append_nil], hL, by rw [hnil]; rfl⟩
  · rename_i hsave
    have hnone := hunsaved (by simpa using hsave)
    exact ⟨[], rfl, hnone.symm, hL.trans hnone⟩

/-- The log files after `Open`; `moved` are the records that are in new tables. -/
theorem Recovered.logged (hrec : dir.Recovered vset records next last b vset' st)
    (h : dir.Recoverable vset seen records next last flushed) (hopen : OpenedFrom env dir vset' st s)
    (hlt : st.nextFileNumber < 2 ^ 64)
    (hsplit : entriesOf (recordsFrom vset.logNumber dir.logs) = L ++ st.memory)
    (hunsaved : st.saveManifest = false → L = []) :
    s.Logged ∧ s.logFileNumber.toNat < s.db.nextFileNumber ∧ vset.logNumber ≤ s.versions.logNumber ∧
      ∃ moved, recordsFrom vset.logNumber dir.logs = moved ++ s.recent ∧ entriesOf moved = L := by
  obtain ⟨hlogNumber, hprev⟩ := hopen.logNumbers
  rw [hrec.logNumber] at hlogNumber
  have hprev := hprev (hrec.prevLogNumber.trans h.prevLogNumber)
  have hnumbers : (vset.logNumber ≤ s.logFileNumber → vset.logNumber ≤ s.versions.logNumber) ∧
      (vset.logNumber ≤ s.logFileNumber → s.versions.logNumber ≤ s.logFileNumber) := by
    rw [hlogNumber]
    split
    · exact ⟨id, fun _ => UInt64.le_refl _⟩
    · exact ⟨fun _ => UInt64.le_refl _, id⟩
  rcases hrec.reused with hnone | ⟨older, log, hlogs, hcounts, mem, hreused, heq⟩
  · -- a new log file
    have hnew : (UInt64.ofNat st.nextFileNumber).toNat = st.nextFileNumber := UInt64.toNat_ofNat_of_lt' hlt
    have hltn : ∀ log ∈ dir.logs, log.number < UInt64.ofNat st.nextFileNumber := by
      intro log hlog
      rw [UInt64.lt_iff_toNat_lt, hnew]
      exact hrec.logs log hlog
    have hfile : s.logFileNumber = UInt64.ofNat st.nextFileNumber := by rw [hopen.logFileNumber, hnone]; rfl
    have hlogs : s.logs = dir.logs ++ [{ number := UInt64.ofNat st.nextFileNumber }] := by
      rw [hopen.logs, hnone]
      exact newLogFile_eq hltn
    have hnext : s.db.nextFileNumber = st.nextFileNumber + 1 := by rw [hopen.next, hnone]; rfl
    have hmemory : st.memory = [] := by simp [memory, hnone]
    rw [hmemory, List.append_nil] at hsplit
    have hle : vset.logNumber ≤ s.logFileNumber := by
      rw [hfile, UInt64.le_iff_toNat_le, hnew]
      have hnextFile := hrec.nextFileNumber ▸ hrec.next_le
      have := h.logNumber
      omega
    obtain ⟨moved, hmoved, hentries, hempty⟩ := hopen.moved _ (by rw [hfile]; exact hltn)
      (by rw [hrec.logNumber]; exact hsplit) hunsaved
    rw [hrec.logNumber] at hmoved
    have hlogged : s.Logged := by
      refine ⟨?_, fun a ha => ?_, fun a ha => ?_, ⟨_, _, [], hlogs, hfile.symm, ?_, ?_, ?_⟩, hnumbers.2 hle,
        hprev⟩
      · rw [hlogs, List.pairwise_append]
        refine ⟨h.sorted, List.pairwise_singleton _ _, fun a ha b hb => ?_⟩
        rw [List.mem_singleton.1 hb]
        exact hltn a ha
      · rw [hlogs, List.mem_append, List.mem_singleton] at ha
        rw [hnext]
        rcases ha with ha | rfl
        · exact ⟨h.positive a ha, (hrec.logs a ha).trans (Nat.lt_succ_self _)⟩
        · refine ⟨?_, by rw [hnew]; exact Nat.lt_succ_self _⟩
          rw [UInt64.lt_iff_toNat_lt, hnew]
          have hnextFile := hrec.nextFileNumber ▸ hrec.next_le
          exact (Nat.succ_pos _).trans_le hnextFile
      · rw [hlogs, List.mem_append, List.mem_singleton] at ha
        rcases ha with ha | rfl
        · exact h.synced a ha
        · exact le_refl _
      · rw [hopen.logging]
        rfl
      · rw [hopen.mem, hmemory]
        rfl
      · rw [hopen.imm, hempty]
        rfl
    refine ⟨hlogged, ?_, hnumbers.1 hle, moved, ?_, hentries⟩
    · rw [hfile, hnew, hnext]
      exact Nat.lt_succ_self _
    · rw [hlogged.recent_split hlogs hfile.symm, List.append_nil]
      exact hmoved
  · -- the last log file goes on
    have hmem := heq hlt
    have hfile : s.logFileNumber = log.number := by rw [hopen.logFileNumber, hreused]; rfl
    have hlogs' : s.logs = older ++ [log] := by rw [hopen.logs, hreused, ← hlogs]; rfl
    have hnext : s.db.nextFileNumber = st.nextFileNumber := by rw [hopen.next, hreused]; rfl
    have hmemory : st.memory = entriesOf log.records := by simp [memory, hreused, hmem]
    have hsorted := h.sorted
    rw [hlogs] at hsorted
    have hrecent : recordsFrom vset.logNumber dir.logs = recordsFrom vset.logNumber older ++ log.records := by
      rw [hlogs, recordsFrom_append, recordsFrom_singleton hcounts]
    rw [hrecent, entriesOf_append, hmemory] at hsplit
    have hL := List.append_cancel_right hsplit
    obtain ⟨moved, hmoved, hentries, hempty⟩ := hopen.moved older
      (fun a ha => by rw [hfile]; exact (List.pairwise_append.1 hsorted).2.2 a ha log (List.mem_singleton.2 rfl))
      (by rw [hrec.logNumber]; exact hL) hunsaved
    rw [hrec.logNumber] at hmoved
    have hlogged : s.Logged := by
      refine ⟨?_, fun a ha => ?_, fun a ha => ?_, ⟨older, log, log.records, hlogs', hfile.symm, ?_, ?_, ?_⟩,
        hnumbers.2 (hfile ▸ hcounts), hprev⟩
      · rw [hlogs', ← hlogs]
        exact h.sorted
      · rw [hlogs', ← hlogs] at ha
        rw [hnext]
        exact ⟨h.positive a ha, hrec.logs a ha⟩
      · rw [hlogs', ← hlogs] at ha
        exact h.synced a ha
      · rw [hopen.logging]
        exact (List.append_nil _).symm
      · rw [hopen.mem, hmemory]
      · rw [hopen.imm, hempty]
        rfl
    refine ⟨hlogged, ?_, hnumbers.1 (hfile ▸ hcounts), moved, ?_, hentries⟩
    · rw [hfile, hnext]
      exact hrec.logs log (by rw [hlogs]; exact List.mem_append_right _ (List.mem_singleton.2 rfl))
    · rw [hlogged.recent_split hlogs' hfile.symm, hrecent, hmoved, List.append_assoc]

/-- The files after `Open`. -/
theorem Recovered.current_files (hrec : dir.Recovered vset records next last b vset' st)
    (hopen : OpenedFrom env dir vset' st s) (hsound : st.Sound b L) {w : Version α}
    (hw : ValidVersion st.contents w)
    (hmem : ∀ level f, f ∈ w.files level ↔ (level = 0 ∧ f ∈ st.edit.added 0) ∨ f ∈ b.version.files level) :
    s.versions.current.files = w.files := by
  have hfiles : vset'.current.files = b.version.files := by rw [hrec.version]
  rw [hopen.versions]
  dsimp only
  split
  · exact (finalize_files _ _).trans (hsound.applied hfiles hw hmem)
  · rename_i hsave
    have hnone := hsound.added_of_unsaved (by simpa using hsave)
    show vset'.current.files = w.files
    rw [hfiles]
    funext level
    refine (b.valid.filed.filed level).ext (hw.filed.filed level) fun f => ?_
    rw [hmem, hnone]
    simp

theorem OpenedFrom.lastSequence_eq (h : OpenedFrom env dir vset st s) : s.db.lastSequence = vset.lastSequence := by
  rw [h.lastSequence, h.versions]
  dsimp only
  split <;> rfl

theorem OpenedFrom.fileToCompact (h : OpenedFrom env dir vset st s) (hnone : vset.current.fileToCompact = none) :
    s.db.vset.current.fileToCompact = none := by
  rw [h.current, h.versions]
  dsimp only
  split
  · rfl
  · exact hnone

theorem Recovered.base_inTables (hrec : dir.Recovered vset records next last b vset' st)
    (y : InternalKey α × Bytes) : b.InTables y ↔ dir.InTables vset.current y := by
  unfold Base.InTables InTables
  rw [hrec.version, hrec.files, hrec.contents]

/-- What is in tables after `Open`. -/
theorem Recovered.inTables (hrec : dir.Recovered vset records next last b vset' st)
    (hopen : OpenedFrom env dir vset' st s) (hsound : st.Sound b L) {w : Version α}
    (hw : ValidVersion st.contents w)
    (hmem : ∀ level f, f ∈ w.files level ↔ (level = 0 ∧ f ∈ st.edit.added 0) ∨ f ∈ b.version.files level)
    (y : InternalKey α × Bytes) : s.db.InTables y ↔ y ∈ L ∨ dir.InTables vset.current y := by
  rw [← hrec.base_inTables, ← hsound.inTables hmem y]
  unfold Database.InTables
  rw [hopen.current, hrec.current_files hopen hsound hw hmem, hopen.contents]

/-- Sequence numbers of records that have been read. -/
theorem Recovered.bounds (h : dir.Recoverable vset seen records next last flushed)
    (hhas : st.Has b kMaxSequenceNumber (recordsFrom vset.logNumber dir.logs)) {x : InternalKey α × Bytes}
    (hx : x ∈ entriesOf (recordsFrom vset.logNumber dir.logs)) :
    x.1.InFormat ∧ x.1.sequence ≤ st.maxSequence := by
  refine ⟨(h.inOrder.entries_bounds (Nat.sub_le _ _) hx).1, ?_⟩
  obtain ⟨r, hr, hx⟩ := mem_entriesOf.1 hx
  have hx := (Database.mem_insertInto hx).2.1
  have hr := hhas.sequences r hr
  omega

/-- **The database that is opened.** -/
theorem Recovered.intact (hrec : dir.Recovered vset records next last b vset' st)
    (h : dir.Recoverable vset seen records next last flushed) (hopen : OpenedFrom env dir vset' st s)
    (hlt : s.db.nextFileNumber < 2 ^ 64)
    (hhas : st.Has b kMaxSequenceNumber (recordsFrom vset.logNumber dir.logs)) (hsound : st.Sound b L)
    (hsplit : entriesOf (recordsFrom vset.logNumber dir.logs) = L ++ st.memory) {w : Version α}
    (hw : ValidVersion st.contents w)
    (hmem : ∀ level f, f ∈ w.files level ↔ (level = 0 ∧ f ∈ st.edit.added 0) ∨ f ∈ b.version.files level) :
    s.db.Intact := by
  have hcurrent : s.db.vset.current.files = w.files := by
    rw [hopen.current]
    exact hrec.current_files hopen hsound hw hmem
  have hin := hrec.inTables hopen hsound hw hmem
  have hunflushed : s.db.unflushed = st.memory := by
    rw [Database.unflushed, hopen.imm, hopen.mem]
    rfl
  have hlast : s.db.lastSequence = max last st.maxSequence := by
    rw [hopen.lastSequence_eq, hrec.lastSequence]
  have hrecord : ∀ {x}, x ∈ L ∨ x ∈ st.memory → x ∈ entriesOf (recordsFrom vset.logNumber dir.logs) := by
    intro x hx
    rw [hsplit]
    exact List.mem_append.2 hx
  have horder := h.inOrder.entries_order
  rw [hsplit, List.pairwise_append] at horder
  have hextends := (h.base_records (rfl : vset.current.files = _) true).extends_
  have hnorun : ∀ r, s.db.running ≠ some r := by
    intro r hr
    rw [hopen.running] at hr
    cases hr
  refine ⟨⟨hw.congr hcurrent fun _ _ _ => by rw [hopen.contents], ?_, ⟨?_, ?_, ?_, ?_, ?_⟩, ⟨hlt, ?_⟩,
    fun r hr => absurd hr (hnorun r)⟩, ?_, ?_, fun r hr => absurd hr (hnorun r)⟩
  · intro f hf
    rw [hopen.fileToCompact hrec.fileToCompact] at hf
    cases hf
  · rw [hunflushed]
    exact horder.2.1
  · intro x hx
    rw [hunflushed] at hx
    obtain ⟨hformat, hle⟩ := Recovered.bounds h hhas (hrecord (Or.inr hx))
    exact ⟨hformat, hlast ▸ hle.trans (le_max_right _ _)⟩
  · intro y hy
    rw [hlast]
    rcases (hin y).1 hy with hy | hy
    · exact (Recovered.bounds h hhas (hrecord (Or.inl hy))).2.trans (le_max_right _ _)
    · exact (h.older y hy).trans (le_max_left _ _)
  · intro y hy x hx
    rw [hunflushed] at hx
    rcases (hin y).1 hy with hy | hy
    · exact horder.2.2 y hy x hx
    · exact hextends.newer y hy x (hrecord (Or.inr hx))
  · rw [hlast]
    exact max_le h.sequence.le hhas.bounded.le
  · intro level f hf
    rw [hcurrent, hmem] at hf
    refine lt_of_lt_of_le ?_ hopen.next_le
    rcases hf with ⟨-, hf⟩ | hf
    · exact (hsound.numbers f hf).2
    · exact (b.used level f hf).trans_le hsound.next
  · rintro x (hx | hx)
    · have hx' : x ∈ s.db.unflushed := hx
      rw [hunflushed] at hx'
      exact parses_entriesOf (hrecord (Or.inr hx'))
    · rcases (hin x).1 hx with hx | hx
      · exact parses_entriesOf (hrecord (Or.inl hx))
      · exact h.parses x hx
  · intro level f hf
    rw [hcurrent, hmem] at hf
    rw [hopen.contents]
    rcases hf with ⟨-, hf⟩ | hf
    · exact hsound.largest f hf
    · rw [hsound.contents _ (b.used level f hf), hrec.contents]
      rw [hrec.version, hrec.files] at hf
      exact h.largest level f hf

/-- The places of tables after `Open`, for the edit that it has logged. -/
theorem Recovered.placed (hrec : dir.Recovered vset records next last b vset' st)
    (h : dir.Recoverable vset seen records next last flushed) (hopen : OpenedFrom env dir vset' st s)
    (hsound : st.Sound b L) {w : Version α} (hw : ValidVersion st.contents w)
    (hmem : ∀ level f, f ∈ w.files level ↔ (level = 0 ∧ f ∈ st.edit.added 0) ∨ f ∈ b.version.files level)
    {seen' : Nat → UInt64 → Prop} (hseen' : ∀ level n, seen' level n → seen level n) :
    s.db.Placed fun level n => seen' level n ∨ ∃ f ∈ st.edit.added level, f.number = n := by
  have hold : ∀ level n, seen' level n → n.toNat < b.nextFileNumber := by
    intro level n hs
    rw [hrec.nextFileNumber]
    exact (h.numbers level n (hseen' level n hs)).trans (Nat.lt_succ_self _)
  have hadded : ∀ {level f}, f ∈ st.edit.added level → level = 0 ∧ f ∈ st.edit.added 0 := by
    intro level f hf
    by_cases hl : level = 0
    · exact ⟨hl, hl ▸ hf⟩
    · rw [hsound.added level hl] at hf
      cases hf
  have hnext : b.nextFileNumber ≤ s.db.nextFileNumber := hsound.next.trans hopen.next_le
  refine ⟨?_, ?_, fun r hr => ?_⟩
  · rintro level n (hs | ⟨f, hf, rfl⟩)
    · exact (hold level n hs).trans_le hnext
    · exact (hsound.numbers f (hadded hf).2).2.trans_le hopen.next_le
  · rintro level n (hs | ⟨g, hg, rfl⟩) level' f hf hn
    · rw [hopen.current, hrec.current_files hopen hsound hw hmem, hmem] at hf
      rcases hf with ⟨-, hf⟩ | hf
      · have hlt := hold level n hs
        rw [← hn] at hlt
        exact absurd hlt (not_lt.2 (hsound.numbers f hf).1)
      · rw [hrec.version, hrec.files] at hf
        exact h.lowest level n (hseen' level n hs) level' f hf hn
    · rw [(hadded hg).1]
      exact Nat.zero_le _
  · rw [hopen.running] at hr
    cases hr

/-- **The descriptor** after `Open`. -/
theorem Recovered.written (hrec : dir.Recovered vset records next last b vset' st)
    (h : dir.Recoverable vset seen records next last flushed) (hopen : OpenedFrom env dir vset' st s)
    (hintact : s.db.Intact) (hsound : st.Sound b L) {w : Version α} (hw : ValidVersion st.contents w)
    (hmem : ∀ level f, f ∈ w.files level ↔ (level = 0 ∧ f ∈ st.edit.added 0) ∨ f ∈ b.version.files level)
    (hfile : s.logFileNumber.toNat < s.db.nextFileNumber) :
    ∃ seen' records' next' last', s.Written seen' records' next' last' := by
  have hplaced := fun (seen' : Nat → UInt64 → Prop) (hseen' : ∀ level n, seen' level n → seen level n) =>
    hrec.placed h hopen hsound hw hmem hseen'
  have hlast : s.db.lastSequence = vset'.lastSequence := hopen.lastSequence_eq
  have hlogNumber := hopen.logNumbers.1
  have hversions := hopen.versions
  have hnext : next.toNat < s.db.nextFileNumber := by
    have hle := hsound.next.trans hopen.next_le
    rw [hrec.nextFileNumber] at hle
    exact hle
  cases hsave : st.saveManifest with
  | true =>
    rw [hsave, if_pos rfl] at hlogNumber hversions
    -- an edit has been logged
    have hcounter : (UInt64.ofNat s.db.nextFileNumber).toNat = s.db.nextFileNumber :=
      UInt64.toNat_ofNat_of_lt' hintact.good.numbers.lt
    have hfits := hsound.fits seen fun level n hs => by
      rw [hrec.nextFileNumber]
      exact (h.numbers level n hs).trans (Nat.lt_succ_self _)
    have hfits' : ∀ seen' : Nat → UInt64 → Prop, (∀ level n, seen' level n → seen level n) →
        ({ st.edit with prevLogNumber := some 0, logNumber := some s.logFileNumber } : VersionEdit α).Fits seen' :=
      fun seen' hseen' => ⟨fun level f hf hs => hfits.fresh level f hf (hseen' level _ hs), hfits.once⟩
    have hfinish : ∀ {seen' : Nat → UInt64 → Prop} {records'}, (∀ level n, seen' level n → seen level n) →
        s.versions.descriptorLog = some records' →
        s.versions.Described (fun level n => seen' level n ∨ ∃ f ∈ st.edit.added level, f.number = n) records'
          (UInt64.ofNat s.db.nextFileNumber) vset'.lastSequence →
        ∃ seen' records' next' last', s.Written seen' records' next' last' := by
      intro seen' records' hseen' hlog hdescribed
      have hp := hplaced seen' hseen'
      exact ⟨_, _, _, _, hlog, hdescribed, hp, hcounter.le, fun level n hs => (hp.lt level n hs).trans_eq hcounter.symm,
        by rw [hlogNumber, hcounter]; exact hfile, hlast.ge,
        fun y hy => (hintact.good.memtables.tables y hy).trans_eq hlast⟩
    have hname : ∀ name, LoggedVersionSet.NamesComparator name
        ({ st.edit with prevLogNumber := some 0, logNumber := some s.logFileNumber } : VersionEdit α) := by
      intro name name' hname
      have hnone : st.edit.comparator = none := hsound.edit.2
      rw [show VersionEdit.comparator _ = st.edit.comparator from rfl, hnone] at hname
      cases hname
    rcases hrec.descriptorLog with hlog | ⟨hlog, -⟩
    · have hdescribed : LoggedVersionSet.Described
          { vset' with nextFileNumber := UInt64.ofNat s.db.nextFileNumber } seen records next last :=
        h.described.congr hrec.comparatorName hrec.files hrec.logNumber hrec.prevLogNumber
      obtain ⟨hlog', hdescribed'⟩ := hdescribed.logAndApply hlog env.score (hfits' _ fun _ _ hs => hs) (hname _)
      rw [← hversions] at hlog' hdescribed'
      exact hfinish (fun _ _ hs => hs) hlog' hdescribed'
    · have hseen : ∀ level n, vset'.current.Holds level n → seen level n := by
        rintro level n ⟨f, hf, hn⟩
        rw [hrec.files] at hf
        exact h.described.seen_of_holds ⟨f, hf, hn⟩
      obtain ⟨records', hlog', hdescribed'⟩ := LoggedVersionSet.described_start
        (show LoggedVersionSet.descriptorLog { vset' with nextFileNumber := UInt64.ofNat s.db.nextFileNumber } = none
          from hlog) (hrec.version ▸ b.valid.filed) env.score (hfits' _ hseen) (hname _)
      rw [← hversions] at hlog' hdescribed'
      exact hfinish hseen hlog' hdescribed'
  | false =>
    rw [hsave, if_neg (by simp)] at hlogNumber hversions
    have hnone := hsound.added_of_unsaved hsave
    have hlog : vset'.descriptorLog = some records := by
      rcases hrec.descriptorLog with hlog | ⟨-, hb⟩
      · exact hlog
      · rw [hsound.saved hb] at hsave
        cases hsave
    have hdescribed : s.versions.Described seen records next last := by
      rw [hversions]
      exact h.described.congr hrec.comparatorName hrec.files hrec.logNumber hrec.prevLogNumber
    have hp := hplaced seen fun _ _ hs => hs
    refine ⟨seen, records, next, last, by rw [hversions]; exact hlog, hdescribed,
      ⟨fun level n hs => hp.lt level n (Or.inl hs), fun level n hs => hp.lowest level n (Or.inl hs),
        fun r hr n hn level hs => hp.running r hr n hn level (Or.inl hs)⟩, hnext.le, h.numbers, ?_, ?_, fun y hy => ?_⟩
    · rw [hlogNumber, hrec.logNumber]
      exact h.logNumber
    · rw [hlast, hrec.lastSequence]
      exact le_max_left _ _
    · rcases (hrec.inTables hopen hsound hw hmem y).1 hy with hy | hy
      · rw [hsound.unsaved hsave] at hy
        cases hy
      · exact h.older y hy

/-- **The invariant** after `Open`. -/
theorem Recovered.durable (hrec : dir.Recovered vset records next last b vset' st)
    (h : dir.Recoverable vset seen records next last flushed) (hopen : OpenedFrom env dir vset' st s)
    (hlt : s.db.nextFileNumber < 2 ^ 64) :
    s.Durable (flushed ++ recordsFrom vset.logNumber dir.logs) ∧ vset.logNumber ≤ s.versions.logNumber := by
  have hlt' := hopen.next_le.trans_lt hlt
  have hhas := hrec.stored hlt'
  obtain ⟨L, hsound, hsplit⟩ := hhas.stored
  obtain ⟨w, hw, hmem⟩ := hsound.version
  have hintact := hrec.intact h hopen hlt hhas hsound hsplit hw hmem
  obtain ⟨hlogged, hfile, hle, moved, hmoved, hentries⟩ := hrec.logged h hopen hlt' hsplit hsound.unsaved
  have hin := hrec.inTables hopen hsound hw hmem
  have hlast : s.db.lastSequence = max last st.maxSequence := by
    rw [hopen.lastSequence_eq, hrec.lastSequence]
  have hlatest : s.latest = max last st.maxSequence := by
    rw [latest, hopen.logging, hlast]
    rfl
  have horder := h.inOrder
  rw [hmoved] at horder
  have hset : versionsOf {y | s.db.InTables y} =
      versionsOf {y | dir.InTables vset.current y} ∪ versionsOf {y | y ∈ entriesOf moved} := by
    rw [← versionsOf_union, hentries]
    exact congrArg versionsOf (Set.ext fun y => (hin y).trans or_comm)
  have hnewer : ∀ w ∈ versionsOf {y | dir.InTables vset.current y}, ∀ r ∈ moved ++ s.recent, w.stamp < r.sequence := by
    rw [← hmoved]
    exact h.newer
  have hunique : StampsUnique (versionsOf {y | s.db.InTables y}) := by
    refine hintact.sources_good.unique.mono ?_
    rintro w ⟨y, hy, hw⟩
    exact ⟨y, Or.inr hy, hw⟩
  refine ⟨⟨hintact, ?_, by rw [hopen.current], hrec.written h hopen hintact hsound hw hmem hfile, hlogged, ?_, ?_,
    fun n hn => ?_, ?_, flushed ++ moved, ?_, ?_⟩, hle⟩
  · rw [hlatest]
    exact max_lt h.sequence hhas.bounded
  · rw [hopen.logging]
    rintro r ⟨⟩
  · refine ⟨horder.order.sublist (List.sublist_append_right _ _), fun r hr => ?_⟩
    have hr' : r ∈ recordsFrom vset.logNumber dir.logs := by
      rw [hmoved]
      exact List.mem_append_right _ hr
    refine ⟨(h.inOrder.bounds r hr').1, (hhas.sequences r hr').trans (Nat.succ_le_succ ?_)⟩
    rw [hlatest]
    exact le_max_right _ _
  · rw [hopen.tables]
    obtain ⟨level, f, hf, rfl⟩ := (mem_fileNumbers hintact.good.version.filed).1 hn
    rw [hopen.current, hrec.current_files hopen hsound hw hmem, hmem] at hf
    rcases hf with ⟨-, hf⟩ | hf
    · exact hsound.tables.1 f hf
    · refine hsound.tables.2 _ (hrec.tables.symm ▸ h.tables _ ?_)
      rw [← fileNumbers_congr (hrec.version ▸ hrec.files : b.version.files = vset.current.files)]
      exact (mem_fileNumbers b.valid.filed).2 ⟨level, f, hf, rfl⟩
  · rw [hset]
    rintro w (hw | ⟨y, hy, hw⟩) r hr
    · exact hnewer w hw r (List.mem_append_right _ hr)
    · obtain ⟨r₀, hr₀, hy⟩ := mem_entriesOf.1 hy
      have hy := (Database.mem_insertInto hy).2.1
      have hle := (List.pairwise_append.1 horder.order).2.2 r₀ hr₀ r hr
      rw [(stampedOf_some hw).2.1]
      omega
  · rw [hmoved, List.append_assoc]
  · rw [hset] at hunique ⊢
    exact shows_records h.shows (hunique.mono Set.subset_union_left) (horder.sublist (List.sublist_append_left _ _))
      fun w hw r hr => hnewer w hw r (List.mem_append_left _ hr)

/-- What `Open` comes to: the database it opens, and its log files. -/
structure Reopened (dir : Directory α) (vset : LoggedVersionSet α) (journal : List (LoggedBatch α))
    (s : DurableDatabase α) : Prop where
  durable : s.db.nextFileNumber < 2 ^ 64 → s.Durable journal
  running : s.db.running = none
  logging : s.logging = none
  comparatorName : s.versions.comparatorName = vset.comparatorName
  logNumber : s.db.nextFileNumber < 2 ^ 64 → vset.logNumber ≤ s.versions.logNumber
  logs : s.db.nextFileNumber < 2 ^ 64 → s.logs = dir.logs ∨ ∃ number, s.logs = dir.logs ++ [{ number := number }]

variable (env) in
/-- **`Open`** of what can be recovered. -/
theorem Recoverable.openDB (h : dir.Recoverable vset seen records next last flushed) {o : OpenCall α}
    (hname : o.comparatorName = vset.comparatorName) {number : UInt64}
    (hrecover : dir.recover env o = dir.recoverFrom env o number records) :
    ∃ s, dir.openDB env o = .ok s ∧ dir.Reopened vset (flushed ++ recordsFrom vset.logNumber dir.logs) s ∧
      (dir.logs = [] → s.db.nextFileNumber ≤ next.toNat + 2) := by
  obtain ⟨b, vset', st, hst, hrec⟩ := h.recoverFrom env hname number
  obtain ⟨s, hs, hopen⟩ := openDB_ok (hrecover.trans hst)
  refine ⟨s, hs, ⟨fun hlt => (hrec.durable h hopen hlt).1, hopen.running, hopen.logging, ?_,
    fun hlt => (hrec.durable h hopen hlt).2, fun hlt => ?_⟩, fun hnone => ?_⟩
  · rw [← hrec.comparatorName, hopen.versions]
    dsimp only
    split <;> rfl
  · rw [hopen.logs]
    cases hreused : st.reused with
    | none =>
      refine Or.inr ⟨_, newLogFile_eq fun log hlog => ?_⟩
      rw [UInt64.lt_iff_toNat_lt, UInt64.toNat_ofNat_of_lt' (hopen.next_le.trans_lt hlt)]
      exact hrec.logs log hlog
    | some r => exact Or.inl rfl
  · have hnext := hrec.logless hnone
    rw [hrec.nextFileNumber] at hnext
    rw [hopen.next]
    split <;> omega

end Open

end Directory

end LevelDbSurf
