import LevelDbSurf.LiveFiles

/-!
# What is removed, over runs

Two things take files away: the loop of `RemoveObsoleteFiles`, and `BuildTable` for the table it could not build. The first
only takes what `Sound` says nobody needs. After a background error `RemoveObsoleteFiles` chooses nothing any more, but its
loop does not look: what had been chosen is removed (`removed_after_error`).
-/

namespace LevelDbSurf

open RefCount

variable {α : Type} [LinearOrder α]

section Removals
variable {s s' : FileStore α} {t : BackgroundCall α} {next : Option (BackgroundCall α)}

/-! ## What is removed -/

@[simp] theorem collect_fst (t : BackgroundCall α) (s : FileStore α) : (t.collect s).1 = s := by
  unfold BackgroundCall.collect
  split <;> rfl

@[simp] theorem recordBackgroundError_disk (status : Status) : (s.recordBackgroundError status).disk = s.disk := by
  unfold FileStore.recordBackgroundError
  split <;> rfl

@[simp] theorem finishApply_disk (edit : VersionEdit α) (v : Version α) (status : Status) :
    (s.finishApply edit v status).disk = s.disk := by
  unfold FileStore.finishApply
  split <;> rfl

theorem endCompaction_disk (t : BackgroundCall α) (s : FileStore α) (c : CompactionState α) (status : Status) :
    (t.endCompaction s c status).1.disk = s.disk := by
  unfold BackgroundCall.endCompaction
  rw [collect_fst]
  dsimp only
  split
  · rfl
  · exact recordBackgroundError_disk status

theorem finishTable_disk (t : BackgroundCall α) (s : FileStore α) (number : UInt64) (base : Reference (Version α))
    (status : Status) (f : Option (Nat × FileMetaData α)) (shuttingDown : Bool) :
    (t.finishTable s number base status f shuttingDown).1.disk =
      (s.tableBuilt number base (status.isOk && f.isSome)).disk := by
  unfold BackgroundCall.finishTable
  dsimp only
  split
  · exact recordBackgroundError_disk status
  · split
    · exact recordBackgroundError_disk _
    · rfl

/-- Only the loop of `RemoveObsoleteFiles` removes files, and `BuildTable` the one it could not build. -/
theorem removed_of_ran {e : BackgroundEvent α} (hran : BackgroundCall.Ran s t e s' next) {f : DbFile}
    (hf : f ∈ s.disk) (hgone : f ∉ s'.disk) :
    (e = .removeFile ∧ ∃ fs, t.pc = .removeFiles (f :: fs)) ∨
      ∃ base status table shuttingDown, e = .finishTable status table shuttingDown ∧
        t.pc = .buildTable f.number base ∧ f.type = .tableFile ∧ (status.isOk = false ∨ table = none) := by
  cases hran with
  | finishTable hpc =>
    rename_i number base status table shuttingDown
    rw [finishTable_disk] at hgone
    unfold FileStore.tableBuilt at hgone
    dsimp only at hgone
    split at hgone
    · exact absurd hf hgone
    · rename_i hlost
      have hself : f = ⟨.tableFile, number⟩ := by
        by_contra hne
        exact hgone (List.mem_filter.2 ⟨hf, by simpa using hne⟩)
      subst hself
      refine .inr ⟨base, status, table, shuttingDown, rfl, hpc, rfl, ?_⟩
      cases hok : status.isOk with
      | false => exact .inl rfl
      | true =>
        refine .inr ?_
        simpa [hok] using hlost
  | removeFile hpc =>
    rename_i g fs
    have hself : f = g := by
      by_contra hne
      exact hgone (List.mem_filter.2 ⟨hf, by simpa using hne⟩)
    subst hself
    exact .inl ⟨rfl, fs, hpc⟩
  | createTable hpc => exact absurd (List.mem_insert_of_mem hf) hgone
  | createOutput hpc => exact absurd (List.mem_insert_of_mem hf) hgone
  | abandon hpc hc =>
    rw [endCompaction_disk] at hgone
    exact absurd hf hgone
  | flushed hpc =>
    unfold BackgroundCall.afterFlush at hgone
    split at hgone
    · rw [collect_fst] at hgone
      simp [hf] at hgone
    · simp [hf] at hgone
  | moved hpc =>
    unfold BackgroundCall.afterMove at hgone
    dsimp only at hgone
    split at hgone <;> simp [hf] at hgone
  | compacted hpc hc =>
    rw [endCompaction_disk] at hgone
    simp [hf] at hgone
  | _ => exact absurd hf hgone

theorem store_disk {e : StoreEvent} (hs : s.step e = some s') {f : DbFile} (hf : f ∈ s.disk) : f ∈ s'.disk := by
  cases e with
  | switchMemTable created closed =>
    simp only [FileStore.step] at hs
    split at hs
    · obtain rfl := Option.some.inj hs
      unfold FileStore.switchMemTable
      split
      · exact hf
      · exact List.mem_insert_of_mem hf
    · cases hs
  | writeError status =>
    obtain rfl := Option.some.inj hs
    rwa [recordBackgroundError_disk]
  | refCurrent =>
    obtain rfl := Option.some.inj hs
    exact hf
  | unref reader =>
    simp only [FileStore.step] at hs
    split at hs
    · obtain rfl := Option.some.inj hs
      exact hf
    · cases hs

/-! ### After an error -/

theorem recordBackgroundError_of_error (hbad : s.bgError.isOk = false) (status : Status) :
    s.recordBackgroundError status = s := by
  unfold FileStore.recordBackgroundError
  simp [hbad]

@[simp] theorem finishApply_bgError (edit : VersionEdit α) (v : Version α) (status : Status) :
    (s.finishApply edit v status).bgError = s.bgError := by
  unfold FileStore.finishApply
  split <;> rfl

/-- The call is not in the loop of `RemoveObsoleteFiles`. -/
def NotRemoving (next : Option (BackgroundCall α)) : Prop := ∀ t, next = some t → ∀ fs, t.pc ≠ .removeFiles fs

theorem notRemoving_none : NotRemoving (none : Option (BackgroundCall α)) := by
  rintro t ⟨⟩

theorem notRemoving_resume (t : BackgroundCall α) : NotRemoving t.resume := by
  intro t' ht' fs
  unfold BackgroundCall.resume at ht'
  split at ht'
  · obtain rfl := Option.some.inj ht'
    nofun
  · cases ht'

theorem collect_of_error (hbad : s.bgError.isOk = false) (t : BackgroundCall α) :
    (t.collect s).1.bgError.isOk = false ∧ NotRemoving (t.collect s).2 := by
  have hcollect : t.collect s = (s, t.resume) := by
    simp [BackgroundCall.collect, FileStore.removeObsoleteFiles, hbad]
  rw [hcollect]
  exact ⟨hbad, notRemoving_resume t⟩

theorem endCompaction_of_error (hbad : s.bgError.isOk = false) (t : BackgroundCall α) (c : CompactionState α)
    (status : Status) : (t.endCompaction s c status).1.bgError.isOk = false ∧
      NotRemoving (t.endCompaction s c status).2 := by
  unfold BackgroundCall.endCompaction
  rw [recordBackgroundError_of_error hbad, ite_self]
  exact collect_of_error (by exact hbad) _

theorem ran_of_error (hbad : s.bgError.isOk = false) {e : BackgroundEvent α}
    (hran : BackgroundCall.Ran s t e s' next) : s'.bgError.isOk = false ∧
      ∀ t', next = some t' → ∀ fs', t'.pc = .removeFiles fs' → ∃ fs, t.pc = .removeFiles fs ∧ fs' <:+ fs := by
  have hnot : s'.bgError.isOk = false → NotRemoving next → s'.bgError.isOk = false ∧
      ∀ t', next = some t' → ∀ fs', t'.pc = .removeFiles fs' → ∃ fs, t.pc = .removeFiles fs ∧ fs' <:+ fs :=
    fun hbad' hnot => ⟨hbad', fun t' ht' fs' hpc => absurd hpc (hnot t' ht' fs')⟩
  cases hran with
  | nothingToDo hpc => exact hnot hbad notRemoving_none
  | finishTable hpc =>
    rename_i number base status f shuttingDown
    have hbuilt : (s.tableBuilt number base (status.isOk && f.isSome)).bgError.isOk = false := hbad
    have hfinish : (t.finishTable s number base status f shuttingDown).1.bgError.isOk = false ∧
        NotRemoving (t.finishTable s number base status f shuttingDown).2 := by
      unfold BackgroundCall.finishTable
      dsimp only
      split
      · rw [recordBackgroundError_of_error hbuilt]
        exact ⟨hbad, notRemoving_resume t⟩
      · split
        · rw [recordBackgroundError_of_error hbuilt]
          exact ⟨hbad, notRemoving_resume t⟩
        · refine ⟨hbad, ?_⟩
          rintro t' ⟨⟩ fs ⟨⟩
    exact hnot hfinish.1 hfinish.2
  | removeFile hpc =>
    rename_i f fs
    refine ⟨hbad, ?_⟩
    rintro t' ⟨⟩ fs' ⟨⟩
    exact ⟨_, hpc, List.suffix_cons f fs⟩
  | removed hpc => exact hnot hbad (notRemoving_resume t)
  | abandon hpc hc =>
    obtain ⟨hbad', hnext⟩ := endCompaction_of_error hbad t _ _
    exact hnot hbad' hnext
  | compacted hpc hc =>
    obtain ⟨hbad', hnext⟩ := endCompaction_of_error (s := s.finishApply _ _ _) (by simpa using hbad) t _ _
    exact hnot hbad' hnext
  | flushed hpc =>
    rename_i edit v status
    have hbad' : (s.finishApply edit v status).bgError.isOk = false := by simpa using hbad
    have hflush : (t.afterFlush (s.finishApply edit v status) status).1.bgError.isOk = false ∧
        NotRemoving (t.afterFlush (s.finishApply edit v status) status).2 := by
      unfold BackgroundCall.afterFlush
      split
      · exact collect_of_error (by exact hbad') t
      · rw [recordBackgroundError_of_error hbad']
        exact ⟨hbad', notRemoving_resume t⟩
    exact hnot hflush.1 hflush.2
  | moved hpc =>
    rename_i edit v status r
    have hbad' : (s.finishApply edit v status).bgError.isOk = false := by simpa using hbad
    refine hnot ?_ notRemoving_none
    unfold BackgroundCall.afterMove
    rw [recordBackgroundError_of_error hbad', ite_self]
    exact hbad'
  | createTable hpc | createOutput hpc =>
    refine ⟨hbad, ?_⟩
    rintro t' ⟨⟩ fs' hpc'
    rw [hpc] at hpc'
    cases hpc'
  | openOutput hpc hc hlast =>
    refine ⟨hbad, ?_⟩
    rintro t' ⟨⟩ fs' hpc'
    rw [show t.pc = _ from hpc'] at hpc
    cases hpc
  | startFlush hpc hlast | startCompaction hpc | moveFile hpc | install hpc hc houtputs =>
    refine ⟨hbad, ?_⟩
    rintro t' ⟨⟩ fs' ⟨⟩

theorem store_of_error (hbad : s.bgError.isOk = false) {e : StoreEvent} (hs : s.step e = some s') :
    s'.bgError.isOk = false := by
  cases e with
  | switchMemTable created closed => simp [FileStore.step, hbad] at hs
  | writeError status =>
    obtain rfl := Option.some.inj hs
    rwa [recordBackgroundError_of_error hbad]
  | refCurrent =>
    obtain rfl := Option.some.inj hs
    exact hbad
  | unref reader =>
    simp only [FileStore.step] at hs
    split at hs
    · obtain rfl := Option.some.inj hs
      exact hbad
    · cases hs

end Removals

/-! ## Runs of the database -/

namespace DbState

variable {d d' : DbState α}

/-- `DB::Open` has returned. -/
structure Opened (d : DbState α) : Prop where
  scheduled : d.scheduled = false
  calls : d.calls = []
  readers : d.store.readers = []
  versions : d.store.versions = [{ id := d.store.current.1, value := d.store.current.2, refs := 1 }]
  named : d.store.current.1 < d.store.nextVersion
  logs : d.store.logNumber ≤ d.store.logfileNumber
  logfile : d.store.logfileNumber.toNat < d.store.nextFileNumber

/-- At most one background call is scheduled, and the store is as it says. -/
def Good (d : DbState α) : Prop :=
  ∃ call : Option (BackgroundCall α), d.calls = call.toList ∧ (call.isSome = true → d.scheduled = true) ∧ Sound d.store call

theorem Opened.good (h : d.Opened) : d.Good := by
  refine ⟨none, h.calls, nofun, Between.over ⟨⟨?_, ?_⟩, nofun, h.logs, h.logfile⟩⟩
  · rw [h.readers, h.versions]
    refine ⟨List.nodup_singleton _, ?_, ?_⟩
    · intro o ho
      obtain rfl := List.mem_singleton.1 ho
      simp
    · intro r hr
      obtain rfl := List.mem_singleton.1 hr
      exact ⟨_, List.mem_singleton_self _, rfl, rfl⟩
  · rw [h.versions]
    intro o ho
    obtain rfl := List.mem_singleton.1 ho
    exact h.named

/-- There is one background call at most: the one that takes the step. -/
theorem call_eq {call : Option (BackgroundCall α)} {k : Nat} {t : BackgroundCall α}
    (ht : call.toList[k]? = some t) : k = 0 ∧ call = some t := by
  cases call with
  | none => simp at ht
  | some t' =>
    cases k with
    | zero => exact ⟨rfl, by simpa using ht⟩
    | succ k => simp at ht

theorem Good.step (h : d.Good) {e : DbEvent α} (hs : d.step e = some d') : d'.Good := by
  obtain ⟨call, hcalls, hscheduled, hsound⟩ := h
  cases e with
  | store e =>
    obtain ⟨store, hstore, rfl⟩ := Option.map_eq_some_iff.1 hs
    exact ⟨call, hcalls, hscheduled, hsound.store hstore⟩
  | maybeScheduleCompaction =>
    simp only [DbState.step] at hs
    split at hs
    · cases hs
    · rename_i hidle
      split at hs
      · cases hs
      · obtain rfl := Option.some.inj hs
        have hnone : call = none := by
          cases call with
          | none => rfl
          | some t => exact absurd (hscheduled rfl) hidle
        subst hnone
        refine ⟨some {}, by simp [hcalls], fun _ => rfl, hsound.refs, ?_, ?_, ?_, hsound.logs, hsound.logfile, ?_, ?_⟩
        · rintro t ⟨⟩ -
          rfl
        · rintro t ⟨⟩ c ⟨⟩
        · rintro t ⟨⟩ number base ⟨⟩
        · rintro t ⟨⟩ edit v purpose ⟨⟩
        · rintro t ⟨⟩ fs ⟨⟩
  | background k e =>
    simp only [DbState.step] at hs
    split at hs
    · rename_i t ht
      obtain ⟨⟨store, next⟩, hran, rfl⟩ := Option.map_eq_some_iff.1 hs
      rw [hcalls] at ht
      obtain ⟨rfl, rfl⟩ := call_eq ht
      have hnext := hsound.ran (BackgroundCall.ran_of_step hran)
      cases next with
      | none => exact ⟨none, by simp [putCall, hcalls], nofun, hnext⟩
      | some t' => exact ⟨some t', by simp [putCall, hcalls], hscheduled, hnext⟩
    · cases hs

theorem run_preserves {P : DbState α → Prop} (hstep : ∀ d d' e, P d → d.step e = some d' → P d')
    {events : List (DbEvent α)} (h : P d) (hrun : d.run events = some d') : P d' := by
  induction events generalizing d with
  | nil =>
    obtain rfl := Option.some.inj hrun
    exact h
  | cons e events ih =>
    unfold run at hrun
    rw [List.foldlM_cons] at hrun
    obtain ⟨t, ht, hrun⟩ := Option.bind_eq_some_iff.1 hrun
    exact ih (hstep d t e h ht) hrun

/-- What the loop of `RemoveObsoleteFiles` still has before it was before `d₀`'s. -/
def RemovesOnly (d₀ d : DbState α) : Prop :=
  d.store.bgError.isOk = false ∧ ∀ t ∈ d.calls, ∀ fs, t.pc = .removeFiles fs →
    ∃ t₀ ∈ d₀.calls, ∃ fs₀, t₀.pc = .removeFiles fs₀ ∧ fs <:+ fs₀

theorem RemovesOnly.step {d₀ : DbState α} (h : d₀.RemovesOnly d) {e : DbEvent α} (hs : d.step e = some d') :
    d₀.RemovesOnly d' := by
  obtain ⟨hbad, hremoves⟩ := h
  cases e with
  | store e =>
    obtain ⟨store, hstore, rfl⟩ := Option.map_eq_some_iff.1 hs
    exact ⟨store_of_error hbad hstore, hremoves⟩
  | maybeScheduleCompaction => simp [DbState.step, hbad] at hs
  | background k e =>
    simp only [DbState.step] at hs
    split at hs
    · rename_i t ht
      obtain ⟨⟨store, next⟩, hran, rfl⟩ := Option.map_eq_some_iff.1 hs
      obtain ⟨hbad', hnext⟩ := ran_of_error hbad (BackgroundCall.ran_of_step hran)
      cases next with
      | none => exact ⟨hbad', fun t' ht' => hremoves t' (List.mem_of_mem_eraseIdx ht')⟩
      | some t' =>
        refine ⟨hbad', fun u hu fs hpc => ?_⟩
        rcases List.mem_or_eq_of_mem_set hu with hu | rfl
        · exact hremoves u hu fs hpc
        · obtain ⟨fs₁, hpc₁, hsuffix⟩ := hnext u rfl fs hpc
          obtain ⟨t₀, ht₀, fs₀, hpc₀, hsuffix₀⟩ := hremoves t (List.mem_of_getElem? ht) fs₁ hpc₁
          exact ⟨t₀, ht₀, fs₀, hpc₀, hsuffix.trans hsuffix₀⟩
    · cases hs

/-- The log that is being written is needed, in every run. -/
theorem logfile_needed {opened : DbState α} {events : List (DbEvent α)} (hopened : opened.Opened)
    (hrun : opened.run events = some d) : d.store.Needed d.calls ⟨.logFile, d.store.logfileNumber⟩ := by
  obtain ⟨call, -, -, hsound⟩ := run_preserves (fun _ _ _ h hs => h.step hs) hopened.good hrun
  exact .inl hsound.logs

end DbState

open DbState

/-- **No live file is removed**, at any step of any run: a file that goes away is not needed, or it is the table that
`BuildTable` failed to build or that has no entries. From a background error on, only files are removed that had been chosen
before it. -/
theorem live_not_removed (opened d : DbState α) (events : List (DbEvent α)) (hopened : opened.Opened)
    (hrun : opened.run events = some d) :
    (∀ e d', d.step e = some d' → ∀ f ∈ d.store.disk, f ∉ d'.store.disk →
      ¬ d.store.Needed d.calls f ∨ ∃ k status table shuttingDown t base,
        e = .background k (.finishTable status table shuttingDown) ∧ d.calls[k]? = some t ∧
          t.pc = .buildTable f.number base ∧ (status.isOk = false ∨ table = none)) ∧
    (d.store.bgError.isOk = false → ∀ later d', d.run later = some d' → ∀ t' ∈ d'.calls, ∀ fs', t'.pc = .removeFiles fs' →
      ∃ t ∈ d.calls, ∃ fs, t.pc = .removeFiles fs ∧ fs' <:+ fs) := by
  have hgood := DbState.run_preserves (fun _ _ _ h hs => h.step hs) hopened.good hrun
  obtain ⟨call, hcalls, -, hsound⟩ := hgood
  refine ⟨fun e d' hs f hf hgone => ?_, fun hbad later d' hlater => ?_⟩
  · cases e with
    | store e =>
      obtain ⟨store, hstore, rfl⟩ := Option.map_eq_some_iff.1 hs
      exact absurd (store_disk hstore hf) hgone
    | maybeScheduleCompaction =>
      simp only [DbState.step] at hs
      split at hs
      · cases hs
      · split at hs
        · cases hs
        · obtain rfl := Option.some.inj hs
          exact absurd hf hgone
    | background k e =>
      simp only [DbState.step] at hs
      split at hs
      · rename_i t ht
        obtain ⟨⟨store, next⟩, hran, rfl⟩ := Option.map_eq_some_iff.1 hs
        have hgone' : f ∉ store.disk := by
          cases next <;> exact hgone
        rcases removed_of_ran (BackgroundCall.ran_of_step hran) hf hgone' with ⟨rfl, fs, hpc⟩ | hbuild
        · left
          rw [hcalls] at ht ⊢
          obtain ⟨rfl, rfl⟩ := call_eq ht
          exact hsound.removing t rfl _ hpc f List.mem_cons_self
        · obtain ⟨base, status, table, shuttingDown, rfl, hpc, -, hlost⟩ := hbuild
          exact .inr ⟨k, status, table, shuttingDown, t, base, rfl, ht, hpc, hlost⟩
      · cases hs
  · have hstart : d.RemovesOnly d := ⟨hbad, fun t ht fs hpc => ⟨t, ht, fs, hpc, List.suffix_refl fs⟩⟩
    exact (DbState.run_preserves (fun _ _ _ h hs => h.step hs) hstart hlater).2

namespace LiveFilesSample

def empty : Version Nat := { files := fun _ => [] }

def opened : DbState Nat :=
  { store :=
      { disk := [⟨.logFile, 3⟩], versions := [{ id := 0, value := empty, refs := 1 }], current := (0, empty), nextVersion := 1
        nextFileNumber := 5, manifestFileNumber := 2, logNumber := 3, prevLogNumber := 0, logfileNumber := 3 } }

def table : FileMetaData Nat := ⟨6, 100, ⟨1, 256⟩, ⟨1, 256⟩, le_refl _⟩

/-- The memtable is flushed, and its log is about to be removed. -/
def flush : List (DbEvent Nat) :=
  [.store (.switchMemTable .ok .ok), .maybeScheduleCompaction, .background 0 .startFlush, .background 0 .createTable,
    .background 0 (.finishTable .ok (some (0, table)) false), .background 0 (.applied .ok)]

theorem opened_opened : opened.Opened :=
  ⟨rfl, rfl, rfl, rfl, Nat.zero_lt_one, UInt64.le_refl 3, by decide⟩

/-- The state it is removed in, and the one after. -/
def removing : DbState Nat := (opened.run flush).getD opened

def removed : DbState Nat := (removing.step (.background 0 .removeFile)).getD removing

theorem removing_disk : removing.store.disk = [⟨.tableFile, 6⟩, ⟨.logFile, 5⟩, ⟨.logFile, 3⟩] := by decide

theorem removed_disk : removed.store.disk = [⟨.tableFile, 6⟩, ⟨.logFile, 5⟩] := by decide

/-- A write fails in between. -/
def failed : DbState Nat := (removing.step (.store (.writeError (.ioError "sync")))).getD removing

end LiveFilesSample

open LiveFilesSample in
theorem live_not_removed_sample : opened.run flush = some removing ∧
    removing.step (.background 0 .removeFile) = some removed ∧ ¬ removing.store.Needed removing.calls ⟨.logFile, 3⟩ := by
  refine ⟨rfl, rfl, ?_⟩
  have h := (live_not_removed opened removing flush opened_opened rfl).1 (.background 0 .removeFile) removed rfl
    ⟨.logFile, 3⟩ (by simp [removing_disk]) (by simp [removed_disk])
  refine h.resolve_right ?_
  rintro ⟨k, status, table, shuttingDown, t, base, ⟨⟩, -⟩

open LiveFilesSample in
/-- A write fails while the files are being removed, and the next one is removed all the same. -/
theorem removed_after_error : opened.run (flush ++ [.store (.writeError (.ioError "sync"))]) = some failed ∧
    failed.store.bgError.isOk = false ∧ ∃ d', failed.step (.background 0 .removeFile) = some d' ∧
      ⟨.logFile, 3⟩ ∈ failed.store.disk ∧ ⟨.logFile, 3⟩ ∉ d'.store.disk :=
  ⟨rfl, rfl, _, rfl, by decide, by decide⟩

end LevelDbSurf
