import LevelDbSurf.FileCollection

/-!
# No live file is removed

A file is chosen for removal with the mutex held and removed without it. `Sound` says why that is safe at each place the
one background call may be: the references of reads, flushes and compactions are counted, so their versions are in the
list `AddLiveFiles` walks over; a file that is being written is in `pending_outputs_`; a flushed file that waits for its
`LogAndApply` is in neither, but the call that would collect it is the one that waits. Once chosen, a file can only become
less needed (`Needed.of_store`), whatever other threads do.
-/

namespace LevelDbSurf

open RefCount

variable {α : Type} [LinearOrder α]

/-! ## What a background call does -/

namespace BackgroundCall

variable {s s' : FileStore α} {t : BackgroundCall α} {next : Option (BackgroundCall α)}

/-- `step`, with the test of each branch. -/
inductive Ran (s : FileStore α) (t : BackgroundCall α) :
    BackgroundEvent α → FileStore α → Option (BackgroundCall α) → Prop
  | nothingToDo (hpc : t.pc = .scheduled) : Ran s t .nothingToDo s none
  | startFlush (hpc : t.pc = .scheduled ∨ t.pc = .working) (hlast : s.nextFileNumber + 1 < 2 ^ 64) :
    Ran s t .startFlush s.startFlush (some { t with pc := .buildTable s.newFileNumber s.current })
  | createTable {number : UInt64} {base : Reference (Version α)} (hpc : t.pc = .buildTable number base) :
    Ran s t .createTable { s with disk := s.disk.insert ⟨.tableFile, number⟩ } (some t)
  | finishTable {number : UInt64} {base : Reference (Version α)} {status : Status} {f : Option (Nat × FileMetaData α)}
    {shuttingDown : Bool} (hpc : t.pc = .buildTable number base) :
    Ran s t (.finishTable status f shuttingDown) (t.finishTable s number base status f shuttingDown).1
      (t.finishTable s number base status f shuttingDown).2
  | startCompaction {c : Compaction α} (hpc : t.pc = .scheduled) :
    Ran s t (.startCompaction c) { s with versions := ref s.current.1 s.versions }
      (some { pc := .working, compaction := some { inputVersion := s.current, compaction := c } })
  | moveFile {c : Compaction α} {f : FileMetaData α} (hpc : t.pc = .scheduled) :
    Ran s t (.moveFile c f) { s with versions := ref s.current.1 s.versions }
      (some { t with pc := s.startApply (c.moveEdit f) (.move s.current) })
  | openOutput {c : CompactionState α} (hpc : t.pc = .working) (hc : t.compaction = some c)
    (hlast : s.nextFileNumber + 1 < 2 ^ 64) :
    Ran s t .openOutput
      { s with
        nextFileNumber := s.nextFileNumber + 1
        pendingOutputs := insert s.newFileNumber s.pendingOutputs }
      (some { t with compaction := some { c with outputs := c.outputs ++ [s.newFileNumber] } })
  | createOutput {number : UInt64} (hpc : t.pc = .working) :
    Ran s t .createOutput { s with disk := s.disk.insert ⟨.tableFile, number⟩ } (some t)
  | install {c : CompactionState α} {status : Status} {outputs : List (Output α)} (hpc : t.pc = .working)
    (hc : t.compaction = some c) (houtputs : outputs.map (·.number) = c.outputs) :
    Ran s t (.finishCompaction status outputs) s
      (some { t with pc := s.startApply (c.compaction.installResults outputs) .compaction })
  | abandon {c : CompactionState α} {status : Status} {outputs : List (Output α)} (hpc : t.pc = .working)
    (hc : t.compaction = some c) :
    Ran s t (.finishCompaction status outputs) (t.endCompaction s c status).1 (t.endCompaction s c status).2
  | flushed {edit : VersionEdit α} {v : Version α} {status : Status} (hpc : t.pc = .logAndApply edit v .flush) :
    Ran s t (.applied status) (t.afterFlush (s.finishApply edit v status) status).1
      (t.afterFlush (s.finishApply edit v status) status).2
  | moved {edit : VersionEdit α} {v : Version α} {status : Status} {inputVersion : Reference (Version α)}
    (hpc : t.pc = .logAndApply edit v (.move inputVersion)) :
    Ran s t (.applied status) (afterMove (s.finishApply edit v status) inputVersion status) none
  | compacted {edit : VersionEdit α} {v : Version α} {status : Status} {c : CompactionState α}
    (hpc : t.pc = .logAndApply edit v .compaction) (hc : t.compaction = some c) :
    Ran s t (.applied status) (t.endCompaction (s.finishApply edit v status) c status).1
      (t.endCompaction (s.finishApply edit v status) c status).2
  | removeFile {f : DbFile} {filesToDelete : List DbFile} (hpc : t.pc = .removeFiles (f :: filesToDelete)) :
    Ran s t .removeFile { s with disk := s.disk.filter fun g => decide (g ≠ f) }
      (some { t with pc := .removeFiles filesToDelete })
  | removed (hpc : t.pc = .removeFiles []) : Ran s t .removed s t.resume

/-- A memtable is flushed before a compaction, or in the middle of one. -/
theorem ran_of_startFlush (h : t.step s .startFlush = some (s', next)) : Ran s t .startFlush s' next := by
  simp only [step] at h
  split at h
  · rename_i hpc
    split at h
    · rename_i htests
      simp only [FileStore.numbersLast, Bool.and_eq_true, decide_eq_true_eq] at htests
      obtain ⟨rfl, rfl⟩ := Prod.mk.inj (Option.some.inj h)
      exact .startFlush (.inl hpc) htests.2
    · cases h
  · rename_i hpc
    split at h
    · rename_i htests
      simp only [FileStore.numbersLast, Bool.and_eq_true, decide_eq_true_eq] at htests
      obtain ⟨rfl, rfl⟩ := Prod.mk.inj (Option.some.inj h)
      exact .startFlush (.inr hpc) htests.2
    · cases h
  · cases h

/-- The outputs of a compaction are installed, or given up. -/
theorem ran_of_finishCompaction {status : Status} {outputs : List (Output α)}
    (h : t.step s (.finishCompaction status outputs) = some (s', next)) :
    Ran s t (.finishCompaction status outputs) s' next := by
  simp only [step] at h
  split at h
  · rename_i c hpc hc
    split at h
    · split at h
      · rename_i houtputs
        obtain ⟨rfl, rfl⟩ := Prod.mk.inj (Option.some.inj h)
        exact .install hpc hc houtputs
      · cases h
    · obtain ⟨rfl, rfl⟩ := Prod.mk.inj (Option.some.inj h)
      exact .abandon hpc hc
  · cases h

/-- What the edit was for decides how it goes on. -/
theorem ran_of_applied {status : Status} (h : t.step s (.applied status) = some (s', next)) :
    Ran s t (.applied status) s' next := by
  simp only [step] at h
  split at h
  · rename_i edit v purpose hpc
    cases purpose with
    | flush =>
      obtain ⟨rfl, rfl⟩ := Prod.mk.inj (Option.some.inj h)
      exact .flushed hpc
    | move inputVersion =>
      obtain ⟨rfl, rfl⟩ := Prod.mk.inj (Option.some.inj h)
      exact .moved hpc
    | compaction =>
      obtain ⟨c, hc, h⟩ := Option.map_eq_some_iff.1 h
      obtain ⟨rfl, rfl⟩ := Prod.mk.inj h
      exact .compacted hpc hc
  · cases h

theorem ran_of_step {e : BackgroundEvent α} (h : t.step s e = some (s', next)) : Ran s t e s' next := by
  cases e with
  | nothingToDo =>
    simp only [step] at h
    split at h
    · rename_i hpc
      obtain ⟨rfl, rfl⟩ := Prod.mk.inj (Option.some.inj h)
      exact .nothingToDo hpc
    · cases h
  | startFlush => exact ran_of_startFlush h
  | createTable =>
    simp only [step] at h
    split at h
    · rename_i number base hpc
      obtain ⟨rfl, rfl⟩ := Prod.mk.inj (Option.some.inj h)
      exact .createTable hpc
    · cases h
  | finishTable status f shuttingDown =>
    simp only [step] at h
    split at h
    · rename_i number base hpc
      split at h
      · obtain ⟨rfl, rfl⟩ := Prod.mk.inj (Option.some.inj h)
        exact .finishTable hpc
      · cases h
    · cases h
  | startCompaction c =>
    simp only [step] at h
    split at h
    · rename_i hpc
      split at h
      · obtain ⟨rfl, rfl⟩ := Prod.mk.inj (Option.some.inj h)
        exact .startCompaction hpc
      · cases h
    · cases h
  | moveFile c f =>
    simp only [step] at h
    split at h
    · rename_i hpc
      split at h
      · obtain ⟨rfl, rfl⟩ := Prod.mk.inj (Option.some.inj h)
        exact .moveFile hpc
      · cases h
    · cases h
  | openOutput =>
    simp only [step] at h
    split at h
    · rename_i c hpc hc
      split at h
      · rename_i hlast
        obtain ⟨rfl, rfl⟩ := Prod.mk.inj (Option.some.inj h)
        exact .openOutput hpc hc (by simpa [FileStore.numbersLast] using hlast)
      · cases h
    · cases h
  | createOutput =>
    simp only [step] at h
    split at h
    · rename_i c hpc hc
      split at h
      · obtain ⟨rfl, rfl⟩ := Prod.mk.inj (Option.some.inj h)
        exact .createOutput hpc
      · cases h
    · cases h
  | finishCompaction status outputs => exact ran_of_finishCompaction h
  | applied status => exact ran_of_applied h
  | removeFile =>
    simp only [step] at h
    split at h
    · rename_i f filesToDelete hpc
      obtain ⟨rfl, rfl⟩ := Prod.mk.inj (Option.some.inj h)
      exact .removeFile hpc
    · cases h
  | removed =>
    simp only [step] at h
    split at h
    · rename_i hpc
      obtain ⟨rfl, rfl⟩ := Prod.mk.inj (Option.some.inj h)
      exact .removed hpc
    · cases h

/-! ## What is needed -/

/-- The references the call has. -/
def pcHolds : BackgroundPc α → List (Reference (Version α))
  | .buildTable _ base => [base]
  | .logAndApply _ _ (.move inputVersion) => [inputVersion]
  | _ => []

def holds (t : BackgroundCall α) : List (Reference (Version α)) :=
  pcHolds t.pc ++ t.compaction.toList.map (·.inputVersion)

/-- The table is being written: by `BuildTable`, or as an output that has not been cleaned up. -/
def Writes (t : BackgroundCall α) (number : UInt64) : Prop :=
  (∃ base, t.pc = .buildTable number base) ∨ ∃ c, t.compaction = some c ∧ number ∈ c.outputs

/-- It has been written, and waits for its `LogAndApply`. -/
def Applies (t : BackgroundCall α) (number : UInt64) : Prop :=
  ∃ edit v purpose, t.pc = .logAndApply edit v purpose ∧
    (number ∈ edit.newFiles.map (·.2.number) ∨ number ∈ v.fileNumbers)

end BackgroundCall

namespace FileStore

/-- All references to versions. -/
def references (s : FileStore α) (calls : List (BackgroundCall α)) : List (Reference (Version α)) :=
  s.current :: (s.readers ++ calls.flatMap BackgroundCall.holds)

/-- A table of a version somebody refers to, or that is being written or waits; a log that recovery would read. -/
def Needed (s : FileStore α) (calls : List (BackgroundCall α)) (f : DbFile) : Prop :=
  match f.type with
  | .tableFile => (∃ r ∈ s.references calls, f.number ∈ r.2.fileNumbers) ∨
    ∃ t ∈ calls, t.Writes f.number ∨ t.Applies f.number
  | .logFile => f.number ≥ s.logNumber ∨ f.number = s.prevLogNumber
  | _ => False

/-! ## References -/

variable {s : FileStore α} {hs : List (Reference (Version α))} {r : Reference (Version α)}

/-- The references are counted, and the next version gets a new name. -/
structure Refs (s : FileStore α) (hs : List (Reference (Version α))) : Prop where
  counted : Counted s.versions (s.current :: (s.readers ++ hs))
  named : ∀ o ∈ s.versions, o.id < s.nextVersion

theorem Refs.ref (h : s.Refs hs) :
    Counted (ref s.current.1 s.versions) (s.current :: s.current :: (s.readers ++ hs)) ∧
      ∀ o ∈ RefCount.ref s.current.1 s.versions, o.id < s.nextVersion := by
  refine ⟨h.counted.ref List.mem_cons_self, fun o ho => ?_⟩
  obtain ⟨p, hp, rfl⟩ := mem_ref.1 ho
  have := h.named p hp
  split <;> exact this

/-- A background call takes a reference to the current version. -/
theorem Refs.hold (h : s.Refs hs) :
    ({ s with versions := RefCount.ref s.current.1 s.versions } : FileStore α).Refs (s.current :: hs) :=
  ⟨h.ref.1.perm (List.Perm.cons _ List.perm_middle), h.ref.2⟩

theorem named_unref (h : ∀ o ∈ s.versions, o.id < s.nextVersion) (id : Nat) :
    ∀ o ∈ unref id s.versions, o.id < s.nextVersion := by
  intro o ho
  obtain ⟨p, hp, hid, -⟩ := exists_of_mem_unref ho
  have := h p hp
  omega

/-- A background call gives one up. -/
theorem Refs.release (h : s.Refs (r :: hs)) : ({ s with versions := unref r.1 s.versions } : FileStore α).Refs hs := by
  have hperm : (r :: s.current :: (s.readers ++ hs)).Perm (s.current :: (s.readers ++ r :: hs)) :=
    (List.Perm.swap _ _ _).trans (List.Perm.cons _ List.perm_middle.symm)
  exact ⟨(h.counted.perm hperm).unref, named_unref h.named r.1⟩

theorem Refs.readerRef (h : s.Refs hs) : ({ s with
    versions := RefCount.ref s.current.1 s.versions, readers := s.current :: s.readers } : FileStore α).Refs hs :=
  ⟨h.ref.1, h.ref.2⟩

theorem Refs.readerUnref (h : s.Refs hs) {reader : Nat} (hr : s.readers[reader]? = some r) : ({ s with
    versions := unref r.1 s.versions, readers := s.readers.eraseIdx reader } : FileStore α).Refs hs := by
  obtain ⟨hlt, rfl⟩ := List.getElem?_eq_some_iff.1 hr
  have hreaders := List.getElem_cons_eraseIdx_perm hlt
  have hperm : (s.readers[reader] :: s.current :: (s.readers.eraseIdx reader ++ hs)).Perm
      (s.current :: (s.readers ++ hs)) :=
    (List.Perm.swap _ _ _).trans (List.Perm.cons _ (hreaders.append_right hs))
  exact ⟨(h.counted.perm hperm).unref, named_unref h.named _⟩

theorem Refs.appendVersion (h : s.Refs hs) (v : Version α) : (s.appendVersion v).Refs hs := by
  have hnamed := named_unref h.named s.current.1
  refine ⟨h.counted.unref.push fun o ho => (hnamed o ho).ne, fun o ho => ?_⟩
  rcases List.mem_append.1 ho with ho | ho
  · exact Nat.lt_succ_of_lt (hnamed o ho)
  · obtain rfl := List.mem_singleton.1 ho
    exact Nat.lt_succ_self _

theorem Refs.finishApply (h : s.Refs hs) (edit : VersionEdit α) (v : Version α) (status : Status) :
    (s.finishApply edit v status).Refs hs := by
  unfold FileStore.finishApply
  split
  · exact ⟨(h.appendVersion v).1, (h.appendVersion v).2⟩
  · exact h

/-- A version somebody refers to is in the list. -/
theorem Refs.isLive (h : s.Refs hs) (hr : r ∈ s.current :: (s.readers ++ hs)) {number : UInt64}
    (hnumber : number ∈ r.2.fileNumbers) : s.isLive number = true := by
  obtain ⟨o, ho, -, hvalue⟩ := h.counted.held r hr
  unfold FileStore.isLive
  rw [Bool.or_eq_true, List.any_eq_true]
  exact .inr ⟨o, ho, by simpa [hvalue] using hnumber⟩

@[simp] theorem recordBackgroundError_versions (status : Status) :
    (s.recordBackgroundError status).versions = s.versions := by
  unfold recordBackgroundError
  split <;> rfl

end FileStore

/-! ## The invariant -/

section Invariant
variable {s s' : FileStore α} {t : BackgroundCall α} {next : Option (BackgroundCall α)}
  {compaction : Option (CompactionState α)}

/-- With the mutex held and nothing but this compaction under way. -/
structure Between (s : FileStore α) (compaction : Option (CompactionState α)) : Prop where
  refs : s.Refs (compaction.toList.map (·.inputVersion))
  outputs : ∀ c, compaction = some c → ∀ n ∈ c.outputs, n ∈ s.pendingOutputs ∧ n.toNat < s.nextFileNumber
  logs : s.logNumber ≤ s.logfileNumber
  logfile : s.logfileNumber.toNat < s.nextFileNumber

/-- **The invariant**, for the one background call there may be. -/
structure Sound (s : FileStore α) (call : Option (BackgroundCall α)) : Prop where
  refs : s.Refs (call.toList.flatMap BackgroundCall.holds)
  idle : ∀ t, call = some t → (t.pc = .scheduled ∨ ∃ edit v r, t.pc = .logAndApply edit v (.move r)) →
    t.compaction = none
  outputs : ∀ t, call = some t → ∀ c, t.compaction = some c → ∀ n ∈ c.outputs,
    n ∈ s.pendingOutputs ∧ n.toNat < s.nextFileNumber
  building : ∀ t, call = some t → ∀ number base, t.pc = .buildTable number base →
    number ∈ s.pendingOutputs ∧ ∀ c, t.compaction = some c → number ∉ c.outputs
  logs : s.logNumber ≤ s.logfileNumber
  logfile : s.logfileNumber.toNat < s.nextFileNumber
  applying : ∀ t, call = some t → ∀ edit v purpose, t.pc = .logAndApply edit v purpose →
    edit.logNumber.getD 0 ≤ s.logfileNumber
  removing : ∀ t, call = some t → ∀ fs, t.pc = .removeFiles fs → ∀ f ∈ fs, ¬ s.Needed [t] f

theorem Sound.between (h : Sound s (some t)) (hpc : BackgroundCall.pcHolds t.pc = []) : Between s t.compaction := by
  have hrefs := h.refs
  simp only [Option.toList_some, List.flatMap_singleton, BackgroundCall.holds, hpc, List.nil_append] at hrefs
  exact ⟨hrefs, h.outputs t rfl, h.logs, h.logfile⟩

/-- The call gives up the one reference its place in the code has. -/
theorem Sound.release (h : Sound s (some t)) {r : Reference (Version α)} (hpc : BackgroundCall.pcHolds t.pc = [r]) :
    ({ s with versions := unref r.1 s.versions } : FileStore α).Refs (t.compaction.toList.map (·.inputVersion)) := by
  have hrefs := h.refs
  simp only [Option.toList_some, List.flatMap_singleton, BackgroundCall.holds, hpc, List.singleton_append] at hrefs
  exact hrefs.release

theorem Between.recordBackgroundError (h : Between s compaction) (status : Status) :
    Between (s.recordBackgroundError status) compaction := by
  unfold FileStore.recordBackgroundError
  split
  · exact ⟨⟨h.refs.1, h.refs.2⟩, h.outputs, h.logs, h.logfile⟩
  · exact h

/-- At a place in the code that holds and promises nothing. -/
theorem Between.sound (h : Between s t.compaction) (hpc : t.pc = .working) : Sound s (some t) := by
  refine ⟨?_, ?_, ?_, ?_, h.logs, h.logfile, ?_, ?_⟩
  · simpa [BackgroundCall.holds, BackgroundCall.pcHolds, hpc] using h.refs
  · rintro t ⟨⟩ (hpc' | ⟨edit, v, r, hpc'⟩)
    · rw [hpc] at hpc'
      cases hpc'
    · rw [hpc] at hpc'
      cases hpc'
  · rintro t ⟨⟩
    exact h.outputs
  · rintro t ⟨⟩ number base hpc'
    rw [hpc] at hpc'
    cases hpc'
  · rintro t ⟨⟩ edit v purpose hpc'
    rw [hpc] at hpc'
    cases hpc'
  · rintro t ⟨⟩ fs hpc'
    rw [hpc] at hpc'
    cases hpc'

theorem Between.over (h : Between s none) : Sound s none := by
  refine ⟨h.refs, ?_, ?_, ?_, h.logs, h.logfile, ?_, ?_⟩
  all_goals rintro t ⟨⟩

theorem Between.resume (h : Between s t.compaction) : Sound s t.resume := by
  unfold BackgroundCall.resume
  split
  · exact Between.sound h rfl
  · rename_i hnone
    rw [Option.not_isSome_iff_eq_none.1 hnone] at h
    exact h.over

/-- **What is chosen is not needed.** -/
theorem Between.keep (h : Between s t.compaction) {fs : List DbFile} {f : DbFile}
    (hneeded : s.Needed [{ t with pc := .removeFiles fs }] f) : s.keep f = true := by
  obtain ⟨type, number⟩ := f
  unfold FileStore.Needed at hneeded
  cases type with
  | tableFile =>
    rcases hneeded with ⟨r, hr, hnumber⟩ | ⟨t', ht', hneeded⟩
    · exact h.refs.isLive (by simpa [FileStore.references, BackgroundCall.holds, BackgroundCall.pcHolds] using hr) hnumber
    · obtain rfl := List.mem_singleton.1 ht'
      rcases hneeded with (⟨base, hpc⟩ | ⟨c, hc, hn⟩) | ⟨edit, v, purpose, hpc, -⟩
      · cases hpc
      · have hpending := (h.outputs c hc number hn).1
        simp [FileStore.keep, FileStore.isLive, hpending]
      · cases hpc
  | logFile =>
    simpa [FileStore.keep] using hneeded
  | _ => cases hneeded

/-- `RemoveObsoleteFiles` is called. -/
theorem Between.collect (h : Between s t.compaction) : Sound (t.collect s).1 (t.collect s).2 := by
  unfold BackgroundCall.collect FileStore.removeObsoleteFiles
  split
  · rename_i fs hfs
    split at hfs
    · cases hfs
    · obtain rfl := Option.some.inj hfs
      refine ⟨?_, ?_, ?_, ?_, h.logs, h.logfile, ?_, ?_⟩
      · simpa [BackgroundCall.holds, BackgroundCall.pcHolds] using h.refs
      · rintro t' ⟨⟩ (hpc | ⟨edit, v, r, hpc⟩) <;> cases hpc
      · rintro t' ⟨⟩
        exact h.outputs
      · rintro t' ⟨⟩ number base ⟨⟩
      · rintro t' ⟨⟩ edit v purpose ⟨⟩
      · rintro t' ⟨⟩ fs' ⟨⟩ f hf hneeded
        obtain ⟨-, hkeep⟩ := List.mem_filter.1 hf
        simp [h.keep hneeded] at hkeep
  · exact h.resume

/-! ### Steps of the background call -/

theorem newFileNumber_toNat (hlast : s.nextFileNumber + 1 < 2 ^ 64) : s.newFileNumber.toNat = s.nextFileNumber := by
  unfold FileStore.newFileNumber
  exact UInt64.toNat_ofNat_of_lt' (by simpa using lt_trans (Nat.lt_succ_self _) hlast)

theorem Between.startApply (h : Between s t.compaction) {edit : VersionEdit α} {purpose : ApplyFor α}
    (hpurpose : ∀ r, purpose ≠ .move r) (hedit : edit.logNumber.getD s.logNumber ≤ s.logfileNumber) :
    Sound s (some { t with pc := s.startApply edit purpose }) := by
  refine ⟨?_, ?_, ?_, ?_, h.logs, h.logfile, ?_, ?_⟩
  · cases purpose with
    | move r => exact absurd rfl (hpurpose r)
    | _ => simpa [BackgroundCall.holds, BackgroundCall.pcHolds, FileStore.startApply] using h.refs
  · rintro t' ⟨⟩ (hpc | ⟨edit', v, r, hpc⟩)
    · cases hpc
    · cases hpc
      exact absurd rfl (hpurpose r)
  · rintro t' ⟨⟩
    exact h.outputs
  · rintro t' ⟨⟩ number base ⟨⟩
  · rintro t' ⟨⟩ edit' v purpose' ⟨⟩
    exact hedit
  · rintro t' ⟨⟩ fs ⟨⟩

theorem Between.finishApply (h : Between s compaction) {edit : VersionEdit α} (v : Version α) (status : Status)
    (hedit : edit.logNumber.getD 0 ≤ s.logfileNumber) : Between (s.finishApply edit v status) compaction := by
  have hrefs := h.refs.finishApply edit v status
  unfold FileStore.finishApply at hrefs ⊢
  split
  · rename_i hok
    rw [if_pos hok] at hrefs
    exact ⟨hrefs, h.outputs, hedit, h.logfile⟩
  · exact h

/-- The compaction is over: its outputs need not be pending any more. -/
theorem Between.endCompaction {c : CompactionState α} (h : Between s (some c)) (t : BackgroundCall α) (status : Status) :
    Sound (t.endCompaction s c status).1 (t.endCompaction s c status).2 := by
  have hdone : ∀ s : FileStore α, Between s (some c) → Between ({ s with
      pendingOutputs := c.outputs.foldl (fun pending number => pending.erase number) s.pendingOutputs
      versions := unref c.inputVersion.1 s.versions } : FileStore α) none := fun s h => by
    have hrefs := h.refs
    simp only [Option.toList_some, List.map_singleton] at hrefs
    exact ⟨⟨hrefs.release.1, hrefs.release.2⟩, nofun, h.logs, h.logfile⟩
  unfold BackgroundCall.endCompaction
  dsimp only
  split
  · exact Between.collect (hdone s h)
  · exact Between.collect (hdone _ (h.recordBackgroundError status))

theorem Sound.startFlush (h : Sound s (some t)) (hpc : t.pc = .scheduled ∨ t.pc = .working)
    (hlast : s.nextFileNumber + 1 < 2 ^ 64) :
    Sound s.startFlush (some { t with pc := .buildTable s.newFileNumber s.current }) := by
  have hbetween := h.between (by rcases hpc with hpc | hpc <;> simp [BackgroundCall.pcHolds, hpc])
  have hnew := newFileNumber_toNat hlast
  refine ⟨?_, ?_, ?_, ?_, h.logs, Nat.lt_succ_of_lt h.logfile, ?_, ?_⟩
  · have hrefs := hbetween.refs.hold
    simp only [Option.toList_some, List.flatMap_singleton]
    exact ⟨hrefs.1, hrefs.2⟩
  · rintro t' ⟨⟩ (hpc' | ⟨edit, v, r, hpc'⟩) <;> cases hpc'
  · rintro t' ⟨⟩ c hc n hn
    obtain ⟨hpending, hlt⟩ := hbetween.outputs c hc n hn
    exact ⟨Finset.mem_insert_of_mem hpending, Nat.lt_succ_of_lt hlt⟩
  · rintro t' ⟨⟩ number base ⟨⟩
    refine ⟨Finset.mem_insert_self _ _, fun c hc hn => ?_⟩
    have hlt := (hbetween.outputs c hc _ hn).2
    omega
  · rintro t' ⟨⟩ edit v purpose ⟨⟩
  · rintro t' ⟨⟩ fs ⟨⟩

theorem Sound.finishTable (h : Sound s (some t)) {number : UInt64} {base : Reference (Version α)}
    (hpc : t.pc = .buildTable number base) (status : Status) (f : Option (Nat × FileMetaData α)) (shuttingDown : Bool) :
    Sound (t.finishTable s number base status f shuttingDown).1 (t.finishTable s number base status f shuttingDown).2 := by
  have hbuilt : ∀ keepsFile, Between (s.tableBuilt number base keepsFile) t.compaction := fun keepsFile => by
    have hrefs := h.release (r := base) (by simp [BackgroundCall.pcHolds, hpc])
    refine ⟨⟨hrefs.1, hrefs.2⟩, fun c hc n hn => ?_, h.logs, h.logfile⟩
    obtain ⟨hpending, hlt⟩ := h.outputs t rfl c hc n hn
    refine ⟨Finset.mem_erase.2 ⟨?_, hpending⟩, hlt⟩
    rintro rfl
    exact (h.building t rfl n base hpc).2 c hc hn
  unfold BackgroundCall.finishTable
  dsimp only
  split
  · exact ((hbuilt _).recordBackgroundError status).resume
  · split
    · exact ((hbuilt _).recordBackgroundError _).resume
    · exact (hbuilt _).startApply nofun (UInt64.le_refl _)

/-- What is needed does not depend on how far the loop of `RemoveObsoleteFiles` is. -/
theorem needed_removeFiles {fs fs' : List DbFile} {f : DbFile}
    (h : s.Needed [⟨.removeFiles fs, compaction⟩] f) : s.Needed [⟨.removeFiles fs', compaction⟩] f := by
  obtain ⟨type, number⟩ := f
  unfold FileStore.Needed at h ⊢
  cases type with
  | tableFile =>
    rcases h with hrefs | ⟨t, ht, hneeded⟩
    · exact .inl hrefs
    · obtain rfl := List.mem_singleton.1 ht
      refine .inr ⟨_, List.mem_singleton_self _, ?_⟩
      rcases hneeded with (⟨base, hpc⟩ | hc) | ⟨edit, v, purpose, hpc, -⟩
      · cases hpc
      · exact .inl (.inr hc)
      · cases hpc
  | _ => exact h

theorem Sound.disk (h : Sound s (some t)) (disk : List DbFile) : Sound { s with disk } (some t) :=
  ⟨⟨h.refs.1, h.refs.2⟩, h.idle, h.outputs, h.building, h.logs, h.logfile, h.applying, h.removing⟩

/-- **A step of the background call keeps the invariant.** -/
theorem Sound.ran (h : Sound s (some t)) {e : BackgroundEvent α} (hran : BackgroundCall.Ran s t e s' next) :
    Sound s' next := by
  cases hran with
  | nothingToDo hpc =>
    have hbetween := h.between (by simp [BackgroundCall.pcHolds, hpc])
    rw [h.idle t rfl (.inl hpc)] at hbetween
    exact hbetween.over
  | startFlush hpc hlast => exact h.startFlush hpc hlast
  | createTable hpc => exact h.disk _
  | finishTable hpc => exact h.finishTable hpc _ _ _
  | startCompaction hpc =>
    have hbetween := h.between (by simp [BackgroundCall.pcHolds, hpc])
    rw [h.idle t rfl (.inl hpc)] at hbetween
    refine Between.sound ⟨⟨hbetween.refs.hold.1, hbetween.refs.hold.2⟩, ?_, h.logs, h.logfile⟩ rfl
    rintro c ⟨⟩ n hn
    cases hn
  | moveFile hpc =>
    have hbetween := h.between (by simp [BackgroundCall.pcHolds, hpc])
    have hnone := h.idle t rfl (.inl hpc)
    refine ⟨?_, ?_, ?_, ?_, h.logs, h.logfile, ?_, ?_⟩
    · simp only [Option.toList_some, List.flatMap_singleton]
      exact ⟨hbetween.refs.hold.1, hbetween.refs.hold.2⟩
    · rintro t' ⟨⟩ -
      exact hnone
    · rintro t' ⟨⟩
      exact hbetween.outputs
    · rintro t' ⟨⟩ number base ⟨⟩
    · rintro t' ⟨⟩ edit v purpose ⟨⟩
      exact h.logs
    · rintro t' ⟨⟩ fs ⟨⟩
  | openOutput hpc hc hlast =>
    rename_i c
    have hbetween := h.between (by simp [BackgroundCall.pcHolds, hpc])
    rw [hc] at hbetween
    have hnew := newFileNumber_toNat hlast
    refine Between.sound ⟨⟨hbetween.refs.1, hbetween.refs.2⟩, ?_, h.logs, Nat.lt_succ_of_lt h.logfile⟩ hpc
    rintro c' ⟨⟩ n hn
    rcases List.mem_append.1 hn with hn | hn
    · obtain ⟨hpending, hlt⟩ := hbetween.outputs c rfl n hn
      exact ⟨Finset.mem_insert_of_mem hpending, Nat.lt_succ_of_lt hlt⟩
    · obtain rfl := List.mem_singleton.1 hn
      exact ⟨Finset.mem_insert_self _ _, by dsimp only; omega⟩
  | createOutput hpc => exact h.disk _
  | install hpc hc houtputs =>
    exact (h.between (by simp [BackgroundCall.pcHolds, hpc])).startApply nofun h.logs
  | abandon hpc hc =>
    have hbetween := h.between (by simp [BackgroundCall.pcHolds, hpc])
    rw [hc] at hbetween
    exact hbetween.endCompaction t _
  | flushed hpc =>
    rename_i edit v status
    have hbetween := (h.between (by simp [BackgroundCall.pcHolds, hpc])).finishApply v status
      (h.applying t rfl edit v .flush hpc)
    unfold BackgroundCall.afterFlush
    split
    · exact Between.collect ⟨⟨hbetween.refs.1, hbetween.refs.2⟩, hbetween.outputs, hbetween.logs, hbetween.logfile⟩
    · exact (hbetween.recordBackgroundError status).resume
  | moved hpc =>
    rename_i edit v status r
    have hnone := h.idle t rfl (.inr ⟨edit, v, r, hpc⟩)
    have hedit := h.applying t rfl edit v _ hpc
    have hrefs := h.refs
    simp only [Option.toList_some, List.flatMap_singleton, BackgroundCall.holds, BackgroundCall.pcHolds, hpc, hnone,
      Option.toList_none, List.map_nil, List.append_nil] at hrefs
    have happlied := hrefs.finishApply edit v status
    have hnumbers : (s.finishApply edit v status).logNumber ≤ (s.finishApply edit v status).logfileNumber ∧
        (s.finishApply edit v status).logfileNumber.toNat < (s.finishApply edit v status).nextFileNumber := by
      unfold FileStore.finishApply
      split
      · exact ⟨hedit, h.logfile⟩
      · exact ⟨h.logs, h.logfile⟩
    generalize s.finishApply edit v status = s₁ at happlied hnumbers ⊢
    have hreleased : Between { s₁ with versions := unref r.1 s₁.versions } none :=
      ⟨happlied.release, nofun, hnumbers.1, hnumbers.2⟩
    unfold BackgroundCall.afterMove FileStore.recordBackgroundError
    split
    · exact hreleased.over
    · split
      · exact Between.over ⟨⟨hreleased.refs.1, hreleased.refs.2⟩, nofun, hreleased.logs, hreleased.logfile⟩
      · exact hreleased.over
  | compacted hpc hc =>
    rename_i edit v status c
    have hbetween := (h.between (by simp [BackgroundCall.pcHolds, hpc])).finishApply v status
      (h.applying t rfl edit v .compaction hpc)
    rw [hc] at hbetween
    exact hbetween.endCompaction t status
  | removeFile hpc =>
    rename_i f fs
    obtain ⟨pc, compaction⟩ := t
    obtain rfl : pc = .removeFiles (f :: fs) := hpc
    refine ⟨⟨h.refs.1, h.refs.2⟩, ?_, ?_, ?_, h.logs, h.logfile, ?_, ?_⟩
    · rintro t' ⟨⟩ (hpc | ⟨edit, v, r, hpc⟩) <;> cases hpc
    · rintro t' ⟨⟩
      exact h.outputs ⟨.removeFiles (f :: fs), compaction⟩ rfl
    · rintro t' ⟨⟩ number base ⟨⟩
    · rintro t' ⟨⟩ edit v purpose ⟨⟩
    · rintro t' ⟨⟩ fs' ⟨⟩ g hg hneeded
      exact h.removing _ rfl _ rfl g (List.mem_cons_of_mem _ hg) (needed_removeFiles hneeded)
  | removed hpc => exact (h.between (by simp [BackgroundCall.pcHolds, hpc])).resume

/-! ### Steps of other threads -/

/-- Other threads only make files less needed. -/
theorem needed_of_step {calls : List (BackgroundCall α)} {e : StoreEvent} (hs : s.step e = some s') {f : DbFile}
    (hneeded : s'.Needed calls f) : s.Needed calls f := by
  have hof : s'.logNumber = s.logNumber → s'.prevLogNumber = s.prevLogNumber →
      (∀ r ∈ s'.references calls, r ∈ s.references calls) → s.Needed calls f := fun hlog hprev hrefs => by
    obtain ⟨type, number⟩ := f
    unfold FileStore.Needed at hneeded ⊢
    cases type with
    | tableFile =>
      refine hneeded.imp_left ?_
      rintro ⟨r, hr, hnumber⟩
      exact ⟨r, hrefs r hr, hnumber⟩
    | logFile => simpa only [hlog, hprev] using hneeded
    | _ => exact hneeded
  cases e with
  | switchMemTable created closed =>
    simp only [FileStore.step] at hs
    split at hs
    · obtain rfl := Option.some.inj hs
      unfold FileStore.switchMemTable FileStore.recordBackgroundError at hof
      refine hof ?_ ?_ ?_ <;> (repeat' split) <;> first | rfl | exact fun r hr => hr
    · cases hs
  | writeError status =>
    obtain rfl := Option.some.inj hs
    unfold FileStore.recordBackgroundError at hof
    refine hof ?_ ?_ ?_ <;> split <;> first | rfl | exact fun r hr => hr
  | refCurrent =>
    obtain rfl := Option.some.inj hs
    refine hof rfl rfl fun r hr => ?_
    rcases List.mem_cons.1 hr with rfl | hr
    · exact List.mem_cons_self
    · exact hr
  | unref reader =>
    simp only [FileStore.step] at hs
    split at hs
    · obtain rfl := Option.some.inj hs
      refine hof rfl rfl fun r hr => ?_
      simp only [FileStore.references, List.mem_cons, List.mem_append] at hr ⊢
      exact hr.imp_right (Or.imp_left List.mem_of_mem_eraseIdx)
    · cases hs

theorem Sound.recordBackgroundError {call : Option (BackgroundCall α)} (h : Sound s call) (status : Status) :
    Sound (s.recordBackgroundError status) call := by
  unfold FileStore.recordBackgroundError
  split
  · exact ⟨⟨h.refs.1, h.refs.2⟩, h.idle, h.outputs, h.building, h.logs, h.logfile, h.applying, h.removing⟩
  · exact h

/-- A new log file, with the next number. -/
theorem Sound.newLog {call : Option (BackgroundCall α)} (h : Sound s call) (hlast : s.nextFileNumber + 1 < 2 ^ 64)
    (disk : List DbFile) : Sound { s with
      nextFileNumber := s.nextFileNumber + 1, disk, logfileNumber := s.newFileNumber, hasImm := true } call := by
  have hnew := newFileNumber_toNat hlast
  have hle : s.logfileNumber ≤ s.newFileNumber := by
    have := h.logfile
    rw [UInt64.le_iff_toNat_le]
    omega
  refine ⟨⟨h.refs.1, h.refs.2⟩, h.idle, ?_, h.building, UInt64.le_trans h.logs hle, by dsimp only; omega, ?_, h.removing⟩
  · intro t ht c hc n hn
    obtain ⟨hpending, hlt⟩ := h.outputs t ht c hc n hn
    exact ⟨hpending, Nat.lt_succ_of_lt hlt⟩
  · intro t ht edit v purpose hpc
    exact UInt64.le_trans (h.applying t ht edit v purpose hpc) hle

theorem Sound.store {call : Option (BackgroundCall α)} (h : Sound s call) {e : StoreEvent} (hs : s.step e = some s') :
    Sound s' call := by
  have hneeded (t : BackgroundCall α) (f : DbFile) (ht : ¬ s.Needed [t] f) : ¬ s'.Needed [t] f := mt (needed_of_step hs) ht
  cases e with
  | switchMemTable created closed =>
    simp only [FileStore.step] at hs
    split at hs
    · rename_i htests
      simp only [FileStore.numbersLast, Bool.and_eq_true, decide_eq_true_eq] at htests
      obtain rfl := Option.some.inj hs
      unfold FileStore.switchMemTable
      split
      · exact h
      · split
        · exact h.newLog htests.2 _
        · have hrecorded := h.recordBackgroundError closed
          unfold FileStore.recordBackgroundError at hrecorded ⊢
          split
          · rw [if_pos ‹_›] at hrecorded
            exact hrecorded.newLog htests.2 _
          · exact h.newLog htests.2 _
    · cases hs
  | writeError status =>
    obtain rfl := Option.some.inj hs
    exact h.recordBackgroundError status
  | refCurrent =>
    obtain rfl := Option.some.inj hs
    exact ⟨h.refs.readerRef, h.idle, h.outputs, h.building, h.logs, h.logfile, h.applying,
      fun t ht fs hpc f hf => hneeded t f (h.removing t ht fs hpc f hf)⟩
  | unref reader =>
    simp only [FileStore.step] at hs
    split at hs
    · rename_i r hr
      obtain rfl := Option.some.inj hs
      exact ⟨h.refs.readerUnref hr, h.idle, h.outputs, h.building, h.logs, h.logfile, h.applying,
        fun t ht fs hpc f hf => hneeded t f (h.removing t ht fs hpc f hf)⟩
    · cases hs

end Invariant

end LevelDbSurf
