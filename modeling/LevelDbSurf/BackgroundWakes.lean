import LevelDbSurf.BackgroundScheduling
import LevelDbSurf.DurableDatabase

/-!
# No wake-up is lost (`db_impl.cc:660-706`)

`background_work_finished_signal_` is signalled at the end of a background call, and after an error. So a thread may only
wait if there is a call to come. It waits for `imm_` to be flushed, for level 0 to shrink, for `manual_compaction_`, or for
the call itself; for each of these `MaybeScheduleCompaction` sees to it that a call is scheduled (`Sound.busy`). Level 0 is
due for compaction long before writers wait for it (`Sound.score`).

The background thread writes to a `ManualCompaction` after it has released the mutex many times. The frame is still there:
its owner does not return before the call is over, whatever error or shutdown has made it give up (`Sound.held`).
-/

namespace LevelDbSurf

open Doubles

variable {α : Type} [LinearOrder α]

/-! ## Scores -/

/-- Level 0 is due with as many files as this. -/
theorem one_le_levelScore {files : List (FileMetaData α)} (h : kL0_CompactionTrigger ≤ files.length) :
    1 ≤ levelScore 0 files := by
  have hfour : (2 : ℚ) ^ (2 : Int) ≤ files.length := by
    have hle : ((4 : Nat) : ℚ) ≤ files.length := by exact_mod_cast h
    norm_num at hle ⊢
    exact hle
  have hcount := Number.zpow_le_nearest (by norm_num) hfour
  have hone : (2 : ℚ) ^ (0 : Int) ≤ Number.nearest files.length / kL0_CompactionTrigger := by
    rw [le_div_iff₀ (by norm_num [kL0_CompactionTrigger])]
    norm_num [kL0_CompactionTrigger] at hcount ⊢
    exact hcount
  have hscore := Number.zpow_le_nearest (le_refl 0) hone
  rw [zpow_zero] at hscore
  exact hscore

/-- `Finalize` finds the best one. -/
theorem le_bestLevel (score : Nat → List (FileMetaData α) → ℚ) (v : Version α) {level : Nat}
    (hlevel : level + 1 < kNumLevels) : score level (v.files level) ≤ (bestLevel score v).2 := by
  have hmono : ∀ (levels : List Nat) (best : Nat × ℚ), (level ∈ levels ∨ score level (v.files level) ≤ best.2) →
      score level (v.files level) ≤ (levels.foldl (fun best level =>
        if score level (v.files level) > best.2 then (level, score level (v.files level)) else best) best).2 := by
    intro levels
    induction levels with
    | nil =>
      rintro best (h | h)
      · cases h
      · exact h
    | cons l levels ih =>
      intro best h
      refine ih _ ?_
      rw [List.mem_cons] at h
      rcases h with (rfl | h) | h
      · right
        dsimp only
        split
        · exact le_refl _
        · exact not_lt.1 ‹_›
      · exact Or.inl h
      · right
        dsimp only
        split
        · exact h.trans (le_of_lt ‹_›)
        · exact h
  exact hmono _ _ (Or.inl (List.mem_range.2 (by omega)))

/-- What writers wait for is a reason to compact. -/
def Version.Scored (v : Version α) : Prop :=
  kL0_CompactionTrigger ≤ (v.files 0).length → v.compactionScore ≥ 1

theorem Version.scored_finalize (v : Version α) : (finalize levelScore v).Scored := by
  intro h
  exact (one_le_levelScore h).trans (le_bestLevel levelScore v (by decide))

namespace Scheduler
variable {env : Environment α} {memory : WriteEnv α} {s s' : Scheduler α} {i k : Nat}

/-! ## What scheduling and signals leave alone -/

section Frames

/-- Nothing, or one more call. -/
theorem maybeScheduleCompaction_cases (s : Scheduler α) :
    s.maybeScheduleCompaction = s ∧
        (s.hasWork = true → s.scheduled = true ∨ s.shuttingDown = true ∨ s.bgError.isOk = false) ∨
      s.scheduled = false ∧
        s.maybeScheduleCompaction = { s with scheduled := true, work := s.work ++ [.queued] } := by
  unfold maybeScheduleCompaction
  by_cases hscheduled : s.scheduled = true
  · simp [hscheduled]
  · by_cases hdown : s.shuttingDown = true
    · simp [hscheduled, hdown]
    · by_cases hok : s.bgError.isOk = true
      · by_cases hwork : s.hasWork = true <;> simp [hscheduled, hdown, hok, hwork]
      · simp [hscheduled, hdown, hok]

@[simp] theorem maybeScheduleCompaction_db (s : Scheduler α) : s.maybeScheduleCompaction.db = s.db := by
  rcases s.maybeScheduleCompaction_cases with ⟨h, -⟩ | ⟨-, h⟩ <;> rw [h]

@[simp] theorem maybeScheduleCompaction_callers (s : Scheduler α) : s.maybeScheduleCompaction.callers = s.callers := by
  rcases s.maybeScheduleCompaction_cases with ⟨h, -⟩ | ⟨-, h⟩ <;> rw [h]

@[simp] theorem maybeScheduleCompaction_manual (s : Scheduler α) : s.maybeScheduleCompaction.manual = s.manual := by
  rcases s.maybeScheduleCompaction_cases with ⟨h, -⟩ | ⟨-, h⟩ <;> rw [h]

@[simp] theorem maybeScheduleCompaction_shuttingDown (s : Scheduler α) :
    s.maybeScheduleCompaction.shuttingDown = s.shuttingDown := by
  rcases s.maybeScheduleCompaction_cases with ⟨h, -⟩ | ⟨-, h⟩ <;> rw [h]

@[simp] theorem maybeScheduleCompaction_bgError (s : Scheduler α) : s.maybeScheduleCompaction.bgError = s.bgError := by
  rcases s.maybeScheduleCompaction_cases with ⟨h, -⟩ | ⟨-, h⟩ <;> rw [h]

@[simp] theorem maybeScheduleCompaction_faulted (s : Scheduler α) : s.maybeScheduleCompaction.faulted = s.faulted := by
  rcases s.maybeScheduleCompaction_cases with ⟨h, -⟩ | ⟨-, h⟩ <;> rw [h]

@[simp] theorem recordBackgroundError_db (s : Scheduler α) (status : Status) :
    (s.recordBackgroundError status).db = s.db := by
  unfold recordBackgroundError
  split <;> rfl

@[simp] theorem recordBackgroundError_work (s : Scheduler α) (status : Status) :
    (s.recordBackgroundError status).work = s.work := by
  unfold recordBackgroundError
  split <;> rfl

@[simp] theorem recordBackgroundError_scheduled (s : Scheduler α) (status : Status) :
    (s.recordBackgroundError status).scheduled = s.scheduled := by
  unfold recordBackgroundError
  split <;> rfl

@[simp] theorem recordBackgroundError_manual (s : Scheduler α) (status : Status) :
    (s.recordBackgroundError status).manual = s.manual := by
  unfold recordBackgroundError
  split <;> rfl

@[simp] theorem recordBackgroundError_faulted (s : Scheduler α) (status : Status) :
    (s.recordBackgroundError status).faulted = s.faulted := by
  unfold recordBackgroundError
  split <;> rfl

/-- Frames stay where they are when threads wake up. -/
theorem manualOf_signalAll (s : Scheduler α) (i : Nat) : s.signalAll.manualOf i = s.manualOf i := by
  unfold manualOf signalAll
  rw [List.getElem?_map, Option.bind_map]
  rfl

@[simp] theorem manualOf_maybeScheduleCompaction (s : Scheduler α) (i : Nat) :
    s.maybeScheduleCompaction.manualOf i = s.manualOf i := by
  unfold manualOf
  rw [maybeScheduleCompaction_callers]

@[simp] theorem manualOf_recordBackgroundError (s : Scheduler α) (status : Status) (i : Nat) :
    (s.recordBackgroundError status).manualOf i = s.manualOf i := by
  unfold recordBackgroundError
  split
  · exact manualOf_signalAll _ i
  · rfl

theorem manualOf_set (s : Scheduler α) (i : Nat) (c : Caller α) (j : Nat) (h : c.pc.frame = s.manualOf i) :
    ({ s with callers := s.callers.set i c } : Scheduler α).manualOf j = s.manualOf j := by
  unfold manualOf at h ⊢
  dsimp only
  by_cases hij : i = j
  · subst hij
    by_cases hlt : i < s.callers.length
    · rw [List.getElem?_set_self hlt, ← h]
      rfl
    · rw [List.set_eq_of_length_le (not_lt.1 hlt)]
  · rw [List.getElem?_set_ne hij]

theorem manualOf_set_ne (s : Scheduler α) {i j : Nat} (hij : i ≠ j) (c : Caller α) :
    ({ s with callers := s.callers.set i c } : Scheduler α).manualOf j = s.manualOf j := by
  unfold manualOf
  dsimp only
  rw [List.getElem?_set_ne hij]

end Frames

/-! ## The invariant -/

/-- It is a writer. -/
def isWriter : CallerPc α → Bool
  | .makeRoom .. => true
  | _ => false

/-- `is_manual`. -/
def isManual : WorkPc α → Bool
  | .compact manualEnd _ => manualEnd.isSome
  | .removeFiles manualEnd _ => manualEnd.isSome
  | _ => false

/-- What holds before `MaybeScheduleCompaction`, too: there is one background call, or none, as the flag says. A manual
compaction has a frame, and a call that works on one will find it in `manual_compaction_`. -/
structure Settled (s : Scheduler α) : Prop where
  calls : s.work.length = s.scheduled.toNat
  manual : ∀ i, s.manual = some i → (s.manualOf i).isSome = true
  held : ∀ pc ∈ s.work, isManual pc = true → s.manual.isSome = true
  scored : s.db.vset.current.Scored
  faulted : s.faulted = false

/-- There is a background call while there is work, and while anyone sleeps. -/
structure Sound (s : Scheduler α) : Prop extends Settled s where
  busy : s.hasWork = true → s.scheduled = true ∨ s.shuttingDown = true ∨ s.bgError.isOk = false
  asleep : ∀ c ∈ s.callers, c.asleep = true → s.scheduled = true ∨ s.shuttingDown = true ∧ isWriter c.pc = true

theorem Settled.congr (h : s.Settled) (hwork : s'.work = s.work) (hscheduled : s'.scheduled = s.scheduled)
    (hmanual : s'.manual = s.manual) (hframes : ∀ i, s'.manualOf i = s.manualOf i)
    (hscored : s'.db.vset.current.Scored) (hfaulted : s'.faulted = s.faulted) : s'.Settled where
  calls := by rw [hwork, hscheduled, h.calls]
  manual i hi := by rw [hframes, h.manual i (hmanual ▸ hi)]
  held pc hpc hm := by
    rw [hwork] at hpc
    rw [hmanual, h.held pc hpc hm]
  scored := hscored
  faulted := hfaulted.trans h.faulted

/-- The one call, if its place is asked for. -/
theorem Settled.single (h : s.Settled) {pc : WorkPc α} (hk : s.work[k]? = some pc) :
    k = 0 ∧ s.work = [pc] ∧ s.scheduled = true := by
  have hcalls := h.calls
  obtain ⟨hlt, hget⟩ := List.getElem?_eq_some_iff.1 hk
  cases hscheduled : s.scheduled with
  | false =>
    rw [hscheduled] at hcalls
    exact absurd (lt_of_lt_of_eq hlt hcalls) (Nat.not_lt_zero k)
  | true =>
    rw [hscheduled] at hcalls
    obtain ⟨pc', hwork⟩ := List.length_eq_one_iff.1 hcalls
    obtain rfl : k = 0 := Nat.lt_one_iff.1 (lt_of_lt_of_eq hlt hcalls)
    rw [hwork] at hk
    exact ⟨rfl, by rw [hwork, Option.some.inj hk], rfl⟩

theorem Settled.idle (h : s.Settled) (hscheduled : s.scheduled = false) : s.work = [] := by
  have hcalls := h.calls
  rw [hscheduled] at hcalls
  exact List.length_eq_zero_iff.1 hcalls

/-- **`MaybeScheduleCompaction`** sees to it that there is a call while there is work. -/
theorem Settled.maybeScheduleCompaction (h : s.Settled) :
    s.maybeScheduleCompaction.Settled ∧ (s.maybeScheduleCompaction.hasWork = true →
      s.maybeScheduleCompaction.scheduled = true ∨ s.maybeScheduleCompaction.shuttingDown = true ∨
        s.maybeScheduleCompaction.bgError.isOk = false) := by
  rcases s.maybeScheduleCompaction_cases with ⟨heq, hbusy⟩ | ⟨hidle, heq⟩
  · rw [heq]
    exact ⟨h, hbusy⟩
  · rw [heq]
    have hwork := h.idle hidle
    refine ⟨⟨?_, h.manual, ?_, h.scored, h.faulted⟩, fun _ => Or.inl rfl⟩
    · dsimp only
      rw [hwork]
      rfl
    · intro pc hpc hm
      dsimp only at hpc
      rw [hwork, List.nil_append, List.mem_singleton] at hpc
      rw [hpc] at hm
      cases hm

theorem Settled.scheduled_mono (s : Scheduler α) (hscheduled : s.scheduled = true) :
    s.maybeScheduleCompaction.scheduled = true := by
  rcases s.maybeScheduleCompaction_cases with ⟨heq, -⟩ | ⟨-, heq⟩
  · rw [heq, hscheduled]
  · rw [heq]

/-- The same, while others sleep. -/
theorem Settled.sound (h : s.Settled)
    (hasleep : ∀ c ∈ s.callers, c.asleep = true → s.scheduled = true ∨ s.shuttingDown = true ∧ isWriter c.pc = true) :
    s.maybeScheduleCompaction.Sound := by
  obtain ⟨hsettled, hbusy⟩ := h.maybeScheduleCompaction
  refine ⟨hsettled, hbusy, fun c hc hs => ?_⟩
  rw [maybeScheduleCompaction_callers] at hc
  rw [maybeScheduleCompaction_shuttingDown]
  exact (hasleep c hc hs).imp_left (Settled.scheduled_mono s)

theorem not_asleep_signalAll (s : Scheduler α) {c : Caller α} (hc : c ∈ s.signalAll.callers) : ¬ c.asleep = true := by
  unfold signalAll at hc
  obtain ⟨c', -, rfl⟩ := List.mem_map.1 hc
  exact Bool.false_ne_true

theorem Settled.signalAll (h : s.Settled) : s.signalAll.Settled :=
  h.congr rfl rfl rfl (manualOf_signalAll s) h.scored rfl

/-- **The end of a call** wakes everyone up, and there is another call if there is work left. -/
theorem Settled.endCall (h : s.Settled) {pc : WorkPc α} (hwork : s.work = [pc]) : (s.endCall 0).Sound := by
  have hended : ({ s with work := s.work.eraseIdx 0, scheduled := false } : Scheduler α).Settled := by
    rw [hwork]
    refine ⟨rfl, h.manual, ?_, h.scored, h.faulted⟩
    rintro pc' ⟨⟩
  obtain ⟨hsettled, hbusy⟩ := hended.maybeScheduleCompaction
  exact ⟨hsettled.signalAll, hbusy, fun c hc hs => absurd hs (not_asleep_signalAll _ hc)⟩

/-- **An error** wakes everyone up. -/
theorem Sound.recordBackgroundError (h : s.Sound) {status : Status} (hstatus : status.isOk = false) :
    (s.recordBackgroundError status).Sound := by
  unfold Scheduler.recordBackgroundError
  split
  · refine ⟨?_, fun _ => Or.inr (Or.inr hstatus), fun c hc hs => absurd hs (not_asleep_signalAll _ hc)⟩
    exact h.toSettled.congr rfl rfl rfl (manualOf_signalAll s) h.scored rfl
  · exact h

theorem Settled.recordBackgroundError (h : s.Settled) (status : Status) : (s.recordBackgroundError status).Settled :=
  h.congr (by simp) (by simp) (by simp) (manualOf_recordBackgroundError s status)
    ((recordBackgroundError_db s status).symm ▸ h.scored) (by simp)

/-- The background thread is elsewhere. -/
theorem Sound.setWork (h : s.Sound) {pc pc' : WorkPc α} (hwork : s.work = [pc])
    (hheld : isManual pc' = true → s.manual.isSome = true) :
    ({ s with work := s.work.set 0 pc' } : Scheduler α).Sound := by
  refine ⟨⟨?_, h.manual, ?_, h.scored, h.faulted⟩, h.busy, h.asleep⟩
  · dsimp only
    rw [List.length_set, h.calls]
  · intro pc₁ hpc hm
    dsimp only at hpc
    rw [hwork, List.set_cons_zero, List.mem_singleton] at hpc
    exact hheld (hpc ▸ hm)

/-- The tables change. -/
theorem Sound.withDb (h : s.Sound) {db : Database α} (himm : db.imm.isSome = true → s.db.imm.isSome = true)
    (hneeds : db.vset.current.needsCompaction = true → s.scheduled = true ∨ s.db.vset.current.needsCompaction = true)
    (hscored : db.vset.current.Scored) : ({ s with db } : Scheduler α).Sound := by
  refine ⟨h.toSettled.congr rfl rfl rfl (fun _ => rfl) hscored rfl, fun hwork => ?_, h.asleep⟩
  simp only [hasWork, Bool.or_eq_true] at hwork
  have hbusy := h.busy
  simp only [hasWork, Bool.or_eq_true] at hbusy
  rcases hwork with (hwork | hwork) | hwork
  · exact hbusy (Or.inl (Or.inl (himm hwork)))
  · exact hbusy (Or.inl (Or.inr hwork))
  · rcases hneeds hwork with hscheduled | hneeds
    · exact Or.inl hscheduled
    · exact hbusy (Or.inr hneeds)

/-! ## The callers -/

theorem manualOf_caller {c : Caller α} (hc : s.callers[i]? = some c) : s.manualOf i = c.pc.frame := by
  unfold manualOf
  rw [hc]
  rfl

/-- A caller without a frame, or with the one that it had, goes on. -/
theorem Sound.goTo (h : s.Sound) {pc : CallerPc α} (hframe : pc.frame = s.manualOf i) : (s.goTo i pc).Sound := by
  refine ⟨h.toSettled.congr rfl rfl rfl (manualOf_set s i _ · hframe) h.scored rfl, h.busy, fun c hc hs => ?_⟩
  rcases List.mem_or_eq_of_mem_set hc with hc | rfl
  · exact h.asleep c hc hs
  · cases hs

/-- A caller waits: there is a call to come, unless a writer has not noticed that the database is being deleted. -/
theorem Sound.wait (h : s.Sound) {pc : CallerPc α} (hframe : pc.frame = s.manualOf i)
    (hcall : s.scheduled = true ∨ s.shuttingDown = true ∧ isWriter pc = true) : (s.wait i pc).Sound := by
  refine ⟨h.toSettled.congr rfl rfl rfl (manualOf_set s i _ · hframe) h.scored rfl, h.busy, fun c hc hs => ?_⟩
  rcases List.mem_or_eq_of_mem_set hc with hc | rfl
  · exact h.asleep c hc hs
  · exact hcall

/-- Work, without an error. -/
theorem Sound.call_to_come (h : s.Sound) (hok : s.bgError.isOk = true) (hwork : s.hasWork = true) :
    s.scheduled = true ∨ s.shuttingDown = true := by
  rcases h.busy hwork with hscheduled | hdown | herror
  · exact Or.inl hscheduled
  · exact Or.inr hdown
  · rw [hok] at herror
    cases herror

theorem workOn_eq {db db' : Database α} (h : db.workOn = some db') :
    db'.vset = db.vset ∧ db'.imm = db.imm := by
  unfold Database.workOn at h
  split at h
  · cases h
  · split at h
    · cases h
    · split at h
      · cases h
        exact ⟨rfl, rfl⟩
      · cases h

theorem installCompaction_scored {db db' : Database α} (h : db.installCompaction env.scored = some db') :
    db'.vset.current.Scored := by
  unfold Database.installCompaction at h
  split at h
  · cases h
  · split at h
    · cases h
    · cases h
      exact Version.scored_finalize _

theorem switchMemTable_eq {db db' : Database α} (h : db.switchMemTable = some db') :
    db'.vset = db.vset ∧ db'.running = db.running := by
  unfold Database.switchMemTable at h
  split at h
  · cases h
    exact ⟨rfl, rfl⟩
  · cases h

/-- **`MakeRoomForWrite`.** -/
theorem Sound.makeRoom (h : s.Sound) {force allowDelay : Bool} {created closed : Status}
    (hnone : s.manualOf i = none) (hstep : s.makeRoom memory i force allowDelay created closed = some s') :
    s'.Sound := by
  have hreturn : (s.goTo i .returned).Sound := h.goTo hnone.symm
  unfold Scheduler.makeRoom at hstep
  dsimp only at hstep
  by_cases hok : s.bgError.isOk = true
  · simp only [hok, Bool.not_true, Bool.false_eq_true, if_false] at hstep
    split at hstep
    · cases hstep
      exact h.goTo hnone.symm
    · split at hstep
      · cases hstep
        exact hreturn
      · split at hstep
        · rename_i himm
          cases hstep
          exact h.wait hnone.symm ((h.call_to_come hok (by simp [hasWork, himm])).imp_right fun hdown => ⟨hdown, rfl⟩)
        · split at hstep
          · rename_i hfiles
            cases hstep
            -- level 0 is due long since
            have hdue := h.scored (le_trans (by decide) hfiles)
            exact h.wait hnone.symm ((h.call_to_come hok (by simp [hasWork, Version.needsCompaction, hdue])).imp_right
              fun hdown => ⟨hdown, rfl⟩)
          · split at hstep
            · cases hstep
              exact hreturn
            · obtain ⟨db, hdb, hstep⟩ := Option.bind_eq_some_iff.1 hstep
              cases hstep
              have hclosed : (if closed.isOk = true then s else s.recordBackgroundError closed).Sound := by
                split
                · exact h
                · rename_i hfailed
                  exact h.recordBackgroundError (by simpa using hfailed)
              have hframe : (if closed.isOk = true then s else s.recordBackgroundError closed).manualOf i = none := by
                split
                · exact hnone
                · rw [manualOf_recordBackgroundError, hnone]
              have hsame : (if closed.isOk = true then s else s.recordBackgroundError closed).db = s.db := by
                split
                · rfl
                · exact recordBackgroundError_db s closed
              generalize (if closed.isOk = true then s else s.recordBackgroundError closed) = t at hclosed hframe hsame ⊢
              have hscored : db.vset.current.Scored := by
                rw [(switchMemTable_eq hdb).1]
                exact h.scored
              refine Settled.sound (hclosed.toSettled.congr rfl rfl rfl (fun j => ?_) hscored rfl) fun c hc hs => ?_
              · exact manualOf_set { t with db } i _ j hframe.symm
              · rcases List.mem_or_eq_of_mem_set hc with hc | rfl
                · exact hclosed.asleep c hc hs
                · cases hs
  · simp only [hok] at hstep
    cases hstep
    exact hreturn

/-- `manual_compaction_` is taken. -/
theorem Sound.takeManual (h : s.Sound) {m : ManualCompaction α} (hframe : s.manualOf i = some m) :
    ({ s with manual := some i }.goTo i (.compactRange m)).maybeScheduleCompaction.Sound := by
  have hsame : ∀ j, ({ s with manual := some i }.goTo i (.compactRange m)).manualOf j = s.manualOf j := fun j =>
    manualOf_set { s with manual := some i } i _ j hframe.symm
  refine Settled.sound ⟨h.calls, ?_, fun pc hpc hm => rfl, h.scored, h.faulted⟩ fun c hc hs => ?_
  · rintro j ⟨⟩
    rw [hsame, hframe]
    rfl
  · rcases List.mem_or_eq_of_mem_set hc with hc | rfl
    · exact h.asleep c hc hs
    · cases hs

/-- `TEST_CompactRange` returns: there is no call that could use its frame. -/
theorem Sound.returnRange (h : s.Sound) (hscheduled : s.scheduled = false) :
    ({ s with manual := if s.manual = some i then none else s.manual }.goTo i .returned).Sound := by
  have hmanual : ∀ j, (if s.manual = some i then none else s.manual) = some j → i ≠ j ∧ s.manual = some j := by
    intro j hj
    by_cases hi : s.manual = some i
    · rw [if_pos hi] at hj
      cases hj
    · rw [if_neg hi] at hj
      refine ⟨?_, hj⟩
      rintro rfl
      exact hi hj
  refine ⟨⟨h.calls, fun j hj => ?_, fun pc hpc hm => ?_, h.scored, h.faulted⟩, fun hwork => ?_, fun c hc hs => ?_⟩
  · obtain ⟨hij, hj⟩ := hmanual j hj
    exact (congrArg Option.isSome (manualOf_set_ne s hij _)).trans (h.manual j hj)
  · change pc ∈ s.work at hpc
    rw [h.toSettled.idle hscheduled] at hpc
    cases hpc
  · refine h.busy ?_
    simp only [hasWork, Scheduler.goTo, Bool.or_eq_true] at hwork ⊢
    refine hwork.imp_left (Or.imp_right fun hsome => ?_)
    obtain ⟨j, hj⟩ := Option.isSome_iff_exists.1 hsome
    rw [(hmanual j hj).2]
    rfl
  · rcases List.mem_or_eq_of_mem_set hc with hc | rfl
    · exact h.asleep c hc hs
    · cases hs

/-- **A caller** that has the mutex. -/
theorem Sound.runCaller (h : s.Sound) {pc : CallerPc α} {created closed : Status}
    (hc : s.callers[i]? = some { pc }) (hstep : s.runCaller memory i created closed pc = some s') : s'.Sound := by
  have hframe := manualOf_caller hc
  cases pc with
  | makeRoom force allowDelay => exact h.makeRoom hframe hstep
  | compactMemTable =>
    simp only [Scheduler.runCaller] at hstep
    split at hstep
    · rename_i hif
      cases hstep
      simp only [Bool.and_eq_true, Bool.not_eq_true'] at hif
      refine h.wait hframe.symm (Or.inl ?_)
      exact (h.call_to_come hif.1.2 (by simp [hasWork, hif.1.1])).resolve_right (by simp [hif.2])
    · cases hstep
      exact h.goTo hframe.symm
  | compactRange m =>
    simp only [Scheduler.runCaller] at hstep
    split at hstep
    · rename_i hif
      simp only [Bool.and_eq_true, Bool.not_eq_true'] at hif
      split at hstep
      · cases hstep
        exact h.takeManual hframe
      · rename_i hbusy
        cases hstep
        have hmanual : s.manual.isSome = true := by
          cases hm : s.manual with
          | none => exact absurd (by rw [hm]; rfl) hbusy
          | some j => rfl
        refine h.wait hframe.symm (Or.inl ?_)
        exact (h.call_to_come hif.2 (by simp [hasWork, hmanual])).resolve_right (by simp [hif.1.2])
    · cases hstep
      exact h.goTo hframe.symm
  | finishRange m =>
    simp only [Scheduler.runCaller] at hstep
    split at hstep
    · rename_i hscheduled
      cases hstep
      exact h.wait hframe.symm (Or.inl hscheduled)
    · rename_i hidle
      cases hstep
      exact h.returnRange (by simpa using hidle)
  | close =>
    have hdown : ({ s with shuttingDown := true } : Scheduler α).Sound :=
      ⟨h.toSettled.congr rfl rfl rfl (fun _ => rfl) h.scored rfl, fun _ => Or.inr (Or.inl rfl),
        fun c hc hs => (h.asleep c hc hs).imp_right fun hw => ⟨rfl, hw.2⟩⟩
    simp only [Scheduler.runCaller] at hstep
    split at hstep
    · rename_i hscheduled
      cases hstep
      exact hdown.wait hframe.symm (Or.inl hscheduled)
    · cases hstep
      exact hdown.goTo hframe.symm
  | returned => cases hstep

/-! ## The background thread -/

section Background

theorem scored_logAndApply (env : Environment α) (db : Database α) (edit : VersionEdit α) :
    (db.logAndApply env.scored edit).vset.current.Scored := Version.scored_finalize _

/-- What `LogAndApply` installs is scored, and else the version stays. -/
theorem scored_startCompaction (env : Environment α) {db : Database α} (h : db.vset.current.Scored) (isManual : Bool)
    (smallestSnapshot : Nat) (c : Compaction α) {vset : VersionSet α} (hcurrent : vset.current = db.vset.current) :
    (db.startCompaction env.scored isManual smallestSnapshot c vset).vset.current.Scored := by
  unfold Database.startCompaction
  dsimp only
  split
  · split
    · exact scored_logAndApply env _ _
    · rw [hcurrent]
      exact h
  · rw [hcurrent]
    exact h

/-- The background thread has a call, so `busy` holds. -/
theorem Sound.working (h : s.Sound) (hscheduled : s.scheduled = true) {db : Database α} (hscored : db.vset.current.Scored) :
    ({ s with db } : Scheduler α).Sound :=
  ⟨h.toSettled.congr rfl rfl rfl (fun _ => rfl) hscored rfl, fun _ => Or.inl hscheduled, h.asleep⟩

/-- `manual_compaction_` is given up. -/
theorem Settled.dropManual (h : s.Settled) (m : ManualCompaction α) (pc : WorkPc α) (hwork : s.work = [pc]) :
    (({ s.setManual i m with manual := none } : Scheduler α).endCall 0).Sound := by
  -- the call does not look at it any more
  have hended : ({ s.setManual i m with manual := none, work := [.queued] } : Scheduler α).Settled := by
    refine ⟨?_, by rintro j ⟨⟩, ?_, h.scored, h.faulted⟩
    · have hcalls := h.calls
      rw [hwork] at hcalls
      exact hcalls
    · rintro pc' hpc hm
      rw [List.mem_singleton.1 hpc] at hm
      cases hm
  have hsound := hended.endCall rfl
  unfold Scheduler.endCall at hsound ⊢
  rw [show ({ s.setManual i m with manual := none } : Scheduler α).work = s.work from rfl, hwork]
  exact hsound

/-- **`BackgroundCall`**, until it releases the mutex. -/
theorem Sound.start (h : s.Sound) (hwork : s.work = [.queued]) (hscheduled : s.scheduled = true)
    {smallestSnapshot : Nat} {status : Status} (hstep : s.start env.scored 0 smallestSnapshot status = some s') :
    s'.Sound := by
  have hended := h.toSettled.endCall hwork
  unfold Scheduler.start at hstep
  split at hstep
  · cases hstep
    exact hended
  · split at hstep
    · cases hstep
      exact h.setWork hwork (by rintro ⟨⟩)
    · cases hmanual : s.manual with
      | some i =>
        simp only [hmanual] at hstep
        obtain ⟨m, hm⟩ := Option.isSome_iff_exists.1 (h.manual i hmanual)
        simp only [hm] at hstep
        obtain ⟨r, hr, hstep⟩ := Option.bind_eq_some_iff.1 hstep
        cases r with
        | none =>
          cases hstep
          exact h.toSettled.dropManual _ _ hwork
        | some r =>
          obtain ⟨c, vset⟩ := r
          obtain ⟨inputs, -, -, hsetup⟩ := VersionSet.compactRange_cases hr
          obtain ⟨f, hf, hstep⟩ := Option.bind_eq_some_iff.1 hstep
          cases hstep
          have hcurrent := VersionSet.setupOtherInputs_current hsetup
          exact (h.working hscheduled (scored_startCompaction env h.scored true _ c hcurrent)).setWork hwork fun _ => by
            rw [hmanual]
            rfl
      | none =>
        simp only [hmanual] at hstep
        obtain ⟨r, hr, hstep⟩ := Option.map_eq_some_iff.1 hstep
        cases r with
        | none =>
          obtain rfl : s.endCall 0 = s' := hstep
          exact hended
        | some r =>
          obtain ⟨c, vset⟩ := r
          obtain ⟨level, f, inputs0, -, -, hsetup⟩ := VersionSet.pickCompaction_cases hr
          have hcurrent := VersionSet.setupOtherInputs_current hsetup
          have hstarted := h.working hscheduled
            (scored_startCompaction env h.scored false smallestSnapshot c hcurrent)
          simp only [startPicked] at hstep
          split at hstep
          · split at hstep
            · obtain rfl := hstep
              exact hstarted.toSettled.endCall hwork
            · obtain rfl := hstep
              have hscored : ({ s.db with vset } : Database α).vset.current.Scored := hcurrent.symm ▸ h.scored
              have hmoved := h.working hscheduled hscored
              exact (hmoved.toSettled.recordBackgroundError status).endCall
                ((recordBackgroundError_work _ _).trans hwork)
          · obtain rfl := hstep
            exact hstarted.setWork hwork (by rintro ⟨⟩)

theorem compactMemTable_scored {db db' : Database α} {fileSize : UInt64}
    (h : db.compactMemTable env.scored fileSize = some db') : db'.vset.current.Scored := by
  unfold Database.compactMemTable at h
  split at h
  · cases h
  · split at h
    · cases h
      exact Version.scored_finalize _
    · cases h

/-- **`CompactMemTable`.** -/
theorem Sound.compactMemTable (h : s.Sound) (hscheduled : s.scheduled = true) {fileSize : UInt64}
    {status status' : Status} (hstep : s.compactMemTable env.scored fileSize status = some (s', status')) :
    s'.Sound ∧ s'.work = s.work ∧ s'.scheduled = true ∧ s'.manual = s.manual := by
  unfold Scheduler.compactMemTable at hstep
  dsimp only at hstep
  generalize (if (status.isOk && s.shuttingDown) = true then
    Status.ioError "Deleting DB during memtable compaction" else status) = status₁ at hstep
  split at hstep
  · obtain ⟨db, hdb, hstep⟩ := Option.map_eq_some_iff.1 hstep
    cases hstep
    exact ⟨h.working hscheduled (compactMemTable_scored hdb), rfl, hscheduled, rfl⟩
  · rename_i hfailed
    split at hstep
    swap
    · cases hstep
    cases hstep
    have hnumber : ({ s with db := { s.db with nextFileNumber := s.db.nextFileNumber + 1 } } : Scheduler α).Sound :=
      h.working hscheduled h.scored
    exact ⟨hnumber.recordBackgroundError (by simpa using hfailed), recordBackgroundError_work _ _,
      (recordBackgroundError_scheduled _ _).trans hscheduled, recordBackgroundError_manual _ _⟩

theorem Sound.signalAll (h : s.Sound) : s.signalAll.Sound :=
  ⟨h.toSettled.signalAll, h.busy, fun _ hc hs => absurd hs (not_asleep_signalAll s hc)⟩

theorem Sound.flush (h : s.Sound) {pc : WorkPc α} (hwork : s.work = [pc]) (hscheduled : s.scheduled = true)
    {fileSize : UInt64} {status : Status} (hstep : s.flush env.scored 0 fileSize status pc = some s') : s'.Sound := by
  cases pc with
  | compactMemTable =>
    simp only [Scheduler.flush] at hstep
    obtain ⟨⟨t, status'⟩, ht, hstep⟩ := Option.bind_eq_some_iff.1 hstep
    obtain ⟨hsound, hsame, -, -⟩ := h.compactMemTable hscheduled ht
    rw [hwork] at hsame
    dsimp only at hstep
    split at hstep
    · cases hstep
      exact hsound.setWork hsame (by rintro ⟨⟩)
    · cases hstep
      exact hsound.toSettled.endCall hsame
  | compact manualEnd flushed =>
    cases flushed with
    | true => cases hstep
    | false =>
      simp only [Scheduler.flush] at hstep
      split at hstep
      · obtain ⟨⟨t, status'⟩, ht, hstep⟩ := Option.bind_eq_some_iff.1 hstep
        obtain ⟨hsound, hsame, -, hmanual⟩ := h.compactMemTable hscheduled ht
        cases hstep
        refine (hsound.setWork (hsame.trans hwork) fun hm => ?_).signalAll
        rw [hmanual]
        exact h.held (.compact manualEnd false) (by rw [hwork]; exact List.mem_singleton_self _) hm
      · cases hstep
  | _ => cases hstep

/-- A compaction that is given up. -/
theorem Sound.abandon (h : s.Sound) {manualEnd : Option (InternalKey α)} {flushed : Bool}
    (hwork : s.work = [.compact manualEnd flushed]) {status : Status} (hfailed : status.isOk = false) :
    (s.abandon 0 manualEnd status).Sound := by
  have hheld := h.held _ (by rw [hwork]; exact List.mem_singleton_self _)
  have hdb : ({ s with db := { s.db with running := none } } : Scheduler α).Sound :=
    h.withDb id (fun hneeds => Or.inr hneeds) h.scored
  have hset : ({ s with
      db := { s.db with running := none }
      work := s.work.set 0 (.removeFiles manualEnd status) } : Scheduler α).Sound := hdb.setWork hwork hheld
  exact hset.recordBackgroundError hfailed

theorem Sound.workOn (h : s.Sound) {pc : WorkPc α} (hwork : s.work = [pc]) (hscheduled : s.scheduled = true)
    {status : Status} (hstep : s.workOn 0 status pc = some s') : s'.Sound := by
  cases pc with
  | compact manualEnd flushed =>
    have hheld := h.held _ (by rw [hwork]; exact List.mem_singleton_self _)
    simp only [Scheduler.workOn] at hstep
    split at hstep
    · cases hstep
    · split at hstep
      · obtain ⟨db, hdb, rfl⟩ := Option.map_eq_some_iff.1 hstep
        have hscored : db.vset.current.Scored := by
          rw [(workOn_eq hdb).1]
          exact h.scored
        exact (h.working hscheduled hscored).setWork hwork hheld
      · rename_i hfailed
        split at hstep
        · cases hstep
          exact h.abandon hwork (by simpa using hfailed)
        · cases hstep
  | _ => cases hstep

theorem Sound.finish (h : s.Sound) {pc : WorkPc α} (hwork : s.work = [pc]) (hscheduled : s.scheduled = true)
    {status : Status} (hstep : s.finish env.scored 0 status pc = some s') : s'.Sound := by
  cases pc with
  | compact manualEnd flushed =>
    have hheld := h.held _ (by rw [hwork]; exact List.mem_singleton_self _)
    simp only [Scheduler.finish] at hstep
    generalize (if (status.isOk && s.shuttingDown) = true then Status.ioError "Deleting DB during compaction"
      else status) = status' at hstep
    split at hstep
    · obtain ⟨db, hdb, rfl⟩ := Option.map_eq_some_iff.1 hstep
      exact (h.working hscheduled (installCompaction_scored hdb)).setWork hwork hheld
    · rename_i hfailed
      split at hstep
      · cases hstep
        exact h.abandon hwork (by simpa using hfailed)
      · cases hstep
  | _ => cases hstep

theorem Sound.removed (h : s.Sound) {pc : WorkPc α} (hwork : s.work = [pc]) (hstep : s.removed 0 pc = some s') :
    s'.Sound := by
  cases pc with
  | removeFiles manualEnd status =>
    cases manualEnd with
    | none =>
      cases hstep
      exact h.toSettled.endCall hwork
    | some manualEnd =>
      -- it is there still
      obtain ⟨i, hi⟩ := Option.isSome_iff_exists.1
        (h.held _ (by rw [hwork]; exact List.mem_singleton_self _) rfl)
      obtain ⟨m, hm⟩ := Option.isSome_iff_exists.1 (h.manual i hi)
      cases hstep
      simp only [Scheduler.endManual, hi, hm]
      exact h.toSettled.dropManual _ _ hwork
  | _ => cases hstep

end Background

/-! ## All steps -/

/-- **Step.** -/
theorem Sound.step (h : s.Sound) {event : SchedulerEvent α} (hstep : s.step env memory event = some s') : s'.Sound := by
  cases event with
  | write batch =>
    simp only [Scheduler.step] at hstep
    split at hstep
    swap
    · cases hstep
    obtain ⟨db, hdb, rfl⟩ := Option.map_eq_some_iff.1 hstep
    have hsame : db.vset = s.db.vset ∧ db.imm = s.db.imm := by
      unfold Database.write at hdb
      split at hdb
      · cases hdb
        exact ⟨rfl, rfl⟩
      · cases hdb
    exact h.withDb (by rw [hsame.2]; exact id) (by rw [hsame.1]; exact Or.inr) (by rw [hsame.1]; exact h.scored)
  | chargeSeek level f =>
    simp only [Scheduler.step] at hstep
    split at hstep
    swap
    · cases hstep
    obtain ⟨db, hdb, rfl⟩ := Option.map_eq_some_iff.1 hstep
    have hscored : db.vset.current.Scored := by
      unfold Database.chargeSeek at hdb
      split at hdb
      · cases hdb
        exact h.scored
      · cases hdb
    exact Settled.sound (h.toSettled.congr rfl rfl rfl (fun _ => rfl) hscored rfl) h.asleep
  | chargeOther =>
    cases hstep
    exact h.toSettled.sound h.asleep
  | recordError status =>
    simp only [Scheduler.step] at hstep
    split at hstep
    · cases hstep
    · rename_i hfailed
      cases hstep
      exact h.recordBackgroundError (by simpa using hfailed)
  | call c =>
    simp only [Scheduler.step] at hstep
    split at hstep
    · cases hstep
      have hframes : ∀ i, s.manual = some i → (Scheduler.manualOf { s with callers := s.callers ++ [{ pc := c.entry }] }
          i).isSome = true := by
        intro i hi
        obtain ⟨m, hm⟩ := Option.isSome_iff_exists.1 (h.manual i hi)
        unfold Scheduler.manualOf at hm ⊢
        obtain ⟨caller, hcaller, -⟩ := Option.bind_eq_some_iff.1 hm
        dsimp only
        rw [List.getElem?_append_left (List.getElem?_eq_some_iff.1 hcaller).1, hm]
        rfl
      refine ⟨⟨h.calls, hframes, h.held, h.scored, h.faulted⟩, h.busy, fun c' hc hs => ?_⟩
      rcases List.mem_append.1 hc with hc | hc
      · exact h.asleep c' hc hs
      · rw [List.mem_singleton.1 hc] at hs
        cases hs
    · cases hstep
  | run i created closed =>
    simp only [Scheduler.step] at hstep
    split at hstep
    · rename_i pc hc
      exact h.runCaller hc hstep
    · cases hstep
  | wakeUp i =>
    cases hstep
    refine ⟨h.toSettled.congr rfl rfl rfl (fun j => ?_) h.scored rfl, h.busy, fun c hc hs => ?_⟩
    · unfold Scheduler.manualOf
      dsimp only
      rw [List.getElem?_modify]
      split
      · cases s.callers[j]? <;> rfl
      · simp
    · obtain ⟨j, hj⟩ := List.mem_iff_getElem?.1 hc
      rw [List.getElem?_modify] at hj
      obtain ⟨c', hc', hj⟩ := Option.map_eq_some_iff.1 hj
      split at hj
      · rw [← hj] at hs
        cases hs
      · exact h.asleep c (hj ▸ List.mem_of_getElem? hc') hs
  | start k smallestSnapshot status =>
    simp only [Scheduler.step] at hstep
    split at hstep
    · rename_i hk
      obtain ⟨rfl, hwork, hscheduled⟩ := h.toSettled.single hk
      split at hstep
      · exact h.start hwork hscheduled hstep
      · cases hstep
    · cases hstep
  | flush k fileSize status =>
    obtain ⟨pc, hk, hstep⟩ := Option.bind_eq_some_iff.1 hstep
    obtain ⟨rfl, hwork, hscheduled⟩ := h.toSettled.single hk
    exact h.flush hwork hscheduled hstep
  | workOn k status =>
    obtain ⟨pc, hk, hstep⟩ := Option.bind_eq_some_iff.1 hstep
    obtain ⟨rfl, hwork, hscheduled⟩ := h.toSettled.single hk
    exact h.workOn hwork hscheduled hstep
  | finish k status =>
    obtain ⟨pc, hk, hstep⟩ := Option.bind_eq_some_iff.1 hstep
    obtain ⟨rfl, hwork, hscheduled⟩ := h.toSettled.single hk
    exact h.finish hwork hscheduled hstep
  | removed k =>
    obtain ⟨pc, hk, hstep⟩ := Option.bind_eq_some_iff.1 hstep
    obtain ⟨rfl, hwork, hscheduled⟩ := h.toSettled.single hk
    exact h.removed hwork hstep

/-- **Run.** -/
theorem Sound.run {events : List (SchedulerEvent α)} {states : List (Scheduler α)} (h : s.Sound)
    (hrun : s.run env memory events = some states) : ∀ s' ∈ states, s'.Sound := by
  induction events generalizing s states with
  | nil =>
    obtain rfl := Option.some.inj hrun
    simpa using h
  | cons event events ih =>
    obtain ⟨s', hstep, hrun⟩ := Option.bind_eq_some_iff.1 hrun
    obtain ⟨rest, hrest, hrun⟩ := Option.bind_eq_some_iff.1 hrun
    obtain rfl := Option.some.inj hrun
    simp only [List.mem_cons, forall_eq_or_imp]
    exact ⟨h, ih (h.step hstep) hrest⟩

/-- The end of `Open`. -/
theorem sound_opened {db : Database α} (hscored : db.vset.current.Scored) : (opened db).Sound := by
  have hsettled : ({ db } : Scheduler α).Settled :=
    ⟨rfl, by rintro i ⟨⟩, by rintro pc ⟨⟩, hscored, rfl⟩
  exact hsettled.sound (by rintro c ⟨⟩)

end Scheduler

/-! ## What `Open` returns -/

section Open

/-- The version is scored, and no seek is charged. -/
def Version.Finalized (env : Environment α) (v : Version α) : Prop :=
  ∃ w : Version α, v = finalize env.score w ∧ w.fileToCompact = none

theorem LoggedVersionSet.recover_finalized {env : Environment α} {vset vset' : LoggedVersionSet α}
    {records : List (VersionEdit α)} (h : vset.recover env.score records = .ok vset') :
    vset'.current.Finalized env := by
  unfold LoggedVersionSet.recover at h
  split at h
  · cases h
  · split at h <;> cases h
    exact ⟨_, rfl, rfl⟩

theorem Directory.recoverFrom_finalized {env : Environment α} {o : OpenCall α} {dir : Directory α} {number : UInt64}
    {records : List (VersionEdit α)} {vset : LoggedVersionSet α} {st : Recovering α}
    (h : dir.recoverFrom env o number records = .ok (vset, st)) : vset.current.Finalized env := by
  unfold Directory.recoverFrom at h
  dsimp only [bind, Except.bind] at h
  split at h
  · cases h
  · rename_i r hversions
    obtain ⟨vset₁, save⟩ := r
    have hfinal : vset₁.current.Finalized env := by
      unfold Directory.recoverVersions at hversions
      split at hversions
      · cases hversions
      · rename_i vset₂ hrecover
        have hfinal := LoggedVersionSet.recover_finalized hrecover
        split at hversions <;> cases hversions <;> exact hfinal
    split at h
    · cases h
    · split at h
      · cases h
      · cases h
        exact hfinal

theorem Directory.openDB_finalized {env : Environment α} {o : OpenCall α} {dir : Directory α} {s : DurableDatabase α}
    (h : dir.openDB env o = .ok s) : s.db.vset.current.Finalized env ∧ s.db.running = none ∧ s.db.imm = none := by
  unfold Directory.openDB at h
  dsimp only [bind, Except.bind] at h
  split at h
  · cases h
  · rename_i r hrecover
    obtain ⟨vset, st⟩ := r
    have hfinal : vset.current.Finalized env := by
      unfold Directory.recover at hrecover
      split at hrecover
      · split at hrecover
        · exact Directory.recoverFrom_finalized hrecover
        · cases hrecover
      · split at hrecover
        · cases hrecover
        · exact Directory.recoverFrom_finalized hrecover
    cases h
    refine ⟨?_, rfl, rfl⟩
    dsimp only
    split
    · exact ⟨_, rfl, rfl⟩
    · exact hfinal

end Open

namespace Scheduler

/-- A database that `Open` has returned, of whatever directory, after any steps of any threads. -/
def Reached (env : Environment α) (memory : WriteEnv α) (s : Scheduler α) : Prop :=
  ∃ (dir : Directory α) (o : OpenCall α) (s₀ : DurableDatabase α) (events : List (SchedulerEvent α))
    (states : List (Scheduler α)), dir.openDB env.scored o = .ok s₀ ∧
    (opened s₀.db).run env memory events = some states ∧ s ∈ states

theorem Reached.sound {env : Environment α} {memory : WriteEnv α} {s : Scheduler α} (h : Reached env memory s) :
    s.Sound := by
  obtain ⟨dir, o, s₀, events, states, hopen, hrun, hs⟩ := h
  obtain ⟨⟨w, hw, -⟩, -⟩ := Directory.openDB_finalized hopen
  have hscored : s₀.db.vset.current.Scored := hw ▸ Version.scored_finalize w
  exact (sound_opened hscored).run hrun s hs

/-- **No wake-up is lost.** There is one background call at most. There is one while there is work, unless an error or the
destructor forbids it; and there is one while any thread sleeps, but for writers that do not notice that the database is
being deleted. -/
theorem sleepers_have_a_call {env : Environment α} {memory : WriteEnv α} {s : Scheduler α} (h : Reached env memory s) :
    s.work.length ≤ 1 ∧
      (s.hasWork = true → s.shuttingDown = false → s.bgError.isOk = true → s.work.length = 1) ∧
      ∀ c ∈ s.callers, c.asleep = true →
        s.work.length = 1 ∨ s.shuttingDown = true ∧ ∃ force allowDelay, c.pc = .makeRoom force allowDelay := by
  have hsound := h.sound
  have hcall : s.scheduled = true → s.work.length = 1 := fun hscheduled => by rw [hsound.calls, hscheduled]; rfl
  refine ⟨?_, fun hwork hup hok => ?_, fun c hc hs => ?_⟩
  · rw [hsound.calls]
    cases s.scheduled <;> decide
  · refine hcall ((hsound.call_to_come hok hwork).resolve_right ?_)
    rw [hup]
    exact Bool.false_ne_true
  · refine (hsound.asleep c hc hs).imp hcall fun ⟨hdown, hwriter⟩ => ⟨hdown, ?_⟩
    cases hpc : c.pc with
    | makeRoom force allowDelay => exact ⟨force, allowDelay, rfl⟩
    | _ =>
      rw [hpc] at hwriter
      cases hwriter

/-- **No dangling frame.** The background thread never uses a `ManualCompaction` after `TEST_CompactRange` has
returned: `manual_compaction_` always points to a frame that is still there, and is not null while a call works on it. -/
theorem never_faulted {env : Environment α} {memory : WriteEnv α} {s : Scheduler α} (h : Reached env memory s) :
    s.faulted = false ∧ (∀ i, s.manual = some i → ∃ m, s.manualOf i = some m) ∧
      ∀ pc ∈ s.work, isManual pc = true → ∃ i m, s.manual = some i ∧ s.manualOf i = some m := by
  have hsound := h.sound
  have hframe : ∀ i, s.manual = some i → ∃ m, s.manualOf i = some m := fun i hi =>
    Option.isSome_iff_exists.1 (hsound.manual i hi)
  refine ⟨hsound.faulted, hframe, fun pc hpc hm => ?_⟩
  obtain ⟨i, hi⟩ := Option.isSome_iff_exists.1 (hsound.held pc hpc hm)
  obtain ⟨m, hm⟩ := hframe i hi
  exact ⟨i, m, hi, hm⟩

end Scheduler

end LevelDbSurf
