import LevelDbSurf.GroupCommit

/-!
# What a step of the write queue does

`Took` is `WriteQueue.step` branch by branch, with the tests each branch was taken under; whatever is to hold over a
run is proved from it, case by case, and lifted by `run_preserves`.
-/

namespace LevelDbSurf

variable {α : Type}

/-- The record of a group. -/
def WriteQueue.groupRecord (s : WriteQueue α) (g : Group α) : LogRecord α :=
  { writers := List.range' s.popped g.members, sequence := g.sequence, batch := g.batch }

/-- What the leader does with the mutex in hand again. -/
def WriteQueue.finishGroup (s : WriteQueue α) (g : Group α) (status : Status) (syncError : Bool) : WriteQueue α :=
  let s := if syncError then s.recordBackgroundError status else s
  { s with tmpBatch := if g.usesTmp then [] else s.tmpBatch, lastSequence := g.lastSequence }.popGroup g.members status

namespace WriteQueue

variable {env : WriteEnv α} {s s' : WriteQueue α}

/-- `step`, with the test of each branch. -/
inductive Took (env : WriteEnv α) (s : WriteQueue α) : WriteEvent α → WriteQueue α → Prop
  | call (w : Writer α) : Took env s (.call w) { s with calls := s.calls ++ [w] }
  | lead {w : Writer α} {rest : List (Writer α)} (hl : s.leader = none) (hw : s.writers = w :: rest) :
    Took env s .lead { s with leader := some (.makeRoom w.batch.isNone !w.batch.isNone) }
  | delay {force allowDelay : Bool} (hl : s.leader = some (.makeRoom force allowDelay)) :
    Took env s .delay { s with leader := some (.makeRoom force false) }
  | switchMemTable {force allowDelay : Bool} {created closed : Status} (hl : s.leader = some (.makeRoom force allowDelay))
    (hok : s.bgError.isOk = true) (himm : s.imm = none) :
    Took env s (.switchMemTable created closed) (s.switchMemTable allowDelay created closed)
  | roomError {force allowDelay : Bool} {w : Writer α} {rest : List (Writer α)}
    (hl : s.leader = some (.makeRoom force allowDelay)) (hw : s.writers = w :: rest) (hbad : s.bgError.isOk = false) :
    Took env s .room (s.popGroup 1 s.bgError)
  | room {force allowDelay : Bool} {w : Writer α} {rest : List (Writer α)}
    (hl : s.leader = some (.makeRoom force allowDelay)) (hw : s.writers = w :: rest) (hroom : s.hasRoom env force = true) :
    Took env s .room (s.afterRoom env w rest)
  | addRecord {g : Group α} {w : Writer α} {rest : List (Writer α)} {status : Status} (hl : s.leader = some (.addRecord g))
    (hw : s.writers = w :: rest) (hok : status.isOk = true) :
    Took env s (.addRecord status)
      { s with log := s.log ++ [s.groupRecord g], leader := some (if w.sync then .sync g else .insertInto g) }
  | addRecordError {g : Group α} {status : Status} (hl : s.leader = some (.addRecord g)) (hbad : status.isOk = false) :
    Took env s (.addRecord status) { s with leader := some (.relock g status false) }
  | sync {g : Group α} {status : Status} (hl : s.leader = some (.sync g)) (hok : status.isOk = true) :
    Took env s (.sync status) { s with log := syncLast s.log, leader := some (.insertInto g) }
  | syncError {g : Group α} {status : Status} (hl : s.leader = some (.sync g)) (hbad : status.isOk = false) :
    Took env s (.sync status) { s with leader := some (.relock g status true) }
  | insertInto {g : Group α} {status : Status} (hl : s.leader = some (.insertInto g)) (hok : status.isOk = true) :
    Took env s (.insertInto status)
      { s with
        mem := s.mem ++ Database.insertInto g.sequence g.batch
        inserted := s.inserted ++ Database.insertInto g.sequence g.batch
        leader := some (.relock g status false) }
  | insertIntoError {g : Group α} {status : Status} (hl : s.leader = some (.insertInto g)) (hbad : status.isOk = false) :
    Took env s (.insertInto status) { s with leader := some (.relock g status false) }
  | relock {g : Group α} {status : Status} {syncError : Bool} (hl : s.leader = some (.relock g status syncError)) :
    Took env s .relock (s.finishGroup g status syncError)
  | wake {i : Nat} {status : Status} (hi : s.done.lookup i = some status) :
    Took env s (.wake i)
      { s with done := s.done.filter fun x => decide (x.1 ≠ i), returned := s.returned ++ [(i, status)] }
  | compactMemTable {numLevel0Files : Nat} {imm : List (InternalKey α × Bytes)} (himm : s.imm = some imm) :
    Took env s (.compactMemTable numLevel0Files) { s with tables := s.tables ++ imm, imm := none, numLevel0Files }
  | compact (keep : InternalKey α × Bytes → Bool) (numLevel0Files : Nat) :
    Took env s (.compact keep numLevel0Files)
      { s with
        tables := s.tables.filter keep
        dropped := s.dropped ++ s.tables.filter fun x => !keep x
        numLevel0Files }

theorem took_of_step {e : WriteEvent α} (hs : s.step env e = some s') : Took env s e s' := by
  cases e with
  | call w =>
    obtain rfl := Option.some.inj hs
    exact .call w
  | lead =>
    simp only [step] at hs
    split at hs
    · rename_i w rest hl hw
      obtain rfl := Option.some.inj hs
      exact .lead hl hw
    · cases hs
  | delay =>
    simp only [step] at hs
    split at hs
    · rename_i force allowDelay hl
      split at hs
      · obtain rfl := Option.some.inj hs
        exact .delay hl
      · cases hs
    · cases hs
  | switchMemTable created closed =>
    simp only [step] at hs
    split at hs
    · rename_i force allowDelay hl
      split at hs
      · rename_i htests
        simp only [Bool.and_eq_true, Option.isNone_iff_eq_none] at htests
        obtain rfl := Option.some.inj hs
        exact .switchMemTable hl htests.1.1.1.1 htests.1.2
      · cases hs
    · cases hs
  | room =>
    simp only [step] at hs
    split at hs
    · rename_i force allowDelay w rest hl hw
      split at hs
      · rename_i hbad
        obtain rfl := Option.some.inj hs
        exact .roomError hl hw (by simpa using hbad)
      · split at hs
        · rename_i htests
          simp only [Bool.and_eq_true] at htests
          obtain rfl := Option.some.inj hs
          exact .room hl hw htests.2
        · cases hs
    · cases hs
  | addRecord status =>
    simp only [step] at hs
    split at hs
    · rename_i g w rest hl hw
      split at hs
      · rename_i hok
        obtain rfl := Option.some.inj hs
        exact .addRecord hl hw hok
      · rename_i hbad
        obtain rfl := Option.some.inj hs
        exact .addRecordError hl (by simpa using hbad)
    · cases hs
  | sync status =>
    simp only [step] at hs
    split at hs
    · rename_i g hl
      split at hs
      · rename_i hok
        obtain rfl := Option.some.inj hs
        exact .sync hl hok
      · rename_i hbad
        obtain rfl := Option.some.inj hs
        exact .syncError hl (by simpa using hbad)
    · cases hs
  | insertInto status =>
    simp only [step] at hs
    split at hs
    · rename_i g hl
      split at hs
      · rename_i hok
        obtain rfl := Option.some.inj hs
        exact .insertInto hl hok
      · rename_i hbad
        obtain rfl := Option.some.inj hs
        exact .insertIntoError hl (by simpa using hbad)
    · cases hs
  | relock =>
    simp only [step] at hs
    split at hs
    · rename_i g status syncError hl
      obtain rfl := Option.some.inj hs
      exact .relock hl
    · cases hs
  | wake i =>
    simp only [step] at hs
    split at hs
    · rename_i status hi
      obtain rfl := Option.some.inj hs
      exact .wake hi
    · cases hs
  | compactMemTable numLevel0Files =>
    simp only [step] at hs
    split at hs
    · rename_i imm himm
      obtain rfl := Option.some.inj hs
      exact .compactMemTable himm
    · cases hs
  | compact keep numLevel0Files =>
    obtain rfl := Option.some.inj hs
    exact .compact keep numLevel0Files

/-- Each event of a run meets a condition on the state it happens in. -/
def Always (env : WriteEnv α) (C : WriteQueue α → WriteEvent α → Prop) : WriteQueue α → List (WriteEvent α) → Prop
  | _, [] => True
  | s, e :: events =>
    C s e ∧
      match s.step env e with
      | some t => Always env C t events
      | none => True

theorem always_of_forall {C : WriteQueue α → WriteEvent α → Prop} {events : List (WriteEvent α)}
    (h : ∀ e ∈ events, ∀ t, C t e) (s : WriteQueue α) : Always env C s events := by
  induction events generalizing s with
  | nil => trivial
  | cons e events ih =>
    refine ⟨h e List.mem_cons_self s, ?_⟩
    split
    · exact ih (fun e' he' => h e' (List.mem_cons_of_mem _ he')) _
    · trivial

theorem Always.and {C D : WriteQueue α → WriteEvent α → Prop} {events : List (WriteEvent α)}
    (h : Always env C s events) (h' : Always env D s events) : Always env (fun t e => C t e ∧ D t e) s events := by
  induction events generalizing s with
  | nil => trivial
  | cons e events ih =>
    obtain ⟨hC, hrest⟩ := h
    obtain ⟨hD, hrest'⟩ := h'
    refine ⟨⟨hC, hD⟩, ?_⟩
    split
    · rename_i t ht
      simp only [ht] at hrest hrest'
      exact ih hrest hrest'
    · trivial

/-- What every step of a run keeps, the run keeps. -/
theorem run_preserves {C : WriteQueue α → WriteEvent α → Prop} {P : WriteQueue α → Prop} {events : List (WriteEvent α)}
    (hstep : ∀ e t t', C t e → P t → t.step env e = some t' → P t') (hC : Always env C s events) (h : P s)
    (hrun : s.run env events = some s') : P s' := by
  induction events generalizing s with
  | nil =>
    obtain rfl := Option.some.inj hrun
    exact h
  | cons e events ih =>
    unfold run at hrun
    rw [List.foldlM_cons] at hrun
    obtain ⟨t, ht, hrun⟩ := Option.bind_eq_some_iff.1 hrun
    obtain ⟨hCe, hrest⟩ := hC
    simp only [ht] at hrest
    exact ih hrest (hstep e s t hCe h ht) hrun

/-! ## Where the entries go -/

/-- The memtables and the tables, with what compactions left out of them. -/
def held (s : WriteQueue α) : List (InternalKey α × Bytes) := s.mem ++ s.imm.getD [] ++ s.tables ++ s.dropped

/-- From the one to the other, what is inserted is what comes to be held. -/
def Keeps (s s' : WriteQueue α) : Prop := ∃ new, s'.inserted = s.inserted ++ new ∧ s'.held.Perm (s.held ++ new)

theorem Keeps.of_eq (hinserted : s'.inserted = s.inserted) (hheld : s'.held.Perm s.held) : s.Keeps s' :=
  ⟨[], by rw [hinserted, List.append_nil], by rwa [List.append_nil]⟩

theorem Keeps.trans {t : WriteQueue α} (h : s.Keeps t) (h' : t.Keeps s') : s.Keeps s' := by
  obtain ⟨new, hinserted, hheld⟩ := h
  obtain ⟨new', hinserted', hheld'⟩ := h'
  refine ⟨new ++ new', by rw [hinserted', hinserted, List.append_assoc], ?_⟩
  rw [← List.append_assoc]
  exact hheld'.trans (hheld.append_right new')

@[simp] theorem recordBackgroundError_held (status : Status) : (s.recordBackgroundError status).held = s.held := by
  unfold recordBackgroundError
  split <;> rfl

@[simp] theorem recordBackgroundError_inserted (status : Status) :
    (s.recordBackgroundError status).inserted = s.inserted := by
  unfold recordBackgroundError
  split <;> rfl

theorem Keeps.step {e : WriteEvent α} (hs : s.step env e = some s') : s.Keeps s' := by
  cases took_of_step hs with
  | call w => exact .of_eq rfl (.refl _)
  | lead hl hw => exact .of_eq rfl (.refl _)
  | delay hl => exact .of_eq rfl (.refl _)
  | switchMemTable hl hok himm =>
    unfold switchMemTable
    split
    · exact .of_eq rfl (.refl _)
    · split
      · refine .of_eq rfl ?_
        simp [held, himm]
      · refine .of_eq (by simp) ?_
        simp [held, recordBackgroundError, hok, himm]
  | roomError hl hw hbad => exact .of_eq rfl (.refl _)
  | room hl hw hroom =>
    unfold afterRoom
    split
    · exact .of_eq rfl (.refl _)
    · exact .of_eq rfl (.refl _)
  | addRecord hl hw hok => exact .of_eq rfl (.refl _)
  | addRecordError hl hbad => exact .of_eq rfl (.refl _)
  | sync hl hok => exact .of_eq rfl (.refl _)
  | syncError hl hbad => exact .of_eq rfl (.refl _)
  | insertInto hl hok =>
    refine ⟨_, rfl, ?_⟩
    simp only [held, List.append_assoc]
    exact List.Perm.append_left _ (List.perm_append_comm.trans (by simp))
  | insertIntoError hl hbad => exact .of_eq rfl (.refl _)
  | relock hl =>
    rename_i g status syncError
    have hheld : (s.finishGroup g status syncError).held = s.held := by
      cases syncError with
      | true => exact recordBackgroundError_held status
      | false => rfl
    have hinserted : (s.finishGroup g status syncError).inserted = s.inserted := by
      cases syncError with
      | true => exact recordBackgroundError_inserted status
      | false => rfl
    exact .of_eq hinserted (by rw [hheld])
  | wake hi => exact .of_eq rfl (.refl _)
  | compactMemTable himm =>
    rename_i imm
    refine .of_eq rfl ?_
    have hswap : (s.tables ++ imm ++ s.dropped).Perm (imm ++ s.tables ++ s.dropped) :=
      List.perm_append_comm.append_right s.dropped
    simp only [held, himm, Option.getD_some, Option.getD_none, List.append_nil, List.append_assoc] at hswap ⊢
    exact hswap.append_left s.mem
  | compact keep numLevel0Files =>
    refine .of_eq rfl ?_
    have hsplit : (s.tables.filter keep ++ (s.dropped ++ s.tables.filter fun x => !keep x)).Perm (s.tables ++ s.dropped) := by
      refine (List.perm_append_comm.append_left _).trans ?_
      rw [← List.append_assoc]
      exact (List.filter_append_perm keep s.tables).append_right s.dropped
    simp only [held, List.append_assoc] at hsplit ⊢
    exact (hsplit.append_left _).append_left _

/-- **What is inserted is held**, over a run. -/
theorem Keeps.run {events : List (WriteEvent α)} (hrun : s.run env events = some s') : s.Keeps s' :=
  run_preserves (fun _ _ _ _ h ht => h.trans (.step ht)) (always_of_forall (fun _ _ _ => trivial) s)
    (.of_eq rfl (.refl _)) hrun

end WriteQueue

end LevelDbSurf
