import LevelDbSurf.GroupCommitOrder

/-!
# `TEST_CompactMemTable`: when the request for a flush is honoured (`db_impl.cc:643-658`)

The request is a writer with a null batch. Only a leader switches the memtable, and `BuildBatchGroup` takes null batches
into the group of another leader, where they count for nothing. So the request does its work if it comes to lead, which
it does when no group is built past it (`Spares`); a group that takes it in leaves the memtable as it is, and the request
returns OK with `imm_` null.
-/

namespace LevelDbSurf

variable {α : Type}

/-! ## Where a group ends -/

section Groups
variable (env : WriteEnv α)

/-- What a writer adds to the size of a group. -/
def Writer.byteSize (w : Writer α) : Nat := (w.batch.map env.byteSize).getD 0

/-- Writer `k` behind the leader ends the loop of `BuildBatchGroup`: it asks for `sync` and the leader did not, or with it
the group gets too big. -/
def StopsAt (firstSync : Bool) (maxSize size : Nat) (ws : List (Writer α)) (k : Nat) : Prop :=
  ∃ w, ws[k]? = some w ∧
    ((w.sync = true ∧ firstSync = false) ∨
      (w.batch.isSome = true ∧ maxSize < size + ((ws.take (k + 1)).map (Writer.byteSize env)).sum))

variable {env} {firstSync : Bool} {maxSize size : Nat} {w : Writer α} {ws : List (Writer α)}

theorem stopsAt_zero : StopsAt env firstSync maxSize size (w :: ws) 0 ↔
    (w.sync = true ∧ firstSync = false) ∨ (w.batch.isSome = true ∧ maxSize < size + w.byteSize env) := by
  simp [StopsAt]

theorem stopsAt_succ {k : Nat} : StopsAt env firstSync maxSize size (w :: ws) (k + 1) ↔
    StopsAt env firstSync maxSize (size + w.byteSize env) ws k := by
  simp [StopsAt, Nat.add_assoc]

/-- A writer that does not stop the loop joins, and what comes behind it is counted from there. -/
theorem exists_stopsAt_succ (hw : ¬ StopsAt env firstSync maxSize size (w :: ws) 0) (k : Nat) :
    (∃ j ≤ k + 1, StopsAt env firstSync maxSize size (w :: ws) j) ↔
      ∃ j ≤ k, StopsAt env firstSync maxSize (size + w.byteSize env) ws j := by
  constructor
  · rintro ⟨j, hj, hstop⟩
    cases j with
    | zero => exact absurd hstop hw
    | succ j => exact ⟨j, by omega, stopsAt_succ.1 hstop⟩
  · rintro ⟨j, hj, hstop⟩
    exact ⟨j + 1, by omega, stopsAt_succ.2 hstop⟩

/-- **Which writers are left out**: those from the first one on that stops the loop. -/
theorem growGroup_le_iff (tmpBatch firstBatch : WriteBatch α) (result : Option (WriteBatch α)) {k : Nat}
    (hk : k < ws.length) :
    (growGroup env tmpBatch firstBatch firstSync maxSize size result ws).1 ≤ k ↔
      ∃ j ≤ k, StopsAt env firstSync maxSize size ws j := by
  induction ws generalizing size result k with
  | nil => simp at hk
  | cons w ws ih =>
    by_cases hstop : StopsAt env firstSync maxSize size (w :: ws) 0
    · -- the loop ends here
      have hzero : (growGroup env tmpBatch firstBatch firstSync maxSize size result (w :: ws)).1 = 0 := by
        rcases stopsAt_zero.1 hstop with ⟨hsync, hfirst⟩ | ⟨hsome, hbig⟩
        · simp [growGroup, hsync, hfirst]
        · obtain ⟨batch, hbatch⟩ := Option.isSome_iff_exists.1 hsome
          simp only [Writer.byteSize, hbatch, Option.map_some, Option.getD_some] at hbig
          unfold growGroup
          split
          · rfl
          · simp [hbatch, hbig]
      exact ⟨fun _ => ⟨0, Nat.zero_le k, hstop⟩, fun _ => by rw [hzero]; exact Nat.zero_le k⟩
    · have hstop' := hstop
      rw [stopsAt_zero, not_or, not_and, not_and] at hstop'
      obtain ⟨hsync, hbig⟩ := hstop'
      have hgrow : ∃ result', (growGroup env tmpBatch firstBatch firstSync maxSize size result (w :: ws)).1 =
          (growGroup env tmpBatch firstBatch firstSync maxSize (size + w.byteSize env) result' ws).1 + 1 := by
        rw [growGroup, if_neg (by simpa using hsync)]
        cases hbatch : w.batch with
        | none => exact ⟨result, by simp [Writer.byteSize, hbatch]⟩
        | some batch =>
          have hsmall : ¬ size + env.byteSize batch > maxSize := by
            simpa [Writer.byteSize, hbatch] using hbig
          refine ⟨some (result.getD (tmpBatch ++ firstBatch) ++ batch), ?_⟩
          simp [hsmall, Writer.byteSize, hbatch]
      obtain ⟨result', hgrow⟩ := hgrow
      rw [hgrow]
      cases k with
      | zero =>
        refine ⟨fun h => absurd h (by omega), ?_⟩
        rintro ⟨j, hj, hj'⟩
        obtain rfl : j = 0 := by omega
        exact absurd hj' hstop
      | succ k =>
        rw [exists_stopsAt_succ hstop, Nat.add_le_add_iff_right]
        exact ih _ (by simpa using hk)

end Groups

/-! ## The request -/

namespace WriteQueue

variable {env : WriteEnv α} {start i : Nat} {s s' t : WriteQueue α} {K : InternalKey α × Bytes → Prop}

/-- What call `i` puts into the memtable. -/
def entriesOf (start : Nat) (calls : List (Writer α)) (i : Nat) : List (InternalKey α × Bytes) :=
  Database.insertInto (start + ((calls.take i).flatMap Writer.entries).length + 1)
    (calls[i]?.toList.flatMap Writer.entries)

/-- An entry of a write that has completed. -/
def Completed (start : Nat) (s : WriteQueue α) (x : InternalKey α × Bytes) : Prop :=
  ∃ r ∈ s.returned, x ∈ entriesOf start s.calls r.1

/-- `Write(WriteOptions(), nullptr)`. -/
def requestFlush (s : WriteQueue α) : WriteQueue α := { s with calls := s.calls ++ [{ batch := none }] }

/-- A group that is built while request `i` waits ends before it, or there is nothing left in the memtable that it was
made for. -/
def Spares (env : WriteEnv α) (K : InternalKey α × Bytes → Prop) (i : Nat) (s : WriteQueue α) : WriteEvent α → Prop
  | .room => ∀ first batch, s.calls[s.popped]? = some first → first.batch = some batch → s.popped < i →
    (∃ j, s.popped + 1 + j ≤ i ∧ StopsAt env first.sync (maxGroupSize (env.byteSize batch)) (env.byteSize batch)
      (s.calls.drop (s.popped + 1)) j) ∨
    ∀ x, K x → x ∉ s.mem
  | _ => True

/-! ### What is flushed stays flushed -/

/-- None of these entries is in the memtable only. -/
def Flushed (K : InternalKey α × Bytes → Prop) (s : WriteQueue α) : Prop :=
  ∀ x, K x → x ∈ s.imm.getD [] ++ s.tables ++ s.dropped

theorem flushed_of_not_mem (hheld : ∀ x, K x → x ∈ s.held) (hmem : ∀ x, K x → x ∉ s.mem) : s.Flushed K := by
  intro x hx
  have := hheld x hx
  simp only [held, List.mem_append] at this ⊢
  rcases this with ((h | h) | h) | h
  · exact absurd h (hmem x hx)
  · exact .inl (.inl h)
  · exact .inl (.inr h)
  · exact .inr h

theorem Flushed.congr (h : s.Flushed K) (himm : s'.imm = s.imm) (htables : s'.tables = s.tables)
    (hdropped : s'.dropped = s.dropped) : s'.Flushed K := by
  intro x hx
  rw [himm, htables, hdropped]
  exact h x hx

/-- A switch puts everything there. -/
theorem flushed_switch (hheld : ∀ x, K x → x ∈ s.held) (himm : s.imm = none) (allowDelay : Bool) :
    (s.switchMemTable allowDelay .ok .ok).Flushed K := by
  intro x hx
  have := hheld x hx
  simp only [held, himm, Option.getD_none, List.append_nil] at this
  exact this

theorem Flushed.step {e : WriteEvent α} (h : s.Flushed K) (he : e.NoError) (hs : s.step env e = some s') :
    s'.Flushed K := by
  cases took_of_step hs with
  | call w => exact h
  | lead hl hw => exact h
  | delay hl => exact h
  | switchMemTable hl hok himm =>
    obtain ⟨rfl, rfl⟩ := he
    refine flushed_switch (fun x hx => ?_) himm _
    have := h x hx
    simp only [held, List.append_assoc, List.mem_append] at this ⊢
    exact .inr this
  | roomError hl hw hbad => exact h
  | room hl hw hroom =>
    unfold afterRoom
    split
    · exact h.congr rfl rfl rfl
    · exact h.congr rfl rfl rfl
  | addRecord hl hw hok => exact h
  | addRecordError hl hbad => exact h
  | sync hl hok => exact h
  | syncError hl hbad => exact h
  | insertInto hl hok => exact h
  | insertIntoError hl hbad => exact h
  | relock hl =>
    rename_i g status syncError
    unfold finishGroup
    cases syncError with
    | false => exact h.congr rfl rfl rfl
    | true =>
      unfold recordBackgroundError
      by_cases hok : s.bgError.isOk = true
      · simp only [hok, if_true]
        exact h.congr rfl rfl rfl
      · simp only [hok, if_true]
        exact h.congr rfl rfl rfl
  | wake hi => exact h
  | compactMemTable himm =>
    intro x hx
    have := h x hx
    simp only [himm, Option.getD_some, Option.getD_none, List.mem_append, List.nil_append] at this ⊢
    rcases this with (h | h) | h
    · exact .inl (.inr h)
    · exact .inl (.inl h)
    · exact .inr h
  | compact keep numLevel0Files =>
    intro x hx
    have := h x hx
    simp only [List.mem_append, List.mem_filter] at this ⊢
    by_cases hkeep : keep x = true <;> simp [hkeep] <;> tauto

/-! ### The request waits for its turn -/

/-- It has not been popped, no group reaches it, and if it leads it still is to switch the memtable. -/
structure Waiting (i : Nat) (s : WriteQueue α) : Prop where
  before : s.popped ≤ i
  request : s.calls[i]? = some { batch := none }
  forced : s.popped = i → ∀ force allowDelay, s.leader = some (.makeRoom force allowDelay) → force = true
  group : ∀ g, s.group = some g → s.popped + g.members ≤ i

/-- No step of the leader but the ones in `MakeRoomForWrite` is of concern. -/
theorem Waiting.congr (h : s.Waiting i) (hcalls : s'.calls = s.calls) (hpopped : s'.popped = s.popped)
    (hforced : ∀ force allowDelay, s'.leader = some (.makeRoom force allowDelay) →
      ∃ allowDelay, s.leader = some (.makeRoom force allowDelay))
    (hgroup : ∀ g, s'.group = some g → s.group = some g) : s'.Waiting i := by
  refine ⟨by rw [hpopped]; exact h.before, by rw [hcalls]; exact h.request, ?_, ?_⟩
  · intro hi force allowDelay hl
    obtain ⟨allowDelay', hl'⟩ := hforced force allowDelay hl
    exact h.forced (hpopped ▸ hi) force allowDelay' hl'
  · intro g hg
    rw [hpopped]
    exact h.group g (hgroup g hg)

/-- A group before the request is popped. -/
theorem waiting_popGroup {members : Nat} {status : Status} (hrequest : s.calls[i]? = some { batch := none })
    (hle : s.popped + members ≤ i) : (s.popGroup members status).Waiting i := by
  refine ⟨hle, hrequest, ?_, ?_⟩
  · rintro - force allowDelay ⟨⟩
  · rintro g ⟨⟩

/-- The leader has made room: it is not the request yet, and its group ends before it or is harmless. -/
theorem Waiting.room (h : s.Waiting i) (hheld : ∀ x, K x → x ∈ s.held) {force allowDelay : Bool} {w : Writer α}
    {rest : List (Writer α)} (hl : s.leader = some (.makeRoom force allowDelay)) (hw : s.writers = w :: rest)
    (hroom : s.hasRoom env force = true) (hspares : s.Spares env K i .room) :
    (s.afterRoom env w rest).Flushed K ∨ (s.afterRoom env w rest).Waiting i := by
  obtain ⟨hfirst, hlt, hdrop⟩ := writers_cons hw
  have hbefore : s.popped < i := by
    refine lt_of_le_of_ne h.before fun hi => ?_
    rw [h.forced hi force allowDelay hl] at hroom
    simp [hasRoom] at hroom
  unfold afterRoom
  cases hbatch : w.batch with
  | none => exact .inr (waiting_popGroup h.request hbefore)
  | some batch =>
    dsimp only
    rcases hspares w batch hfirst hbatch hbefore with ⟨j, hj, hstop⟩ | hmem
    · right
      have hrest : s.calls.drop (s.popped + 1) = rest := by
        rw [← List.drop_drop, hdrop]
        rfl
      rw [hrest] at hstop
      have hjlt : j < rest.length := by
        obtain ⟨q, hq, -⟩ := hstop
        exact (List.getElem?_eq_some_iff.1 hq).1
      have hle := (growGroup_le_iff s.tmpBatch batch none hjlt).2 ⟨j, le_refl j, hstop⟩
      refine ⟨h.before, h.request, ?_, ?_⟩
      · rintro - force allowDelay ⟨⟩
      · rintro g ⟨⟩
        dsimp only [LevelDbSurf.buildBatchGroup]
        omega
    · left
      exact (flushed_of_not_mem hheld hmem).congr rfl rfl rfl

theorem Waiting.step (h : s.Waiting i) (hserial : s.Serial start) (hheld : ∀ x, K x → x ∈ s.held) {e : WriteEvent α}
    (he : e.NoError) (hspares : s.Spares env K i e) (hs : s.step env e = some s') : s'.Flushed K ∨ s'.Waiting i := by
  cases took_of_step hs with
  | call w =>
    refine .inr ⟨h.before, ?_, h.forced, h.group⟩
    have hlt := (List.getElem?_eq_some_iff.1 h.request).1
    dsimp only
    rw [List.getElem?_append_left hlt]
    exact h.request
  | lead hl hw =>
    refine .inr ⟨h.before, h.request, ?_, ?_⟩
    · rintro hi force allowDelay ⟨⟩
      have hfirst := (writers_cons hw).1
      rw [show s.popped = i from hi, h.request] at hfirst
      obtain rfl := Option.some.inj hfirst
      rfl
    · rintro g ⟨⟩
  | delay hl =>
    rename_i force allowDelay
    refine .inr (h.congr rfl rfl ?_ ?_)
    · rintro force' allowDelay' ⟨⟩
      exact ⟨allowDelay, hl⟩
    · rintro g ⟨⟩
  | switchMemTable hl hok himm =>
    obtain ⟨rfl, rfl⟩ := he
    exact .inl (flushed_switch hheld himm _)
  | roomError hl hw hbad => simp [hserial.noError, Status.isOk] at hbad
  | room hl hw hroom => exact h.room hheld hl hw hroom hspares
  | addRecord hl hw hok =>
    rename_i g w rest status
    refine .inr (h.congr rfl rfl ?_ ?_)
    · intro force allowDelay hl'
      cases hsync : w.sync <;> simp [hsync] at hl'
    · intro g' hg'
      have hg : s.group = some g := by simp [WriteQueue.group, hl]
      rw [hg, ← hg']
      cases hsync : w.sync <;> simp [WriteQueue.group]
  | sync hl hok | insertInto hl hok =>
    refine .inr (h.congr rfl rfl ?_ ?_)
    · rintro force allowDelay ⟨⟩
    · rintro g' ⟨⟩
      simp [WriteQueue.group, hl]
  | addRecordError hl hbad | syncError hl hbad | insertIntoError hl hbad =>
    obtain rfl := he
    cases hbad
  | relock hl =>
    obtain ⟨-, rfl, rfl⟩ := hserial.relocking _ _ _ hl
    exact .inr (waiting_popGroup h.request (h.group _ (by simp [WriteQueue.group, hl])))
  | wake hi => exact .inr ⟨h.before, h.request, h.forced, h.group⟩
  | compactMemTable himm => exact .inr ⟨h.before, h.request, h.forced, h.group⟩
  | compact keep numLevel0Files => exact .inr ⟨h.before, h.request, h.forced, h.group⟩

/-! ### Runs -/

/-- What holds from the call of `TEST_CompactMemTable` on. -/
structure Requested (start : Nat) (K : InternalKey α × Bytes → Prop) (i : Nat) (s : WriteQueue α) : Prop where
  serial : s.Serial start
  held : ∀ x, K x → x ∈ s.held
  flushes : s.Flushed K ∨ s.Waiting i

theorem Requested.step (h : s.Requested start K i) {e : WriteEvent α} (he : e.NoError) (hspares : s.Spares env K i e)
    (hs : s.step env e = some s') : s'.Requested start K i := by
  obtain ⟨new, -, hheld⟩ := Keeps.step hs
  refine ⟨h.serial.step he hs, fun x hx => hheld.mem_iff.2 (List.mem_append_left _ (h.held x hx)), ?_⟩
  rcases h.flushes with hflushed | hwaiting
  · exact .inl (hflushed.step he hs)
  · exact hwaiting.step h.serial h.held he hspares hs

theorem entriesOf_subset (start : Nat) (calls : List (Writer α)) {j k : Nat} (hjk : j < k) {x : InternalKey α × Bytes}
    (hx : x ∈ entriesOf start calls j) : x ∈ numbered start (calls.take k) := by
  obtain ⟨m, rfl⟩ : ∃ m, k = j + 1 + m := ⟨k - (j + 1), by omega⟩
  rw [List.take_add, numbered_append, List.take_add_one, numbered_append]
  exact List.mem_append_left _ (List.mem_append_right _ hx)

/-- The writes that had completed are held when the call starts. -/
theorem Serial.completed_held {opened : WriteQueue α} (hfresh : opened.Fresh) {events : List (WriteEvent α)}
    (hserial : s.Serial opened.lastSequence) (hrun : opened.run env events = some s) {x : InternalKey α × Bytes}
    (hx : s.Completed opened.lastSequence x) : x ∈ s.held := by
  obtain ⟨r, hr, hx⟩ := hx
  have hr' := (hserial.finished r (List.mem_append_right _ hr)).1
  have hpopped : s.popped ≤ s.insertedTo := by
    unfold insertedTo
    split <;> omega
  have hinserted : x ∈ s.inserted := by
    rw [hserial.inserted]
    exact entriesOf_subset _ _ (hr'.trans_le hpopped) hx
  obtain ⟨new, hnew, hheld⟩ := Keeps.run hrun
  rw [hfresh.inserted, List.nil_append] at hnew
  exact hheld.mem_iff.2 (List.mem_append_right _ (hnew ▸ hinserted))

theorem Serial.requested (h : s.Serial start) (hheld : ∀ x, K x → x ∈ s.held) :
    s.requestFlush.Requested start K s.calls.length := by
  refine ⟨h.call _, hheld, .inr ⟨h.popped_le, by simp [requestFlush], ?_, ?_⟩⟩
  · intro hi force allowDelay hl
    have hlt := h.leads (by rw [show s.leader = _ from hl]; rfl)
    exact absurd hlt (by rw [show s.popped = _ from hi]; omega)
  · exact fun g hg => (h.groupOf g hg).within

theorem testCompactMemTable_ok (h : s.testCompactMemTable i = some .ok) : (i, .ok) ∈ s.returned ∧ s.imm = none := by
  unfold testCompactMemTable at h
  cases hlookup : s.returned.lookup i with
  | none => simp [hlookup] at h
  | some status =>
    obtain ⟨l₁, l₂, hreturned, -⟩ := List.lookup_eq_some_iff.1 hlookup
    rw [hlookup] at h
    cases himm : s.imm with
    | none =>
      cases status with
      | ok => exact ⟨by simp [hreturned], rfl⟩
      | _ => simp [Status.isOk] at h
    | some imm =>
      -- it waits for `imm_`, unless there was an error
      cases hbad : s.bgError <;> cases status <;> simp [himm, hbad, Status.isOk] at h

end WriteQueue

open WriteQueue

/-- **A forced flush is honoured** when no group takes it in: once `TEST_CompactMemTable` has returned OK, what every
write that completed before put in is in a table, or was there until a compaction left it out. -/
theorem testCompactMemTable_flushes (env : WriteEnv α) (opened s t : WriteQueue α) (before after : List (WriteEvent α))
    (hfresh : opened.Fresh) (hbefore : opened.run env before = some s) (hafter : s.requestFlush.run env after = some t)
    (hok : ∀ e ∈ before ++ after, e.NoError)
    (hspares : Always env (Spares env (s.Completed opened.lastSequence) s.calls.length) s.requestFlush after)
    (hreturned : t.testCompactMemTable s.calls.length = some .ok) :
    ∀ x, s.Completed opened.lastSequence x → x ∈ t.tables ∨ x ∈ t.dropped := by
  have hserial := hfresh.serial.run (fun e he => hok e (List.mem_append_left _ he)) hbefore
  have hstart := hserial.requested (K := s.Completed opened.lastSequence) fun x hx =>
    hserial.completed_held hfresh hbefore hx
  have hnoError : Always env (fun _ e => e.NoError) s.requestFlush after :=
    always_of_forall (fun e he _ => hok e (List.mem_append_right _ he)) _
  have h := run_preserves (fun e t t' hC ht hs => ht.step hC.1 hC.2 hs) (hnoError.and hspares) hstart hafter
  obtain ⟨hmem, himm⟩ := testCompactMemTable_ok hreturned
  have hpopped := (h.serial.finished _ (List.mem_append_right _ hmem)).1
  intro x hx
  rcases h.flushes with hflushed | hwaiting
  · simpa [himm] using hflushed x hx
  · exact absurd hpopped (not_lt.2 hwaiting.before)

namespace ForcedFlushSample

/-- The memtable does not fill up. -/
def env : WriteEnv Nat :=
  { byteSize := List.length, approximateMemoryUsage := List.length, writeBufferSize := 100 }

def opened : WriteQueue Nat := { lastSequence := 0 }

def put (key : Nat) : Writer Nat := { batch := some [(key, .value, [7])] }

/-- One write completes, and the next is on its way. -/
def before : List (WriteEvent Nat) :=
  [.call (put 1), .lead, .room, .addRecord .ok, .insertInto .ok, .relock, .call (put 2), .lead, .room]

/-- The request comes to lead. -/
def after : List (WriteEvent Nat) :=
  [.addRecord .ok, .insertInto .ok, .relock, .lead, .switchMemTable .ok .ok, .room, .compactMemTable 1]

def written : List (InternalKey Nat × Bytes) :=
  [(⟨1, packSequenceAndType 1 .value⟩, [7]), (⟨2, packSequenceAndType 2 .value⟩, [7])]

def leading : WriteQueue Nat :=
  { calls := [put 1, put 2], popped := 1, returned := [(0, .ok)], lastSequence := 1
    leader := some (.addRecord
      { members := 1, usesTmp := false, batch := [(2, .value, [7])], sequence := 2, lastSequence := 2 })
    log := [{ writers := [0], sequence := 1, batch := [(1, .value, [7])] }]
    inserted := [(⟨1, packSequenceAndType 1 .value⟩, [7])]
    mem := [(⟨1, packSequenceAndType 1 .value⟩, [7])] }

def flushed : WriteQueue Nat :=
  { calls := [put 1, put 2, { batch := none }], popped := 3, returned := [(0, .ok), (1, .ok), (2, .ok)], lastSequence := 2
    log :=
      [{ writers := [0], sequence := 1, batch := [(1, .value, [7])] },
        { writers := [1], sequence := 2, batch := [(2, .value, [7])] }]
    inserted := written
    tables := written
    numLevel0Files := 1 }

/-- One more writer is in the queue ahead of the request, and takes it into its group. -/
def joined : List (WriteEvent Nat) :=
  [.addRecord .ok, .insertInto .ok, .relock, .lead, .room, .addRecord .ok, .insertInto .ok, .relock, .wake 3]

end ForcedFlushSample

open ForcedFlushSample in
theorem testCompactMemTable_flushes_sample : flushed.testCompactMemTable 2 = some .ok ∧
    ((⟨1, packSequenceAndType 1 .value⟩, [7]) ∈ flushed.tables ∨
      (⟨1, packSequenceAndType 1 .value⟩, [7]) ∈ flushed.dropped) := by
  refine ⟨rfl, testCompactMemTable_flushes env opened leading flushed before after
    ⟨rfl, rfl, rfl, rfl, rfl, rfl, rfl, rfl, rfl⟩ rfl rfl ?_ ?_ rfl _ ⟨(0, .ok), by simp [leading], ?_⟩⟩
  · simp [before, after, WriteEvent.NoError]
  · -- nobody is built into a group: the leader is the request
    refine ⟨trivial, trivial, trivial, trivial, trivial, ?_, trivial, trivial⟩
    rintro first batch - - hlt
    exact absurd hlt (by decide)
  · exact List.mem_singleton_self _

open ForcedFlushSample in
/-- The request returns OK, and the write that had completed is in the memtable only. -/
theorem testCompactMemTable_swallowed : ∃ s t, opened.run env (before ++ [.call (put 3)]) = some s ∧
    s.requestFlush.run env joined = some t ∧ (∀ e ∈ before ++ [.call (put 3)] ++ joined, e.NoError) ∧
    t.testCompactMemTable s.calls.length = some .ok ∧
    ∃ x, s.Completed opened.lastSequence x ∧ x ∈ t.mem ∧ x ∉ t.tables ∧ x ∉ t.dropped := by
  refine ⟨_, _, rfl, rfl, ?_, rfl, (⟨1, packSequenceAndType 1 .value⟩, [7]), ⟨(0, .ok), ?_, ?_⟩, ?_, ?_, ?_⟩
  · simp [before, joined, WriteEvent.NoError]
  · exact List.mem_singleton_self _
  · exact List.mem_singleton_self _
  · exact List.mem_cons_self
  · exact List.not_mem_nil
  · exact List.not_mem_nil

end LevelDbSurf
