import LevelDbSurf.GroupCommitSteps

/-!
# Group commit keeps the order of the queue

The log and the memtables receive the batches of the first so many calls, one after the other, numbered from the
start: `numbered start (calls.take k)`. While a group is being written the log is ahead of `popped`, and then the
memtable; `Serial` says by how much at each place the leader may be.
-/

namespace LevelDbSurf

variable {α : Type}

/-! ## Sequence numbers -/

theorem Database.insertInto_append (sequence : Nat) (a b : WriteBatch α) :
    Database.insertInto sequence (a ++ b) =
      Database.insertInto sequence a ++ Database.insertInto (sequence + a.length) b := by
  have hshift : b.zipIdx a.length = b.zipIdx.map fun x => (x.1, a.length + x.2) := List.zipIdx_eq_map_add
  unfold Database.insertInto
  rw [List.zipIdx_append, List.map_append, Nat.zero_add, hshift, List.map_map]
  refine congrArg _ (List.map_congr_left ?_)
  rintro ⟨⟨userKey, type, value⟩, i⟩ -
  simp only [Function.comp_apply, Nat.add_assoc]

/-- The entries of these calls' batches, numbered one after the other. -/
def numbered (start : Nat) (calls : List (Writer α)) : List (InternalKey α × Bytes) :=
  Database.insertInto (start + 1) (calls.flatMap Writer.entries)

theorem numbered_append (start : Nat) (as bs : List (Writer α)) :
    numbered start (as ++ bs) = numbered start as ++
      Database.insertInto (start + (as.flatMap Writer.entries).length + 1) (bs.flatMap Writer.entries) := by
  unfold numbered
  rw [List.flatMap_append, Database.insertInto_append, Nat.add_right_comm]

/-! ## Groups -/

/-- **`BuildBatchGroup`**: the group is a prefix of the queue, `*result` the batches of its members in order, and a
leader that does not sync takes in nobody who asked for it. -/
theorem growGroup_spec (env : WriteEnv α) (firstBatch : WriteBatch α) (firstSync : Bool) (maxSize size : Nat)
    (result : Option (WriteBatch α)) (ws : List (Writer α)) :
    (growGroup env [] firstBatch firstSync maxSize size result ws).1 ≤ ws.length ∧
      (growGroup env [] firstBatch firstSync maxSize size result ws).2.getD firstBatch = result.getD firstBatch ++
        (ws.take (growGroup env [] firstBatch firstSync maxSize size result ws).1).flatMap Writer.entries ∧
      ∀ w ∈ ws.take (growGroup env [] firstBatch firstSync maxSize size result ws).1, w.sync = true →
        firstSync = true := by
  induction ws generalizing size result with
  | nil => simp [growGroup]
  | cons w ws ih =>
    unfold growGroup
    by_cases hsync : (w.sync && !firstSync) = true
    · simp [hsync]
    · have hrule : w.sync = true → firstSync = true := by simpa using hsync
      rw [if_neg hsync]
      cases hbatch : w.batch with
      | none =>
        obtain ⟨hle, hresult, hmembers⟩ := ih size result
        refine ⟨by simpa using hle, ?_, ?_⟩
        · simp [hresult, Writer.entries, hbatch]
        · intro w' hw'
          rcases List.mem_cons.1 hw' with rfl | hw'
          · exact hrule
          · exact hmembers w' hw'
      | some batch =>
        dsimp only
        by_cases hbig : size + env.byteSize batch > maxSize
        · simp [hbig]
        · rw [if_neg hbig]
          obtain ⟨hle, hresult, hmembers⟩ := ih (size + env.byteSize batch) (some (result.getD ([] ++ firstBatch) ++ batch))
          refine ⟨by simpa using hle, ?_, ?_⟩
          · rw [hresult]
            simp [Writer.entries, hbatch]
          · intro w' hw'
            rcases List.mem_cons.1 hw' with rfl | hw'
            · exact hrule
            · exact hmembers w' hw'

/-! ## The invariant -/

namespace WriteQueue

variable {env : WriteEnv α} {start : Nat} {s s' : WriteQueue α} {g : Group α}

/-- How many calls the log has. -/
def loggedTo (s : WriteQueue α) : Nat :=
  match s.leader with
  | some (.sync g) | some (.insertInto g) | some (.relock g _ _) => s.popped + g.members
  | _ => s.popped

/-- How many calls the memtables have had. -/
def insertedTo (s : WriteQueue α) : Nat :=
  match s.leader with
  | some (.relock g _ _) => s.popped + g.members
  | _ => s.popped

/-- Writer `i` has its batch in a record that was synced. -/
def SyncedIn (s : WriteQueue α) (i : Nat) : Prop := ∃ r ∈ s.log, i ∈ r.writers ∧ r.synced = true

/-- The writers of a group. -/
def membersOf (s : WriteQueue α) (g : Group α) : List (Writer α) := (s.calls.drop s.popped).take g.members

/-- A group is a prefix of the queue, and its batch the batches of its members. -/
structure GroupOf (s : WriteQueue α) (g : Group α) : Prop where
  pos : 1 ≤ g.members
  within : s.popped + g.members ≤ s.calls.length
  batch : g.batch = (s.membersOf g).flatMap Writer.entries
  sequence : g.sequence = s.lastSequence + 1
  lastSequence : g.lastSequence = s.lastSequence + g.batch.length
  tmp : g.usesTmp = false → s.tmpBatch = []
  syncs : ∀ w ∈ s.membersOf g, w.sync = true → ∀ first, s.calls[s.popped]? = some first → first.sync = true

/-- If the leader syncs, the record of the group has been synced. -/
def GroupSynced (s : WriteQueue α) (g : Group α) : Prop :=
  ∀ first, s.calls[s.popped]? = some first → first.sync = true →
    ∀ i ∈ List.range' s.popped g.members, s.SyncedIn i

/-- The group that is being written. -/
def group (s : WriteQueue α) : Option (Group α) :=
  match s.leader with
  | some (.addRecord g) | some (.sync g) | some (.insertInto g) | some (.relock g _ _) => some g
  | _ => none

/-- **The invariant.** -/
structure Serial (start : Nat) (s : WriteQueue α) : Prop where
  popped_le : s.popped ≤ s.calls.length
  noError : s.bgError = .ok
  lastSequence : s.lastSequence = start + ((s.calls.take s.popped).flatMap Writer.entries).length
  logged : s.log.flatMap LogRecord.entries = numbered start (s.calls.take s.loggedTo)
  inserted : s.inserted = numbered start (s.calls.take s.insertedTo)
  leads : s.leader.isSome = true → s.popped < s.calls.length
  idle : s.group = none → s.tmpBatch = []
  groupOf : ∀ g, s.group = some g → s.GroupOf g
  lastRecord : ∀ g, s.leader = some (.sync g) → ∃ log r, s.log = log ++ [r] ∧ r.writers = List.range' s.popped g.members
  inserting : ∀ g, s.leader = some (.insertInto g) → s.GroupSynced g
  relocking : ∀ g status syncError, s.leader = some (.relock g status syncError) →
    s.GroupSynced g ∧ status = .ok ∧ syncError = false
  finished : ∀ x ∈ s.done ++ s.returned, x.1 < s.popped ∧ x.2 = .ok
  distinct : ((s.done ++ s.returned).map (·.1)).Nodup
  synced : ∀ i < s.popped, ∀ w, s.calls[i]? = some w → w.sync = true → w.batch.isSome = true → s.SyncedIn i

/-! ### A new call -/

theorem loggedTo_le (h : s.Serial start) : s.loggedTo ≤ s.calls.length := by
  have hle := h.popped_le
  have hgroup := h.groupOf
  unfold group at hgroup
  unfold loggedTo
  cases hl : s.leader with
  | none => exact hle
  | some pc =>
    rw [hl] at hgroup
    cases pc with
    | makeRoom force allowDelay => exact hle
    | addRecord g => exact hle
    | sync g => exact (hgroup g rfl).within
    | insertInto g => exact (hgroup g rfl).within
    | relock g status syncError => exact (hgroup g rfl).within

theorem insertedTo_le (s : WriteQueue α) : s.insertedTo ≤ s.loggedTo := by
  unfold insertedTo loggedTo
  cases s.leader with
  | none => exact le_refl _
  | some pc => cases pc <;> simp

theorem GroupOf.call (h : s.GroupOf g) (w : Writer α) :
    ({ s with calls := s.calls ++ [w] } : WriteQueue α).GroupOf g := by
  have hmembers : ({ s with calls := s.calls ++ [w] } : WriteQueue α).membersOf g = s.membersOf g := by
    have := h.within
    unfold membersOf
    dsimp only
    rw [List.drop_append_of_le_length (by omega), List.take_append_of_le_length (by rw [List.length_drop]; omega)]
  have hfirst : (s.calls ++ [w])[s.popped]? = s.calls[s.popped]? :=
    List.getElem?_append_left (by have := h.within; have := h.pos; omega)
  refine ⟨h.pos, ?_, ?_, h.sequence, h.lastSequence, h.tmp, ?_⟩
  · have := h.within
    simp
    omega
  · rw [hmembers]
    exact h.batch
  · rw [hmembers]
    dsimp only
    rw [hfirst]
    exact h.syncs

theorem GroupSynced.call (h : s.GroupSynced g) (hlt : s.popped < s.calls.length) (w : Writer α) :
    ({ s with calls := s.calls ++ [w] } : WriteQueue α).GroupSynced g := by
  intro first hfirst
  dsimp only at hfirst
  rw [List.getElem?_append_left hlt] at hfirst
  exact h first hfirst

theorem Serial.call (h : s.Serial start) (w : Writer α) :
    ({ s with calls := s.calls ++ [w] } : WriteQueue α).Serial start := by
  have htake : ∀ k ≤ s.calls.length, (s.calls ++ [w]).take k = s.calls.take k := fun k hk =>
    List.take_append_of_le_length hk
  have hlogged := loggedTo_le h
  constructor
  · have := h.popped_le
    simp
    omega
  · exact h.noError
  · dsimp only
    rw [htake _ h.popped_le]
    exact h.lastSequence
  · show s.log.flatMap LogRecord.entries = numbered start ((s.calls ++ [w]).take s.loggedTo)
    rw [htake _ hlogged]
    exact h.logged
  · show s.inserted = numbered start ((s.calls ++ [w]).take s.insertedTo)
    rw [htake _ ((insertedTo_le s).trans hlogged)]
    exact h.inserted
  · intro hleader
    have := h.leads hleader
    simp
    omega
  · exact h.idle
  · exact fun g hg => (h.groupOf g hg).call w
  · exact h.lastRecord
  · intro g hl
    exact (h.inserting g hl).call (h.leads (by rw [show s.leader = _ from hl]; rfl)) w
  · intro g status syncError hl
    obtain ⟨hsynced, hstatus⟩ := h.relocking g status syncError hl
    exact ⟨hsynced.call (h.leads (by rw [show s.leader = _ from hl]; rfl)) w, hstatus⟩
  · exact h.finished
  · exact h.distinct
  · intro i hi w' hw'
    have hlt : i < s.calls.length := lt_of_lt_of_le hi h.popped_le
    dsimp only at hw'
    rw [List.getElem?_append_left hlt] at hw'
    exact h.synced i hi w' hw'

/-! ### `MakeRoomForWrite` -/

theorem idle_counts (hidle : s.group = none) : s.loggedTo = s.popped ∧ s.insertedTo = s.popped := by
  unfold group at hidle
  unfold loggedTo insertedTo
  cases hl : s.leader with
  | none => exact ⟨rfl, rfl⟩
  | some pc =>
    rw [hl] at hidle
    cases pc with
    | makeRoom force allowDelay => exact ⟨rfl, rfl⟩
    | _ => cases hidle

/-- The leader makes room; the memtable may be switched. -/
theorem Serial.makeRoom (h : s.Serial start) (hidle : s.group = none) (hlt : s.popped < s.calls.length)
    (force allowDelay : Bool) (mem : List (InternalKey α × Bytes)) (imm : Option (List (InternalKey α × Bytes))) :
    ({ s with leader := some (.makeRoom force allowDelay), mem, imm } : WriteQueue α).Serial start := by
  obtain ⟨hlogged, hinserted⟩ := idle_counts hidle
  refine ⟨h.popped_le, h.noError, h.lastSequence, ?_, ?_, fun _ => hlt, fun _ => h.idle hidle, ?_, ?_, ?_, ?_, h.finished,
    h.distinct, h.synced⟩
  · have := h.logged
    rwa [hlogged] at this
  · have := h.inserted
    rwa [hinserted] at this
  · rintro g ⟨⟩
  · rintro g ⟨⟩
  · rintro g ⟨⟩
  · rintro g status syncError ⟨⟩

/-- What the background thread does is of no concern. -/
theorem Serial.background (h : s.Serial start) (imm : Option (List (InternalKey α × Bytes)))
    (tables dropped : List (InternalKey α × Bytes)) (numLevel0Files : Nat) :
    ({ s with imm, tables, dropped, numLevel0Files } : WriteQueue α).Serial start :=
  ⟨h.popped_le, h.noError, h.lastSequence, h.logged, h.inserted, h.leads, h.idle,
    fun g hg => ⟨(h.groupOf g hg).pos, (h.groupOf g hg).within, (h.groupOf g hg).batch, (h.groupOf g hg).sequence,
      (h.groupOf g hg).lastSequence, (h.groupOf g hg).tmp, (h.groupOf g hg).syncs⟩,
    h.lastRecord, h.inserting, h.relocking, h.finished, h.distinct, h.synced⟩

theorem writers_cons {w : Writer α} {rest : List (Writer α)} (h : s.writers = w :: rest) :
    s.calls[s.popped]? = some w ∧ s.popped < s.calls.length ∧ s.calls.drop s.popped = w :: rest := by
  have hget : (s.calls.drop s.popped)[0]? = some w := by
    rw [show s.calls.drop s.popped = w :: rest from h]
    rfl
  rw [List.getElem?_drop, Nat.add_zero] at hget
  exact ⟨hget, (List.getElem?_eq_some_iff.1 hget).1, h⟩

/-- A group is built. -/
theorem Serial.buildBatchGroup (h : s.Serial start) (hidle : s.group = none) {w : Writer α} {rest : List (Writer α)}
    (hw : s.writers = w :: rest) {batch : WriteBatch α} (hbatch : w.batch = some batch) :
    (s.afterRoom env w rest).Serial start := by
  obtain ⟨hlogged, hinserted⟩ := idle_counts hidle
  obtain ⟨hfirst, hlt, hdrop⟩ := writers_cons hw
  have htmp := h.idle hidle
  unfold afterRoom
  rw [hbatch, htmp]
  dsimp only
  obtain ⟨hle, hresult, hsyncs⟩ := growGroup_spec env batch w.sync (maxGroupSize (env.byteSize batch)) (env.byteSize batch)
    none rest
  unfold LevelDbSurf.buildBatchGroup
  generalize growGroup env [] batch w.sync (maxGroupSize (env.byteSize batch)) (env.byteSize batch) none rest = r at *
  obtain ⟨n, tmp⟩ := r
  dsimp only at hle hresult hsyncs ⊢
  have hlength : (s.calls.drop s.popped).length = rest.length + 1 := by rw [hdrop]; rfl
  rw [List.length_drop] at hlength
  refine ⟨h.popped_le, h.noError, h.lastSequence, ?_, ?_, fun _ => hlt, ?_, ?_, ?_, ?_, ?_, h.finished, h.distinct,
    h.synced⟩
  · have := h.logged
    rwa [hlogged] at this
  · have := h.inserted
    rwa [hinserted] at this
  · rintro ⟨⟩
  · rintro g ⟨⟩
    have hmembers : (s.calls.drop s.popped).take (n + 1) = w :: rest.take n := by rw [hdrop, List.take_succ_cons]
    refine ⟨Nat.le_add_left 1 n, ?_, ?_, rfl, rfl, ?_, ?_⟩
    · dsimp only
      omega
    · unfold membersOf
      dsimp only
      rw [hresult, hmembers]
      simp [Writer.entries, hbatch]
    · intro hnone
      have : tmp = none := by simpa using hnone
      simp [this]
    · intro w' hw' hsync first hfirst'
      unfold membersOf at hw'
      dsimp only at hw' hfirst'
      rw [hmembers] at hw'
      obtain rfl := Option.some.inj (hfirst.symm.trans hfirst')
      rcases List.mem_cons.1 hw' with rfl | hw'
      · exact hsync
      · exact hsyncs w' hw' hsync
  · rintro g ⟨⟩
  · rintro g ⟨⟩
  · rintro g status syncError ⟨⟩

/-! ### The group is written -/

theorem numbered_group (h : s.Serial start) (hg : s.GroupOf g) :
    numbered start (s.calls.take (s.popped + g.members)) =
      numbered start (s.calls.take s.popped) ++ Database.insertInto g.sequence g.batch := by
  rw [List.take_add, numbered_append, hg.sequence, hg.batch, h.lastSequence]
  rfl

theorem GroupOf.write (hg : s.GroupOf g) (log : List (LogRecord α)) (leader : Option (LeaderPc α))
    (mem inserted : List (InternalKey α × Bytes)) :
    ({ s with log, leader, mem, inserted } : WriteQueue α).GroupOf g :=
  ⟨hg.pos, hg.within, hg.batch, hg.sequence, hg.lastSequence, hg.tmp, hg.syncs⟩

theorem Serial.addRecord (h : s.Serial start) (hl : s.leader = some (.addRecord g)) {w : Writer α}
    (hw : s.calls[s.popped]? = some w) :
    ({ s with
      log := s.log ++ [s.groupRecord g]
      leader := some (if w.sync then .sync g else .insertInto g) } : WriteQueue α).Serial start := by
  have hg := h.groupOf g (by simp [group, hl])
  have hinserted := h.inserted
  have hlogged := h.logged
  simp only [loggedTo, insertedTo, hl] at hinserted hlogged
  have hlog : (s.log ++ [s.groupRecord g]).flatMap LogRecord.entries =
      numbered start (s.calls.take (s.popped + g.members)) := by
    rw [numbered_group h hg, List.flatMap_append, hlogged]
    simp [groupRecord, LogRecord.entries]
  have hsynced : ∀ i < s.popped, ∀ w, s.calls[i]? = some w → w.sync = true → w.batch.isSome = true →
      ∃ r ∈ s.log ++ [s.groupRecord g], i ∈ r.writers ∧ r.synced = true := fun i hi w' hw' hs hb => by
    obtain ⟨r, hr, hrest⟩ := h.synced i hi w' hw' hs hb
    exact ⟨r, List.mem_append_left _ hr, hrest⟩
  have hleads : s.popped < s.calls.length := h.leads (by simp [hl])
  cases hsync : w.sync with
  | true =>
    refine ⟨h.popped_le, h.noError, h.lastSequence, hlog, hinserted, fun _ => hleads, ?_, ?_, ?_, ?_, ?_, h.finished,
      h.distinct, hsynced⟩
    · rintro ⟨⟩
    · rintro g' ⟨⟩
      exact hg.write _ _ _ _
    · rintro g' ⟨⟩
      exact ⟨s.log, _, rfl, rfl⟩
    · rintro g' ⟨⟩
    · rintro g' status syncError ⟨⟩
  | false =>
    refine ⟨h.popped_le, h.noError, h.lastSequence, hlog, hinserted, fun _ => hleads, ?_, ?_, ?_, ?_, ?_, h.finished,
      h.distinct, hsynced⟩
    · rintro ⟨⟩
    · rintro g' ⟨⟩
      exact hg.write _ _ _ _
    · rintro g' ⟨⟩
    · rintro g' ⟨⟩ first hfirst hs
      -- a leader that does not sync owes nothing
      obtain rfl := Option.some.inj (hw.symm.trans hfirst)
      rw [hsync] at hs
      cases hs
    · rintro g' status syncError ⟨⟩

@[simp] theorem syncLast_append (log : List (LogRecord α)) (r : LogRecord α) :
    syncLast (log ++ [r]) = log ++ [{ r with synced := true }] := by
  simp [syncLast]

theorem Serial.sync (h : s.Serial start) (hl : s.leader = some (.sync g)) :
    ({ s with log := syncLast s.log, leader := some (.insertInto g) } : WriteQueue α).Serial start := by
  have hg := h.groupOf g (by simp [group, hl])
  have hinserted := h.inserted
  have hlogged := h.logged
  simp only [loggedTo, insertedTo, hl] at hinserted hlogged
  obtain ⟨log, r, hlog, hwriters⟩ := h.lastRecord g hl
  rw [hlog, syncLast_append]
  refine ⟨h.popped_le, h.noError, h.lastSequence, ?_, hinserted, fun _ => h.leads (by simp [hl]), ?_, ?_, ?_, ?_, ?_,
    h.finished, h.distinct, ?_⟩
  · show (log ++ [{ r with synced := true }]).flatMap LogRecord.entries =
      numbered start (s.calls.take (s.popped + g.members))
    rw [← hlogged, hlog]
    simp [LogRecord.entries]
  · rintro ⟨⟩
  · rintro g' ⟨⟩
    exact hg.write _ _ _ _
  · rintro g' ⟨⟩
  · rintro g' ⟨⟩ first - - i hi
    exact ⟨{ r with synced := true }, by simp, by rwa [hwriters], rfl⟩
  · rintro g' status syncError ⟨⟩
  · intro i hi w hw hs hb
    obtain ⟨r', hr', hi', hsynced⟩ := h.synced i hi w hw hs hb
    rw [hlog, List.mem_append, List.mem_singleton] at hr'
    rcases hr' with hr' | rfl
    · exact ⟨r', List.mem_append_left _ hr', hi', hsynced⟩
    · exact ⟨{ r' with synced := true }, by simp, hi', rfl⟩

theorem Serial.insertInto (h : s.Serial start) (hl : s.leader = some (.insertInto g)) :
    ({ s with
      mem := s.mem ++ Database.insertInto g.sequence g.batch
      inserted := s.inserted ++ Database.insertInto g.sequence g.batch
      leader := some (.relock g .ok false) } : WriteQueue α).Serial start := by
  have hg := h.groupOf g (by simp [group, hl])
  have hinserted := h.inserted
  have hlogged := h.logged
  simp only [loggedTo, insertedTo, hl] at hinserted hlogged
  refine ⟨h.popped_le, h.noError, h.lastSequence, hlogged, ?_, fun _ => h.leads (by simp [hl]), ?_, ?_, ?_, ?_, ?_,
    h.finished, h.distinct, h.synced⟩
  · show s.inserted ++ Database.insertInto g.sequence g.batch = numbered start (s.calls.take (s.popped + g.members))
    rw [numbered_group h hg, hinserted]
  · rintro ⟨⟩
  · rintro g' ⟨⟩
    exact hg.write _ _ _ _
  · rintro g' ⟨⟩
  · rintro g' ⟨⟩
  · rintro g' status syncError ⟨⟩
    exact ⟨h.inserting _ hl, rfl, rfl⟩

/-! ### The group is popped -/

/-- The writers of a group finish once each. -/
theorem finish_distinct {members : Nat} {status : Status} (hpos : 1 ≤ members)
    (hfinished : ∀ x ∈ s.done ++ s.returned, x.1 < s.popped) (hdistinct : ((s.done ++ s.returned).map (·.1)).Nodup) :
    (((s.popGroup members status).done ++ (s.popGroup members status).returned).map (·.1)).Nodup := by
  have hperm : (((s.popGroup members status).done ++ (s.popGroup members status).returned).map (·.1)).Perm
      ((s.done ++ s.returned).map (·.1) ++ List.range' s.popped members) := by
    obtain ⟨n, rfl⟩ : ∃ n, members = n + 1 := ⟨members - 1, by omega⟩
    simp only [popGroup, List.map_append, List.map_map, Nat.add_sub_cancel, List.range'_succ, List.append_assoc]
    refine List.Perm.append_left _ ?_
    have hfst : (Prod.fst ∘ fun i => (i, status)) = (id : Nat → Nat) := rfl
    rw [hfst, List.map_id]
    refine List.perm_append_comm.trans ?_
    simp
  refine hperm.nodup_iff.2 (hdistinct.append List.nodup_range' ?_)
  intro i hi hi'
  obtain ⟨x, hx, rfl⟩ := List.mem_map.1 hi
  have := hfinished x hx
  have := List.left_le_of_mem_range' hi'
  omega

theorem serial_popGroup {members : Nat} (hpos : 1 ≤ members) (hwithin : s.popped + members ≤ s.calls.length)
    (hnoError : s.bgError = .ok) (htmp : s.tmpBatch = [])
    (hlast : s.lastSequence = start + ((s.calls.take (s.popped + members)).flatMap Writer.entries).length)
    (hlogged : s.log.flatMap LogRecord.entries = numbered start (s.calls.take (s.popped + members)))
    (hinserted : s.inserted = numbered start (s.calls.take (s.popped + members)))
    (hfinished : ∀ x ∈ s.done ++ s.returned, x.1 < s.popped ∧ x.2 = .ok)
    (hdistinct : ((s.done ++ s.returned).map (·.1)).Nodup)
    (hsynced : ∀ i < s.popped + members, ∀ w, s.calls[i]? = some w → w.sync = true → w.batch.isSome = true →
      s.SyncedIn i) :
    (s.popGroup members .ok).Serial start := by
  refine ⟨hwithin, hnoError, hlast, hlogged, hinserted, ?_, fun _ => htmp, ?_, ?_, ?_, ?_, ?_,
    finish_distinct hpos (fun x hx => (hfinished x hx).1) hdistinct, hsynced⟩
  · rintro ⟨⟩
  · rintro g ⟨⟩
  · rintro g ⟨⟩
  · rintro g ⟨⟩
  · rintro g status syncError ⟨⟩
  · rintro ⟨i, status⟩ hx
    show i < s.popped + members ∧ status = .ok
    simp only [popGroup, List.append_assoc, List.mem_append, List.mem_map, List.mem_singleton, Prod.mk.injEq] at hx
    rcases hx with hx | ⟨j, hj, rfl, rfl⟩ | hx | ⟨rfl, rfl⟩
    · obtain ⟨hlt, hok⟩ := hfinished _ (List.mem_append_left _ hx)
      exact ⟨hlt.trans_le (Nat.le_add_right _ _), hok⟩
    · obtain ⟨hle, hlt⟩ := List.mem_range'_1.1 hj
      exact ⟨by omega, rfl⟩
    · obtain ⟨hlt, hok⟩ := hfinished _ (List.mem_append_right _ hx)
      exact ⟨hlt.trans_le (Nat.le_add_right _ _), hok⟩
    · exact ⟨by omega, rfl⟩

/-- The leader is done with its group. -/
theorem Serial.relock (h : s.Serial start) {status : Status} {syncError : Bool}
    (hl : s.leader = some (.relock g status syncError)) : (s.finishGroup g status syncError).Serial start := by
  have hg := h.groupOf g (by simp [group, hl])
  have hlogged := h.logged
  have hinserted := h.inserted
  simp only [loggedTo, insertedTo, hl] at hlogged hinserted
  obtain ⟨hgroup, rfl, rfl⟩ := h.relocking g status syncError hl
  refine serial_popGroup hg.pos hg.within h.noError ?_ ?_ hlogged hinserted h.finished h.distinct ?_
  · show (if g.usesTmp then [] else s.tmpBatch) = []
    cases htmp : g.usesTmp with
    | true => rfl
    | false => exact hg.tmp htmp
  · show g.lastSequence = _
    rw [hg.lastSequence, h.lastSequence, List.take_add, List.flatMap_append, List.length_append, hg.batch, Nat.add_assoc]
    rfl
  · intro i hi w hw hsync hsome
    by_cases hlt : i < s.popped
    · exact h.synced i hlt w hw hsync hsome
    · -- a member: its leader syncs, as it does
      have hwithin := hg.within
      have hpos := hg.pos
      change i < s.popped + g.members at hi
      have hmem : w ∈ s.membersOf g := by
        refine List.mem_of_getElem? (i := i - s.popped) ?_
        unfold membersOf
        rw [List.getElem?_take_of_lt (by omega), List.getElem?_drop, Nat.add_sub_cancel' (not_lt.1 hlt)]
        exact hw
      have hfirst : s.calls[s.popped]? = some s.calls[s.popped] := List.getElem?_eq_getElem (by omega)
      exact hgroup _ hfirst (hg.syncs w hmem hsync _ hfirst) i (List.mem_range'_1.2 ⟨not_lt.1 hlt, hi⟩)

/-- A null batch: nothing is written. -/
theorem Serial.nullBatch (h : s.Serial start) (hidle : s.group = none) {w : Writer α} {rest : List (Writer α)}
    (hw : s.writers = w :: rest) (hbatch : w.batch = none) : (s.afterRoom env w rest).Serial start := by
  obtain ⟨hlogged, hinserted⟩ := idle_counts hidle
  obtain ⟨hfirst, hlt, -⟩ := writers_cons hw
  have htake : (s.calls.take (s.popped + 1)).flatMap Writer.entries = (s.calls.take s.popped).flatMap Writer.entries := by
    rw [List.take_add_one, hfirst]
    simp [Writer.entries, hbatch]
  have hnumbered : numbered start (s.calls.take (s.popped + 1)) = numbered start (s.calls.take s.popped) := by
    unfold numbered
    rw [htake]
  unfold afterRoom
  rw [hbatch]
  refine serial_popGroup (le_refl 1) hlt h.noError (h.idle hidle) ?_ ?_ ?_ h.finished h.distinct ?_
  · rw [htake]
    exact h.lastSequence
  · rw [hnumbered, ← hlogged]
    exact h.logged
  · rw [hnumbered, ← hinserted]
    exact h.inserted
  · intro i hi w' hw' hsync hsome
    by_cases hi' : i < s.popped
    · exact h.synced i hi' w' hw' hsync hsome
    · obtain rfl : i = s.popped := by omega
      obtain rfl := Option.some.inj (hfirst.symm.trans hw')
      simp [hbatch] at hsome

/-- A writer of a group wakes up. -/
theorem Serial.wake (h : s.Serial start) {i : Nat} {status : Status} (hi : s.done.lookup i = some status) :
    ({ s with
      done := s.done.filter fun x => decide (x.1 ≠ i)
      returned := s.returned ++ [(i, status)] } : WriteQueue α).Serial start := by
  have hmem : (i, status) ∈ s.done := by
    obtain ⟨l₁, l₂, hdone, -⟩ := List.lookup_eq_some_iff.1 hi
    simp [hdone]
  refine ⟨h.popped_le, h.noError, h.lastSequence, h.logged, h.inserted, h.leads, h.idle,
    fun g hg => ⟨(h.groupOf g hg).pos, (h.groupOf g hg).within, (h.groupOf g hg).batch, (h.groupOf g hg).sequence,
      (h.groupOf g hg).lastSequence, (h.groupOf g hg).tmp, (h.groupOf g hg).syncs⟩,
    h.lastRecord, h.inserting, h.relocking, ?_, ?_, h.synced⟩
  · intro x hx
    simp only [List.mem_append, List.mem_filter, List.mem_singleton] at hx
    rcases hx with ⟨hx, -⟩ | hx | rfl
    · exact h.finished x (List.mem_append_left _ hx)
    · exact h.finished x (List.mem_append_right _ hx)
    · exact h.finished _ (List.mem_append_left _ hmem)
  · have hdistinct := h.distinct
    rw [List.map_append, List.nodup_append] at hdistinct ⊢
    obtain ⟨hdone, hreturned, hdisjoint⟩ := hdistinct
    refine ⟨hdone.sublist (List.filter_sublist.map _), ?_, ?_⟩
    · rw [List.map_append, List.nodup_append]
      refine ⟨hreturned, List.nodup_singleton i, ?_⟩
      rintro j hj k hk rfl
      exact hdisjoint i (List.mem_map.2 ⟨_, hmem, rfl⟩) j hj (List.mem_singleton.1 hk).symm
    · rintro j hj k hk rfl
      obtain ⟨x, hx, rfl⟩ := List.mem_map.1 hj
      rw [List.mem_filter, decide_eq_true_eq] at hx
      rw [List.map_append, List.mem_append] at hk
      rcases hk with hk | hk
      · exact hdisjoint _ (List.mem_map.2 ⟨x, hx.1, rfl⟩) _ hk rfl
      · exact hx.2 (List.mem_singleton.1 hk)

/-! ### Runs -/

/-- **A step keeps the invariant.** -/
theorem Serial.step (h : s.Serial start) {e : WriteEvent α} (he : e.NoError) (hs : s.step env e = some s') :
    s'.Serial start := by
  cases took_of_step hs with
  | call w => exact h.call w
  | lead hl hw =>
    obtain ⟨-, hlt, -⟩ := writers_cons hw
    exact h.makeRoom (by simp [group, hl]) hlt _ _ s.mem s.imm
  | delay hl => exact h.makeRoom (by simp [group, hl]) (h.leads (by simp [hl])) _ _ s.mem s.imm
  | switchMemTable hl hok himm =>
    obtain ⟨rfl, rfl⟩ := he
    exact h.makeRoom (by simp [group, hl]) (h.leads (by simp [hl])) _ _ _ _
  | roomError hl hw hbad => simp [h.noError, Status.isOk] at hbad
  | room hl hw hroom =>
    rename_i w rest
    have hidle : s.group = none := by simp [group, hl]
    cases hbatch : w.batch with
    | none => exact h.nullBatch hidle hw hbatch
    | some batch => exact h.buildBatchGroup hidle hw hbatch
  | addRecord hl hw hok => exact h.addRecord hl (writers_cons hw).1
  | sync hl hok => exact h.sync hl
  | insertInto hl hok =>
    obtain rfl := he
    exact h.insertInto hl
  | addRecordError hl hbad | syncError hl hbad | insertIntoError hl hbad =>
    obtain rfl := he
    cases hbad
  | relock hl => exact h.relock hl
  | wake hi => exact h.wake hi
  | compactMemTable himm => exact h.background none _ s.dropped _
  | compact keep numLevel0Files => exact h.background s.imm _ _ _

theorem Serial.run {events : List (WriteEvent α)} (h : s.Serial start) (hok : ∀ e ∈ events, e.NoError)
    (hrun : s.run env events = some s') : s'.Serial start :=
  run_preserves (fun _ _ _ he h ht => h.step he ht) (always_of_forall (fun e he _ => hok e he) s) h hrun

/-- The database is open and nobody has called `Write` yet. -/
structure Fresh (s : WriteQueue α) : Prop where
  calls : s.calls = []
  popped : s.popped = 0
  leader : s.leader = none
  done : s.done = []
  returned : s.returned = []
  tmpBatch : s.tmpBatch = []
  log : s.log = []
  inserted : s.inserted = []
  bgError : s.bgError = .ok

theorem Fresh.serial (h : s.Fresh) : s.Serial s.lastSequence := by
  have hidle : s.group = none := by simp [group, h.leader]
  obtain ⟨hlogged, hinserted⟩ := idle_counts hidle
  refine ⟨by simp [h.popped], h.bgError, by simp [h.calls], ?_, ?_, by simp [h.leader], fun _ => h.tmpBatch, by simp [hidle],
    by simp [h.leader], by simp [h.leader], by simp [h.leader], by simp [h.done, h.returned], by simp [h.done, h.returned],
    by simp [h.popped]⟩
  · simp [h.log, h.calls, numbered, Database.insertInto]
  · simp [h.inserted, h.calls, numbered, Database.insertInto]

end WriteQueue

open WriteQueue

/-- **No write is lost and none is repeated**: at any time the log has the batches of the first `logged` calls and the
memtables have been given those of the first `applied`, in queue order and numbered on from `lastSequence`. -/
theorem write_serial (env : WriteEnv α) (s₀ s : WriteQueue α) (events : List (WriteEvent α)) (hfresh : s₀.Fresh)
    (hok : ∀ e ∈ events, e.NoError) (hrun : s₀.run env events = some s) :
    (∃ applied logged, applied ≤ logged ∧ logged ≤ s.calls.length ∧
      s.log.flatMap LogRecord.entries = numbered s₀.lastSequence (s.calls.take logged) ∧
      s.inserted = numbered s₀.lastSequence (s.calls.take applied) ∧
      (∀ x ∈ s.returned, x.1 < applied ∧ x.2 = .ok) ∧
      (s.writers = [] → applied = s.calls.length)) ∧
    s.held.Perm (s₀.held ++ s.inserted) ∧
    (s.returned.map (·.1)).Nodup ∧
    (s.writers = [] → s.lastSequence = s₀.lastSequence + (s.calls.flatMap Writer.entries).length) ∧
    ∀ x ∈ s.returned, ∀ w, s.calls[x.1]? = some w → w.sync = true → w.batch.isSome = true → s.SyncedIn x.1 := by
  have h := hfresh.serial.run hok hrun
  have hfinished : ∀ x ∈ s.returned, x.1 < s.popped ∧ x.2 = .ok := fun x hx =>
    h.finished x (List.mem_append_right _ hx)
  have hpopped : s.popped ≤ s.insertedTo := by
    unfold insertedTo
    split <;> omega
  have hempty : s.writers = [] → s.popped = s.calls.length := fun hw => by
    have := h.popped_le
    have := List.drop_eq_nil_iff.1 hw
    omega
  refine ⟨⟨s.insertedTo, s.loggedTo, insertedTo_le s, loggedTo_le h, h.logged, h.inserted, ?_, ?_⟩, ?_, ?_, ?_, ?_⟩
  · intro x hx
    obtain ⟨hlt, hstatus⟩ := hfinished x hx
    exact ⟨hlt.trans_le hpopped, hstatus⟩
  · intro hw
    have := hempty hw
    have := (insertedTo_le s).trans (loggedTo_le h)
    omega
  · obtain ⟨new, hinserted, hheld⟩ := Keeps.run hrun
    rw [hfresh.inserted, List.nil_append] at hinserted
    rwa [hinserted]
  · have hdistinct := h.distinct
    rw [List.map_append] at hdistinct
    exact hdistinct.of_append_right
  · intro hw
    have hlast := h.lastSequence
    rwa [hempty hw, List.take_length] at hlast
  · intro x hx w hw hsync hbatch
    exact h.synced x.1 (hfinished x hx).1 w hw hsync hbatch

namespace GroupCommitSample

/-- Small enough that two batches fill the memtable. -/
def env : WriteEnv Nat :=
  { byteSize := List.length, approximateMemoryUsage := List.length, writeBufferSize := 1 }

def opened : WriteQueue Nat := { lastSequence := 10 }

/-- Three writers come while the first one is writing. Two of them are a group; the last one asks for `sync` and has to
lead. -/
def events : List (WriteEvent Nat) :=
  [.call { batch := some [(1, .value, [7])] }, .lead, .room, .call { batch := some [(2, .deletion, [])] },
    .call { batch := some [(1, .value, [8])] }, .call { batch := some [(3, .value, [9])], sync := true }, .addRecord .ok,
    .insertInto .ok, .relock, .lead, .room, .addRecord .ok, .insertInto .ok, .relock, .lead, .switchMemTable .ok .ok,
    .room, .addRecord .ok, .sync .ok, .wake 2, .insertInto .ok, .relock]

/-- Where they lead. -/
def written : WriteQueue Nat :=
  { calls :=
      [{ batch := some [(1, .value, [7])] }, { batch := some [(2, .deletion, [])] }, { batch := some [(1, .value, [8])] },
        { batch := some [(3, .value, [9])], sync := true }]
    popped := 4
    returned := [(0, .ok), (1, .ok), (2, .ok), (3, .ok)]
    lastSequence := 14
    log :=
      [{ writers := [0], sequence := 11, batch := [(1, .value, [7])] },
        { writers := [1, 2], sequence := 12, batch := [(2, .deletion, []), (1, .value, [8])] },
        { writers := [3], sequence := 14, batch := [(3, .value, [9])], synced := true }]
    inserted :=
      [(⟨1, packSequenceAndType 11 .value⟩, [7]), (⟨2, packSequenceAndType 12 .deletion⟩, []),
        (⟨1, packSequenceAndType 13 .value⟩, [8]), (⟨3, packSequenceAndType 14 .value⟩, [9])]
    mem := [(⟨3, packSequenceAndType 14 .value⟩, [9])]
    imm := some
      [(⟨1, packSequenceAndType 11 .value⟩, [7]), (⟨2, packSequenceAndType 12 .deletion⟩, []),
        (⟨1, packSequenceAndType 13 .value⟩, [8])] }

theorem opened_fresh : opened.Fresh := ⟨rfl, rfl, rfl, rfl, rfl, rfl, rfl, rfl, rfl⟩

theorem events_run : opened.run env events = some written := rfl

end GroupCommitSample

open GroupCommitSample in
theorem write_serial_sample : written.lastSequence = 10 + (written.calls.flatMap Writer.entries).length ∧
    written.held.Perm (opened.held ++ written.inserted) ∧ written.SyncedIn 3 := by
  have hok : ∀ e ∈ events, e.NoError := by simp [events, WriteEvent.NoError]
  obtain ⟨-, hheld, -, hlast, hsynced⟩ := write_serial env opened written events opened_fresh hok events_run
  exact ⟨hlast rfl, hheld, hsynced (3, .ok) (by simp [written]) _ rfl rfl rfl⟩

/-- A request with a null batch leads with nothing to write: it asked for `sync` and no record was written. -/
theorem nullBatch_not_synced : ∃ s,
    GroupCommitSample.opened.run GroupCommitSample.env
      [.call { batch := none, sync := true }, .lead, .switchMemTable .ok .ok, .room] = some s ∧
    (0, .ok) ∈ s.returned ∧ (s.calls[0]?.map (·.sync)) = some true ∧ ¬ s.SyncedIn 0 := by
  refine ⟨_, rfl, List.mem_singleton_self _, rfl, ?_⟩
  rintro ⟨r, hr, -⟩
  cases hr

end LevelDbSurf
