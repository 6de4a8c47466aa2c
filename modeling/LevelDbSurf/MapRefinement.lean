import LevelDbSurf.SharedDatabase

/-!
# The database is a map with snapshots

`Refines s m` relates a state of the database to one of the map: the newest writes at the last sequence number are the
current map, those at the sequence number of a snapshot its copy, and what a reader has referenced shows its copy
(`Pinned`). Every step keeps it (`Refines.step`): a write when its sequence numbers are published, a compaction because
it keeps what the snapshots there are may see, and all other steps because they change nothing that is stored.
-/

namespace LevelDbSurf

open Cursors Versions

variable {α : Type} [LinearOrder α]

namespace SharedDatabase

/-- The entries of the batch that are in the memtable. -/
def inserted (s : SharedDatabase α) : List (InternalKey α × Bytes) := (s.insertion.map (·.inserted)).getD []

/-- The last sequence number in the memtable. -/
def latest (s : SharedDatabase α) : Nat := s.db.lastSequence + s.inserted.length

/-- What a reader has referenced, and what it shows. -/
structure Pinned (s : SharedDatabase α) (r : Reader α) (copy : α → Option Bytes) : Prop where
  good : (s.readerSources r).Good
  shows : view (s.readerSources r).versions r.snapshot = copy
  snapshot : r.snapshot ≤ s.db.lastSequence
  bounds : ∀ x ∈ (s.readerSources r).entries, x.1.sequence ≤ s.latest
  older : ∀ imm ∈ r.imm, ∀ x ∈ s.memTables imm, ∀ y ∈ s.memTables r.mem, x.1.sequence < y.1.sequence
  mem : r.mem ≤ s.mem
  imm : ∀ n ∈ r.imm, n < r.mem
  files : ∀ level, ∀ f ∈ r.current.files level, f.number.toNat < s.db.nextFileNumber ∧
    ∀ run, s.db.running = some run → f.number ∉ run.work.numbers

/-- What is being inserted follows what is there. -/
structure Inserting (s : SharedDatabase α) (i : Insertion α) : Prop where
  batch : i.inserted ++ i.left = Database.insertInto (s.db.lastSequence + 1) i.batch
  last : s.db.lastSequence + i.batch.length < kMaxSequenceNumber

/-- The state of the database, as a state of the map. -/
structure Refines (s : SharedDatabase α) (m : MapStore α Bytes) : Prop where
  intact : s.db.Intact
  last : s.db.lastSequence < kMaxSequenceNumber
  memTable : s.memTables s.mem = s.db.mem ++ s.inserted
  immTable : s.imm.map s.memTables = s.db.imm
  immNumber : ∀ n ∈ s.imm, n < s.mem
  inserting : ∀ i ∈ s.insertion, s.Inserting i
  job : ∀ run, s.db.running = some run → run.job.smallestSnapshot ≤ s.db.lastSequence ∧
    ∀ snapshot ∈ s.snapshots, run.job.smallestSnapshot ≤ snapshot.sequenceNumber
  order : s.snapshots.Pairwise fun a b => a.sequenceNumber ≤ b.sequenceNumber
  current : m.current = view s.db.sources.versions s.db.lastSequence
  snapshots : List.Forall₂ (fun snapshot c => snapshot.handle = c.1 ∧ snapshot.sequenceNumber ≤ s.db.lastSequence ∧
    view s.db.sources.versions snapshot.sequenceNumber = c.2) s.snapshots m.snapshots
  readers : List.Forall₂ (fun r c => r.handle = c.1 ∧ s.Pinned r c.2) s.readers m.readers
  handles : s.readers.Pairwise fun a b => a.handle ≠ b.handle

variable {s s' : SharedDatabase α} {m : MapStore α Bytes} {env : Environment α} {r : Reader α}
  {copy : α → Option Bytes}

/-! ## Readers -/

/-- A reader does not notice what happens elsewhere. -/
theorem Pinned.frame (h : s.Pinned r copy)
    (hmem : s'.memTables r.mem = s.memTables r.mem) (himm : ∀ n ∈ r.imm, s'.memTables n = s.memTables n)
    (hcontents : ∀ level, ∀ f ∈ r.current.files level, s'.db.contents f.number = s.db.contents f.number)
    (hlast : s.db.lastSequence ≤ s'.db.lastSequence) (hlatest : s.latest ≤ s'.latest) (hnumber : s.mem ≤ s'.mem)
    (hfiles : ∀ level, ∀ f ∈ r.current.files level, f.number.toNat < s'.db.nextFileNumber ∧
      ∀ run, s'.db.running = some run → f.number ∉ run.work.numbers) : s'.Pinned r copy := by
  have himm' : r.imm.map s'.memTables = r.imm.map s.memTables := by
    cases himm' : r.imm with
    | none => rfl
    | some n => rw [Option.map_some, Option.map_some, himm n himm']
  have hsources : s'.readerSources r = { s.readerSources r with contents := s'.db.contents } := by
    unfold readerSources
    rw [hmem, himm']
  obtain ⟨hgood, hversions⟩ := h.good.congr hcontents
  have hentries : ({ s.readerSources r with contents := s'.db.contents } : Sources α).entries =
      (s.readerSources r).entries := Sources.entries_congr (fun _ => Iff.rfl) rfl hcontents
  refine ⟨?_, ?_, h.snapshot.trans hlast, ?_, ?_, h.mem.trans hnumber, h.imm, hfiles⟩
  · rw [hsources]
    exact hgood
  · rw [hsources, hversions]
    exact h.shows
  · rw [hsources, hentries]
    exact fun x hx => (h.bounds x hx).trans hlatest
  · intro n hn
    rw [hmem, himm n hn]
    exact h.older n hn

/-- A reader does not see what is inserted into its memtable. -/
theorem Pinned.push (h : s.Pinned r copy) (hmem : r.mem = s.mem)
    {x : InternalKey α × Bytes} (hx : x.1.sequence = s.latest + 1) (hparse : (parseInternalKey x.1).isSome)
    (hdb : s'.db = s.db) (hnumber : s'.mem = s.mem) (hlatest : s'.latest = s.latest + 1)
    (htables : s'.memTables = fun n => if n = s.mem then s.memTables n ++ [x] else s.memTables n) :
    s'.Pinned r copy := by
  have himm : ∀ n ∈ r.imm, s'.memTables n = s.memTables n := by
    intro n hn
    rw [htables]
    exact if_neg (hmem ▸ h.imm n hn).ne
  have himm' : r.imm.map s'.memTables = r.imm.map s.memTables := by
    cases himm' : r.imm with
    | none => rfl
    | some n => rw [Option.map_some, Option.map_some, himm n himm']
  have hmemTable : s'.memTables r.mem = s.memTables r.mem ++ [x] := by
    rw [htables]
    exact if_pos hmem
  have hsources : s'.readerSources r =
      { s.readerSources r with unflushed := (s.readerSources r).unflushed ++ [x] } := by
    unfold readerSources
    rw [himm', hmemTable, hdb, List.append_assoc]
  have hnewer : ∀ y ∈ (s.readerSources r).entries, y.1.sequence < x.1.sequence := by
    intro y hy
    have := h.bounds y hy
    omega
  obtain ⟨hgood, hversions⟩ := h.good.push (List.pairwise_singleton _ x)
    (fun y hy z hz => by rw [List.mem_singleton.1 hz]; exact hnewer y hy)
    (fun z hz => by rw [List.mem_singleton.1 hz]; exact hparse)
  refine ⟨?_, ?_, ?_, ?_, ?_, ?_, h.imm, ?_⟩
  · rw [hsources]
    exact hgood
  · rw [hsources, hversions, ← h.shows]
    funext k
    refine view_union_later ?_
    rintro w ⟨y, hy, hw⟩
    have hyx : y = x := by simpa using hy
    have hsnapshot := h.snapshot
    rw [(stampedOf_some hw).2.1, hyx, hx]
    unfold latest
    omega
  · rw [hdb]
    exact h.snapshot
  · rw [hsources, hlatest]
    rintro y (hy | hy)
    · rcases List.mem_append.1 hy with hy | hy
      · exact (h.bounds y (Or.inl hy)).trans (Nat.le_succ _)
      · rw [List.mem_singleton.1 hy, hx]
    · exact (h.bounds y (Or.inr hy)).trans (Nat.le_succ _)
  · intro n hn y hy z hz
    rw [himm n hn] at hy
    rw [hmemTable, List.mem_append, List.mem_singleton] at hz
    rcases hz with hz | rfl
    · exact h.older n hn y hy z hz
    · refine hnewer y (Or.inl (List.mem_append_left _ ?_))
      rw [Option.mem_def.1 hn]
      exact hy
  · rw [hnumber]
    exact h.mem
  · rw [hdb]
    exact h.files

/-! ## Steps -/

omit [LinearOrder α] in
/-- The entries of a batch are numbered one after the other. -/
theorem sequence_of_insertInto {n : Nat} {batch : List (α × ValueType × Bytes)}
    {before after : List (InternalKey α × Bytes)}
    {x : InternalKey α × Bytes} (h : before ++ x :: after = Database.insertInto n batch) :
    x.1.sequence = n + before.length := by
  induction before generalizing n batch with
  | nil =>
    cases batch with
    | nil => cases h
    | cons w batch =>
      rw [insertInto_cons, List.nil_append, List.cons.injEq] at h
      rw [h.1]
      exact (stampedOf_some (stampedOf_pack w.1 n w.2.1 w.2.2)).2.1.symm
  | cons y before ih =>
    cases batch with
    | nil => cases h
    | cons w batch =>
      rw [insertInto_cons, List.cons_append, List.cons.injEq] at h
      rw [ih h.2, List.length_cons]
      omega

theorem Refines.entries_le (h : s.Refines m) : ∀ x ∈ s.db.sources.entries, x.1.sequence ≤ s.db.lastSequence := by
  rintro x (hx | hx)
  · exact (h.intact.good.memtables.bounds x hx).2
  · exact h.intact.good.memtables.tables x hx

theorem Refines.versions_le (h : s.Refines m) : ∀ w ∈ s.db.sources.versions, w.stamp ≤ s.db.lastSequence := by
  rintro w ⟨x, hx, hw⟩
  rw [(stampedOf_some hw).2.1]
  exact h.entries_le x hx

/-- `Unlock`, and a batch to insert. -/
theorem Refines.beginWrite (h : s.Refines m) {batch : List (α × ValueType × Bytes)}
    (hstep : s.beginWrite batch = some s') : s'.Refines m := by
  unfold SharedDatabase.beginWrite at hstep
  split at hstep
  · rename_i hif
    cases hstep
    have hnone : s.insertion = none := Option.isNone_iff_eq_none.1 hif.1
    have hinserted : s.inserted = [] := by simp [inserted, hnone]
    have hlatest : s.latest ≤ s.db.lastSequence := by simp [latest, hinserted]
    refine ⟨h.intact, h.last, ?_, h.immTable, h.immNumber, ?_, h.job, h.order, h.current, h.snapshots, ?_,
      h.handles⟩
    · show s.memTables s.mem = s.db.mem ++ []
      rw [h.memTable, hinserted]
    · rintro i ⟨⟩
      exact ⟨rfl, hif.2⟩
    · exact h.readers.imp fun r c hr => ⟨hr.1, hr.2.frame rfl (fun _ _ => rfl) (fun _ _ _ => rfl) (le_refl _)
        (hlatest.trans (Nat.le_add_right _ _)) (le_refl _) hr.2.files⟩
  · cases hstep

/-- An entry is inserted. -/
theorem Refines.insert (h : s.Refines m) (hstep : s.insert = some s') : s'.Refines m := by
  unfold SharedDatabase.insert at hstep
  split at hstep
  · rename_i batch before x after hinsertion
    cases hstep
    obtain ⟨hbatch, hlast⟩ := h.inserting _ hinsertion
    dsimp only at hbatch hlast
    have hinserted : s.inserted = before := by simp [inserted, hinsertion]
    have hx : x.1.sequence = s.latest + 1 := by
      rw [sequence_of_insertInto hbatch, latest, hinserted]
      omega
    have hmemx : x ∈ Database.insertInto (s.db.lastSequence + 1) batch := by
      rw [← hbatch]
      simp
    have hparse := parses_insertInto hmemx
    have himm : ∀ n ∈ s.imm, n ≠ s.mem := fun n hn => (h.immNumber n hn).ne
    refine ⟨h.intact, h.last, ?_, ?_, h.immNumber, ?_, h.job, h.order, h.current, h.snapshots, ?_, h.handles⟩
    · show (if s.mem = s.mem then s.memTables s.mem ++ [x] else s.memTables s.mem) = s.db.mem ++ (before ++ [x])
      rw [if_pos rfl, h.memTable, hinserted, List.append_assoc]
    · rw [← h.immTable]
      dsimp only
      cases hi : s.imm with
      | none => rfl
      | some n => rw [Option.map_some, Option.map_some, if_neg (himm n hi)]
    · rintro i ⟨⟩
      exact ⟨by rw [← hbatch]; simp, hlast⟩
    · refine h.readers.imp fun r c hr => ⟨hr.1, ?_⟩
      have hlatest : ({ s with
          memTables := fun n => if n = s.mem then s.memTables n ++ [x] else s.memTables n
          insertion := some { batch, inserted := before ++ [x], left := after } } : SharedDatabase α).latest =
          s.latest + 1 := by
        simp [latest, inserted, hinsertion]
        omega
      by_cases hmem : r.mem = s.mem
      · exact hr.2.push hmem hx hparse rfl rfl hlatest rfl
      · have hlt : r.mem < s.mem := lt_of_le_of_ne hr.2.mem hmem
        refine hr.2.frame (if_neg hmem) (fun n hn => if_neg ?_) (fun _ _ _ => rfl) (le_refl _)
          (by rw [hlatest]; exact Nat.le_succ _) (le_refl _) hr.2.files
        exact ((hr.2.imm n hn).trans hlt).ne
  · cases hstep

/-- **The sequence numbers of a batch are published.** -/
theorem Refines.endWrite (h : s.Refines m) {i : Insertion α} (hi : s.insertion = some i)
    (hstep : s.endWrite = some s') : s'.Refines (m.step (.write (writesOf i.batch))) := by
  unfold SharedDatabase.endWrite at hstep
  split at hstep
  · rename_i batch before hinsertion
    obtain ⟨db', hdb', rfl⟩ := Option.map_eq_some_iff.1 hstep
    obtain rfl : i = ⟨batch, before, []⟩ := Option.some.inj (hi.symm.trans hinsertion)
    obtain ⟨hbatch, hlast⟩ := h.inserting _ hinsertion
    dsimp only at hbatch hlast
    obtain ⟨hintact, hof⟩ := h.intact.write hdb'
    obtain ⟨hmem, himm, hlastSequence⟩ := hof.memory
    have hentries := hof.entries
    dsimp only at hmem himm hlastSequence hentries
    rw [List.append_nil] at hbatch
    have hinserted : s.inserted = before := by simp [inserted, hinsertion]
    have hlength : before.length = batch.length := by
      rw [hbatch]
      simp [Database.insertInto]
    have hversions : db'.sources.versions =
        s.db.sources.versions ∪ {w | w ∈ stamp (s.db.lastSequence + 1) (writesOf batch)} := by
      rw [Sources.versions, hentries, versionsOf_union, versionsOf_insertInto]
      rfl
    have hwrites : (writesOf batch).length = batch.length := by simp [writesOf]
    have hle : s.db.lastSequence ≤ db'.lastSequence := by
      rw [hlastSequence]
      exact Nat.le_add_right _ _
    refine ⟨hintact, ?_, ?_, ?_, h.immNumber, by rintro i ⟨⟩, fun run hrun => ?_, h.order, ?_, ?_, ?_, h.handles⟩
    · show db'.lastSequence < _
      rw [hlastSequence]
      exact hlast
    · show s.memTables s.mem = db'.mem ++ []
      rw [h.memTable, hinserted, hmem, ← hbatch, List.append_nil]
    · show s.imm.map s.memTables = db'.imm
      rw [himm]
      exact h.immTable
    · obtain ⟨run', hrun', hjob⟩ := (hof.job run hrun).resolve_right (by rintro ⟨⟩)
      obtain ⟨hlastJob, hsnapshots⟩ := h.job run' hrun'
      rw [hjob]
      exact ⟨hlastJob.trans hle, hsnapshots⟩
    · -- the map after the writes
      show putAll m.current (writesOf batch) = view db'.sources.versions db'.lastSequence
      funext u
      rw [hversions, hlastSequence, h.current, ← hwrites, view_union_stamp h.intact.sources_good.unique h.versions_le]
    · refine h.snapshots.imp fun snapshot c hc => ⟨hc.1, hc.2.1.trans hle, ?_⟩
      rw [← hc.2.2]
      funext u
      dsimp only
      rw [hversions]
      refine view_union_later fun w hw => ?_
      have := (stamp_bounds hw).1
      have := hc.2.1
      omega
    · refine h.readers.imp fun r c hr => ⟨hr.1, hr.2.frame rfl (fun _ _ => rfl) (fun level f hf => ?_) hle ?_
        (le_refl _) fun level f hf => ?_⟩
      · obtain ⟨hnumber, hrunning⟩ := hr.2.files level f hf
        exact hof.contents f.number hnumber hrunning
      · show s.latest ≤ db'.lastSequence + 0
        rw [latest, hinserted, hlength, hlastSequence]
        exact le_refl _
      · obtain ⟨hnumber, hrunning⟩ := hr.2.files level f hf
        refine ⟨hnumber.trans_le hof.next, fun run hrun hin => ?_⟩
        rcases hof.numbers run hrun _ hin with ⟨run', hrun', hin'⟩ | hge
        · exact hrunning run' hrun' hin'
        · omega
  · cases hstep

/-- Pinned files are not written again, whatever the step. -/
theorem Pinned.files_of_step (h : s.Pinned r copy) {event : DatabaseEvent α} {db' : Database α}
    (hof : s.db.StepOf event db') : ∀ level, ∀ f ∈ r.current.files level, f.number.toNat < db'.nextFileNumber ∧
      ∀ run, db'.running = some run → f.number ∉ run.work.numbers := by
  intro level f hf
  obtain ⟨hnumber, hrunning⟩ := h.files level f hf
  refine ⟨hnumber.trans_le hof.next, fun run hrun hin => ?_⟩
  rcases hof.numbers run hrun _ hin with ⟨run', hrun', hin'⟩ | hge
  · exact hrunning run' hrun' hin'
  · omega

/-- A new memtable. -/
theorem Refines.switchMemTable (h : s.Refines m) (hstep : s.switchMemTable = some s') : s'.Refines m := by
  unfold SharedDatabase.switchMemTable at hstep
  split at hstep
  · rename_i hidle
    obtain ⟨db', hdb', rfl⟩ := Option.map_eq_some_iff.1 hstep
    have hnone : s.insertion = none := Option.isNone_iff_eq_none.1 hidle
    have hinserted : s.inserted = [] := by simp [inserted, hnone]
    obtain ⟨hintact, hof⟩ := h.intact.switchMemTable hdb'
    obtain ⟨-, himm, hmem, hlast⟩ := hof.memory
    have hversions : db'.sources.versions = s.db.sources.versions := congrArg versionsOf hof.entries
    have hmemTable := h.memTable
    rw [hinserted, List.append_nil] at hmemTable
    refine ⟨hintact, hlast ▸ h.last, ?_, ?_, ?_, ?_, fun run hrun => ?_, h.order, ?_, ?_, ?_, h.handles⟩
    · show (if s.mem + 1 = s.mem + 1 then [] else s.memTables (s.mem + 1)) = db'.mem ++ s.inserted
      rw [if_pos rfl, hmem, hinserted]
      rfl
    · show some (if s.mem = s.mem + 1 then [] else s.memTables s.mem) = db'.imm
      rw [if_neg (Nat.succ_ne_self _).symm, himm, hmemTable]
    · rintro n ⟨⟩
      exact Nat.lt_succ_self _
    · intro i hi
      rw [show s.insertion = none from hnone] at hi
      cases hi
    · obtain ⟨run', hrun', hjob⟩ := (hof.job run hrun).resolve_right (by rintro ⟨⟩)
      rw [hjob]
      exact hlast.symm ▸ h.job run' hrun'
    · show m.current = view db'.sources.versions db'.lastSequence
      rw [hversions, hlast]
      exact h.current
    · dsimp only
      rw [hversions, hlast]
      exact h.snapshots
    · refine h.readers.imp fun r c hr => ⟨hr.1, hr.2.frame (if_neg ?_) (fun n hn => if_neg ?_) (fun level f hf => ?_)
        hlast.ge ?_ (Nat.le_succ _) (hr.2.files_of_step hof)⟩
      · exact (Nat.lt_succ_of_le hr.2.mem).ne
      · exact ((hr.2.imm n hn).trans_le (hr.2.mem.trans (Nat.le_succ _))).ne
      · obtain ⟨hnumber, hrunning⟩ := hr.2.files level f hf
        exact hof.contents f.number hnumber hrunning
      · show s.db.lastSequence + s.inserted.length ≤ db'.lastSequence + s.inserted.length
        rw [hlast]
  · cases hstep

theorem Refines.smallestSnapshot_le (h : s.Refines m) : s.smallestSnapshot ≤ s.db.lastSequence ∧
    ∀ snapshot ∈ s.snapshots, s.smallestSnapshot ≤ snapshot.sequenceNumber := by
  have horder := h.order
  have hsnapshots := h.snapshots
  unfold SharedDatabase.smallestSnapshot
  cases hs : s.snapshots with
  | nil => exact ⟨le_refl _, by rintro _ ⟨⟩⟩
  | cons oldest snapshots =>
    rw [hs] at horder hsnapshots
    obtain ⟨c, cs, hc, -, -⟩ := List.forall₂_cons_left_iff.1 hsnapshots
    refine ⟨hc.2.1, fun snapshot hsnapshot => ?_⟩
    rcases List.mem_cons.1 hsnapshot with rfl | hsnapshot
    · exact le_refl _
    · exact (List.pairwise_cons.1 horder).1 snapshot hsnapshot

/-- **A step of the background thread.** -/
theorem Refines.background (h : s.Refines m) {event : DatabaseEvent α} (hclear : s.db.Clear event)
    (hstep : s.background env event = some s') : s'.Refines m := by
  unfold SharedDatabase.background at hstep
  split at hstep
  · rename_i hallows
    obtain ⟨db', hdb', rfl⟩ := Option.map_eq_some_iff.1 hstep
    obtain ⟨hsmallest, hoften⟩ := h.smallestSnapshot_le
    have hevent : ∀ q ∈ event.smallestSnapshot, q = s.smallestSnapshot := by
      rintro q hq
      cases event with
      | pickCompaction q' => cases hq; simpa [allows] using hallows
      | compactRange level begin_ end_ q' => cases hq; simpa [allows] using hallows
      | _ => cases hq
    obtain ⟨hintact, hof⟩ := h.intact.step hclear
      (fun q hq => by rw [hevent q hq]; exact hsmallest.trans_lt h.last) hdb'
    -- the memtable stays, and the immutable one stays or has been flushed
    have hmemory : db'.mem = s.db.mem ∧ (db'.imm = s.db.imm ∨ db'.imm = none) ∧
        db'.lastSequence = s.db.lastSequence := by
      have hmemory := hof.memory
      cases event with
      | write batch => cases hallows
      | switchMemTable => cases hallows
      | compactMemTable fileSize => exact ⟨hmemory.2.1, Or.inr hmemory.1, hmemory.2.2⟩
      | _ => exact ⟨hmemory.1, Or.inl hmemory.2.1, hmemory.2.2⟩
    obtain ⟨hmem, himm, hlast⟩ := hmemory
    -- what a snapshot sees stays, if the compaction under way keeps it
    have hviews : ∀ q, (∀ run, s.db.running = some run → run.job.smallestSnapshot ≤ q) →
        view db'.sources.versions q = view s.db.sources.versions q := by
      intro q hq
      have hentries := hof.entries
      cases event with
      | write batch => cases hallows
      | installCompaction =>
        obtain ⟨run, hrun, hthinned⟩ := hentries
        funext u
        exact hthinned.view_eq h.intact.sources_good.unique (hq run hrun)
      | _ => exact congrFun (congrArg (fun E => view (versionsOf E)) hentries) q
    refine ⟨hintact, hlast ▸ h.last, ?_, ?_, ?_, fun i hi => ?_, fun run hrun => ?_, h.order, ?_, ?_, ?_,
      h.handles⟩
    · show s.memTables s.mem = db'.mem ++ s.inserted
      rw [hmem]
      exact h.memTable
    · dsimp only
      rcases himm with heq | heq
      · rw [heq]
        cases hi : s.db.imm with
        | none => rfl
        | some imm =>
          rw [Option.isSome_some, if_pos rfl, ← hi]
          exact h.immTable
      · rw [heq]
        rfl
    · intro n hn
      dsimp only at hn
      split at hn
      · exact h.immNumber n hn
      · cases hn
    · obtain ⟨hbatch, hbound⟩ := h.inserting i hi
      exact ⟨hlast.symm ▸ hbatch, hlast.symm ▸ hbound⟩
    · rcases hof.job run hrun with ⟨run', hrun', hjob⟩ | hjob
      · rw [hjob]
        exact hlast.symm ▸ h.job run' hrun'
      · rw [hevent _ hjob]
        exact hlast.symm ▸ ⟨hsmallest, hoften⟩
    · show m.current = view db'.sources.versions db'.lastSequence
      rw [hlast, hviews _ fun run hrun => (h.job run hrun).1]
      exact h.current
    · have hboth := (List.forall₂_and_left s.snapshots m.snapshots).2
        ⟨fun snapshot hsnapshot run (hrun : s.db.running = some run) => (h.job run hrun).2 snapshot hsnapshot,
          h.snapshots⟩
      refine hboth.imp fun snapshot c hc => ⟨hc.2.1, hlast.symm ▸ hc.2.2.1, ?_⟩
      rw [← hc.2.2.2]
      exact hviews _ hc.1
    · refine h.readers.imp fun r c hr => ⟨hr.1, hr.2.frame rfl (fun _ _ => rfl) (fun level f hf => ?_) hlast.ge ?_
        (le_refl _) (hr.2.files_of_step hof)⟩
      · obtain ⟨hnumber, hrunning⟩ := hr.2.files level f hf
        exact hof.contents f.number hnumber hrunning
      · show s.db.lastSequence + s.inserted.length ≤ db'.lastSequence + s.inserted.length
        rw [hlast]
  · cases hstep

/-! ### The users -/

/-- A reader's references do not depend on who else reads, or on the snapshots there are. -/
theorem Pinned.users (h : s.Pinned r copy) (snapshots : List SnapshotImpl) (readers : List (Reader α)) :
    Pinned { s with snapshots, readers } r copy :=
  h.frame rfl (fun _ _ => rfl) (fun _ _ _ => rfl) (le_refl _) (le_refl _) (le_refl _) h.files

/-- A new snapshot. -/
theorem Refines.getSnapshot (h : s.Refines m) {handle : Nat} (hstep : s.getSnapshot handle = some s') :
    s'.Refines (m.step (.getSnapshot handle)) := by
  unfold SharedDatabase.getSnapshot at hstep
  split at hstep
  · cases hstep
    have hbefore : ∀ snapshot ∈ s.snapshots, snapshot.sequenceNumber ≤ s.db.lastSequence :=
      ((List.forall₂_and_left (R := fun _ _ => True) s.snapshots m.snapshots).1
        (h.snapshots.imp fun _ _ hc => ⟨hc.2.1, trivial⟩)).1
    refine ⟨h.intact, h.last, h.memTable, h.immTable, h.immNumber, fun i hi => ⟨(h.inserting i hi).1,
      (h.inserting i hi).2⟩, fun run hrun => ⟨(h.job run hrun).1, fun snapshot hsnapshot => ?_⟩, ?_, h.current, ?_, ?_,
      h.handles⟩
    · rcases List.mem_append.1 hsnapshot with hsnapshot | hsnapshot
      · exact (h.job run hrun).2 snapshot hsnapshot
      · rw [List.mem_singleton.1 hsnapshot]
        exact (h.job run hrun).1
    · refine List.pairwise_append.2 ⟨h.order, List.pairwise_singleton _ _, fun a ha b hb => ?_⟩
      rw [List.mem_singleton.1 hb]
      exact hbefore a ha
    · exact List.rel_append h.snapshots (List.Forall₂.cons ⟨rfl, le_refl _, h.current.symm⟩ List.Forall₂.nil)
    · exact h.readers.imp fun r c hr => ⟨hr.1, hr.2.users _ _⟩
  · cases hstep

/-- A snapshot is released. -/
theorem Refines.releaseSnapshot (h : s.Refines m) {handle : Nat} (hstep : s.releaseSnapshot handle = some s') :
    s'.Refines (m.step (.releaseSnapshot handle)) := by
  cases hstep
  refine ⟨h.intact, h.last, h.memTable, h.immTable, h.immNumber, fun i hi => ⟨(h.inserting i hi).1,
    (h.inserting i hi).2⟩, fun run hrun => ⟨(h.job run hrun).1, fun snapshot hsnapshot => ?_⟩,
    h.order.sublist List.filter_sublist, h.current, ?_, ?_, h.handles⟩
  · exact (h.job run hrun).2 snapshot (List.mem_filter.1 hsnapshot).1
  · refine List.rel_filter (fun snapshot c hc => ?_) h.snapshots
    simp [hc.1]
  · exact h.readers.imp fun r c hr => ⟨hr.1, hr.2.users _ _⟩

/-- A reader has the copy of the map that its snapshot is. -/
theorem Refines.readSequence (h : s.Refines m) {snapshot : Option Nat} {sequence : Nat}
    (hsequence : s.readSequence snapshot = some sequence) : sequence ≤ s.db.lastSequence ∧
      m.source snapshot = some (view s.db.sources.versions sequence) := by
  cases snapshot with
  | none =>
    cases hsequence
    exact ⟨le_refl _, congrArg some h.current⟩
  | some handle =>
    have hsnapshots := h.snapshots
    change (s.snapshots.find? fun snapshot => decide (snapshot.handle = handle)).map (·.sequenceNumber) = _ at hsequence
    show _ ∧ (m.snapshots.find? fun c => decide (c.1 = handle)).map Prod.snd = _
    generalize s.snapshots = snapshots at hsequence hsnapshots
    generalize m.snapshots = copies at hsnapshots ⊢
    induction hsnapshots with
    | nil => cases hsequence
    | @cons snapshot c snapshots copies hc _ ih =>
      rw [List.find?_cons] at hsequence ⊢
      by_cases hhandle : snapshot.handle = handle
      · rw [hc.1] at hhandle
        rw [hc.1, decide_eq_true hhandle] at hsequence
        cases hsequence
        rw [decide_eq_true hhandle]
        exact ⟨hc.2.1, congrArg some hc.2.2.symm⟩
      · rw [decide_eq_false hhandle] at hsequence
        rw [hc.1] at hhandle
        rw [decide_eq_false hhandle]
        exact ih hsequence

/-- What has been inserted is the beginning of a batch that follows what has been published. -/
theorem Refines.inserted_spec (h : s.Refines m) :
    (s.inserted.Pairwise fun x y => x.1.sequence < y.1.sequence) ∧ ∀ x ∈ s.inserted,
      s.db.lastSequence < x.1.sequence ∧ x.1.sequence ≤ s.latest ∧ (parseInternalKey x.1).isSome := by
  obtain ⟨after, batch, hbatch⟩ : ∃ after batch,
      s.inserted ++ after = Database.insertInto (s.db.lastSequence + 1) batch := by
    cases hi : s.insertion with
    | none => exact ⟨[], [], by simp [inserted, hi, Database.insertInto]⟩
    | some i => exact ⟨i.left, i.batch, by rw [← (h.inserting i hi).batch]; simp [inserted, hi]⟩
  have horder := Database.insertInto_sorted (s.db.lastSequence + 1) batch
  rw [← hbatch] at horder
  refine ⟨(List.pairwise_append.1 horder).1, fun x hx => ?_⟩
  obtain ⟨before, more, hsplit⟩ := List.append_of_mem hx
  have hseq : x.1.sequence = s.db.lastSequence + 1 + before.length :=
    sequence_of_insertInto (by rw [← hbatch, hsplit, List.append_assoc, List.cons_append])
  have hlength : before.length < s.inserted.length := by
    rw [hsplit, List.length_append, List.length_cons]
    omega
  refine ⟨by omega, by unfold latest; omega, ?_⟩
  have hmem : x ∈ Database.insertInto (s.db.lastSequence + 1) batch := hbatch ▸ List.mem_append_left _ hx
  exact parses_insertInto hmem

/-- The memtables and the current version, at any sequence number that has been published. -/
theorem Refines.pinned_current (h : s.Refines m) (sequence : Nat) (hle : sequence ≤ s.db.lastSequence)
    (handle : Nat) :
    s.Pinned ⟨handle, sequence, s.mem, s.imm, s.db.vset.current⟩ (view s.db.sources.versions sequence) := by
  have hsources : s.readerSources ⟨handle, sequence, s.mem, s.imm, s.db.vset.current⟩ =
      { s.db.sources with unflushed := s.db.sources.unflushed ++ s.inserted } := by
    unfold readerSources Database.sources Database.unflushed
    rw [h.immTable, h.memTable, List.append_assoc]
  obtain ⟨horder, hinserted⟩ := h.inserted_spec
  obtain ⟨hgood, hversions⟩ := h.intact.sources_good.push horder
    (fun x hx y hy => (h.entries_le x hx).trans_lt (hinserted y hy).1) fun x hx => (hinserted x hx).2.2
  refine ⟨?_, ?_, hle, ?_, ?_, le_refl _, h.immNumber, fun level f hf => h.intact.good.number_kept hf⟩
  · rw [hsources]
    exact hgood
  · rw [hsources, hversions]
    funext u
    refine view_union_later ?_
    rintro w ⟨x, hx, hw⟩
    rw [(stampedOf_some hw).2.1]
    exact hle.trans_lt (hinserted x hx).1
  · rw [hsources]
    rintro x (hx | hx)
    · rcases List.mem_append.1 hx with hx | hx
      · exact (h.entries_le x (Or.inl hx)).trans (Nat.le_add_right _ _)
      · exact (hinserted x hx).2.1
    · exact (h.entries_le x (Or.inr hx)).trans (Nat.le_add_right _ _)
  · intro n hn x hx y hy
    dsimp only at hn hy
    have himm : s.db.imm = some (s.memTables n) := by rw [← h.immTable, Option.mem_def.1 hn, Option.map_some]
    have hxu : x ∈ s.db.unflushed := by
      rw [Database.unflushed, himm]
      exact List.mem_append_left _ hx
    rw [h.memTable, List.mem_append] at hy
    rcases hy with hy | hy
    · have horder := h.intact.good.memtables.order
      rw [Database.unflushed, himm] at horder
      exact (List.pairwise_append.1 horder).2.2 x hx y hy
    · exact (h.entries_le x (Or.inl hxu)).trans_lt (hinserted y hy).1

/-- **A read begins.** -/
theorem Refines.beginRead (h : s.Refines m) {handle : Nat} {snapshot : Option Nat}
    (hstep : s.beginRead handle snapshot = some s') : s'.Refines (m.step (.beginRead handle snapshot)) := by
  unfold SharedDatabase.beginRead at hstep
  split at hstep
  · rename_i hfree
    obtain ⟨sequence, hsequence, rfl⟩ := Option.map_eq_some_iff.1 hstep
    obtain ⟨hle, hsource⟩ := h.readSequence hsequence
    refine ⟨h.intact, h.last, h.memTable, h.immTable, h.immNumber, fun i hi => ⟨(h.inserting i hi).1,
      (h.inserting i hi).2⟩, h.job, h.order, h.current, h.snapshots, ?_,
      List.pairwise_append.2 ⟨h.handles, List.pairwise_singleton _ _, fun a ha b hb => ?_⟩⟩
    swap
    · rw [List.mem_singleton.1 hb]
      simpa using List.all_eq_true.1 hfree a ha
    show List.Forall₂ _ _ (m.readers ++ ((m.source snapshot).map fun copy => (handle, copy)).toList)
    rw [hsource]
    refine List.rel_append (h.readers.imp fun r c hr => ⟨hr.1, hr.2.users _ _⟩)
      (List.Forall₂.cons ⟨rfl, ?_⟩ List.Forall₂.nil)
    exact (h.pinned_current sequence hle handle).users _ _
  · cases hstep

/-- A read ends. -/
theorem Refines.endRead (h : s.Refines m) {handle : Nat} (hstep : s.endRead handle = some s') :
    s'.Refines (m.step (.endRead handle)) := by
  cases hstep
  refine ⟨h.intact, h.last, h.memTable, h.immTable, h.immNumber, fun i hi => ⟨(h.inserting i hi).1,
    (h.inserting i hi).2⟩, h.job, h.order, h.current, h.snapshots, ?_, h.handles.sublist List.filter_sublist⟩
  refine List.rel_filter (fun r c hr => ?_) (h.readers.imp fun r c hr => ⟨hr.1, hr.2.users _ _⟩)
  simp [hr.1]

/-! ## Runs -/

/-- **Step.** -/
theorem Refines.step (h : s.Refines m) {event : SharedEvent α}
    (hclear : ∀ e, event = .background e → s.db.Clear e) (hstep : s.step env event = some s') :
    s'.Refines (s.follow event m) := by
  cases event with
  | beginWrite batch => exact h.beginWrite hstep
  | insert => exact h.insert hstep
  | endWrite =>
    cases hi : s.insertion with
    | none =>
      change s.endWrite = some s' at hstep
      simp [SharedDatabase.endWrite, hi] at hstep
    | some i =>
      have hfollow : s.follow .endWrite m = m.step (.write (writesOf i.batch)) := by
        simp [follow, seenAs, hi]
      rw [hfollow]
      exact h.endWrite hi hstep
  | switchMemTable => exact h.switchMemTable hstep
  | background e => exact h.background (hclear e rfl) hstep
  | getSnapshot handle => exact h.getSnapshot hstep
  | releaseSnapshot handle => exact h.releaseSnapshot hstep
  | beginRead handle snapshot => exact h.beginRead hstep
  | endRead handle => exact h.endRead hstep

theorem run_cons_some {event : SharedEvent α} {events : List (SharedEvent α)}
    {states : List (SharedDatabase α × MapStore α Bytes)} : s.run env m (event :: events) = some states ↔
      ∃ s' rest, s.step env event = some s' ∧ s'.run env (s.follow event m) events = some rest ∧
        states = (s, m) :: rest := by
  simp only [SharedDatabase.run, Option.bind_eq_bind, Option.bind_eq_some_iff, Option.pure_def, Option.some.injEq]
  constructor
  · rintro ⟨s', hstep, rest, hrest, rfl⟩
    exact ⟨s', rest, hstep, hrest, rfl⟩
  · rintro ⟨s', rest, hstep, hrest, rfl⟩
    exact ⟨s', hstep, rest, hrest, rfl⟩

/-- **Run.** -/
theorem Refines.run {events : List (SharedEvent α)} {states : List (SharedDatabase α × MapStore α Bytes)}
    (h : s.Refines m) (hclear : s.ClearRun env events) (hrun : s.run env m events = some states) :
    ∀ p ∈ states, p.1.Refines p.2 := by
  induction events generalizing s m states with
  | nil =>
    obtain rfl := Option.some.inj hrun
    simpa using h
  | cons event events ih =>
    obtain ⟨s', rest, hstep, hrest, rfl⟩ := run_cons_some.1 hrun
    simp only [List.mem_cons, forall_eq_or_imp]
    exact ⟨h, ih (h.step hclear.1 hstep) (hclear.2 s' hstep) hrest⟩

/-- A database without users is the map of its newest writes. -/
theorem refines_opened {db : Database α} (h : db.Intact) (hidle : db.running = none)
    (hlast : db.lastSequence < kMaxSequenceNumber) :
    (opened db).Refines { current := view db.sources.versions db.lastSequence } := by
  refine ⟨h, hlast, ?_, ?_, ?_, by rintro i ⟨⟩, fun run hrun => ?_, List.Pairwise.nil, rfl, List.Forall₂.nil,
    List.Forall₂.nil, List.Pairwise.nil⟩
  · show (if 1 = 1 then db.mem else db.imm.getD []) = db.mem ++ []
    rw [if_pos rfl, List.append_nil]
  · show (db.imm.map fun _ => 0).map (fun n => if n = 1 then db.mem else db.imm.getD []) = db.imm
    cases db.imm with
    | none => rfl
    | some imm => rfl
  · intro n hn
    obtain ⟨imm, -, rfl⟩ := Option.map_eq_some_iff.1 hn
    exact Nat.zero_lt_one
  · change db.running = some run at hrun
    rw [hidle] at hrun
    cases hrun

/-- The copy a reader has. -/
theorem Refines.reader (h : s.Refines m) (hr : r ∈ s.readers) :
    ∃ copy, m.reader r.handle = some copy ∧ s.Pinned r copy := by
  have hreaders := h.readers
  have hhandles := h.handles
  unfold MapStore.reader
  generalize s.readers = readers at hr hreaders hhandles
  generalize m.readers = copies at hreaders ⊢
  induction hreaders with
  | nil => cases hr
  | @cons r' c readers copies hc _ ih =>
    obtain ⟨hfirst, hhandles⟩ := List.pairwise_cons.1 hhandles
    rw [List.find?_cons, ← hc.1]
    rcases List.mem_cons.1 hr with rfl | hr
    · rw [decide_eq_true rfl]
      exact ⟨c.2, rfl, hc.2⟩
    · rw [decide_eq_false (hfirst r hr)]
      exact ih hr hhandles

/-- What `Get` and the iterators of a reader go through are its sources. -/
theorem Pinned.reads (h : s.Pinned r copy) (cache : TableCache α) :
    (s.readerImpl r cache).Reads (s.readerSources r) := by
  refine ⟨rfl, ⟨mergeAll_sorted _, ?_⟩, fun x => ?_, ?_⟩
  · intro imm himm
    obtain ⟨n, -, rfl⟩ := Option.map_eq_some_iff.1 himm
    exact mergeAll_sorted _
  · unfold readerSources readerImpl
    rw [List.mem_append, or_comm]
    refine or_congr (by simp [mem_mergeAll]) ?_
    cases r.imm with
    | none => simp
    | some n => simp [mem_mergeAll]
  · intro imm himm x hx y hy
    obtain ⟨n, hn, rfl⟩ := Option.map_eq_some_iff.1 himm
    have hx : x ∈ s.memTables n := by simpa [mem_mergeAll] using hx
    have hy : y ∈ s.memTables r.mem := by simpa [readerImpl, mem_mergeAll] using hy
    exact h.older n hn x hx y hy

end SharedDatabase

end LevelDbSurf
