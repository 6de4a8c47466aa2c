import LevelDbSurf.StoredVersions

/-!
# What a step does to what is stored

Of all steps of the database only a write adds entries, and only the installation of a compaction's outputs takes some
away: those that its drop rules leave out, behind a newer entry or with nothing left to delete (`Intact.thinned`). The
loop of a compaction is under way while memtables are flushed, so the rules speak of the version it began with, and
what came after is newer.
-/

namespace LevelDbSurf

open Cursors Versions

variable {α : Type} [LinearOrder α]

/-- What a read of the database goes through. -/
def Database.sources (db : Database α) : Sources α := ⟨db.unflushed, db.vset.current, db.contents⟩

/-- All entries of the input files, in order. -/
def RunningCompaction.allInput (r : RunningCompaction α) (contents : UInt64 → List (InternalKey α × Bytes)) :
    List (InternalKey α × Bytes) :=
  mergeAll ((r.job.compaction.inputs0 ++ r.job.compaction.inputs1).map fun f => contents f.number)

/-- The loop has written what the drop rules keep of what it has read, and goes on like that. -/
structure RunningCompaction.Exact (contents : UInt64 → List (InternalKey α × Bytes)) (r : RunningCompaction α) :
    Prop where
  valid : ValidVersion contents r.job.inputVersion
  snapshot : r.job.smallestSnapshot < kMaxSequenceNumber
  kept : DropState.kept r.job {} (r.allInput contents) = r.work.written ++ DropState.kept r.job r.work.drop r.input

/-- `Good`, with all keys parsing, the largest key of each file in it, and the compaction under way exact. -/
structure Database.Intact (db : Database α) : Prop where
  good : db.Good
  parses : ∀ x ∈ db.sources.entries, (parseInternalKey x.1).isSome
  largest : ∀ level, ∀ f ∈ db.vset.current.files level, ∃ x ∈ db.contents f.number, x.1 = f.largest
  running : ∀ r, db.running = some r → r.Exact db.contents

theorem Database.Intact.sources_good {db : Database α} (h : db.Intact) : db.sources.Good where
  valid := h.good.version
  order := h.good.memtables.order
  newer := h.good.memtables.newer
  parses := h.parses
  largest := h.largest

/-- The oldest snapshot a compaction that begins here keeps. -/
def DatabaseEvent.smallestSnapshot : DatabaseEvent α → Option Nat
  | .pickCompaction s => some s
  | .compactRange _ _ _ s => some s
  | _ => none

/-! ## The outputs of a compaction -/

section Thinned
variable {db : Database α} {r : RunningCompaction α}

theorem RunningCompaction.mem_allInput {contents : UInt64 → List (InternalKey α × Bytes)}
    {x : InternalKey α × Bytes} :
    x ∈ r.allInput contents ↔ ∃ level f, r.job.compaction.IsInput level f ∧ x ∈ contents f.number := by
  unfold allInput Compaction.IsInput
  rw [mem_mergeAll]
  constructor
  · rintro ⟨L, hL, hx⟩
    obtain ⟨f, hf, rfl⟩ := List.mem_map.1 hL
    rcases List.mem_append.1 hf with hf | hf
    · exact ⟨_, f, Or.inl ⟨rfl, hf⟩, hx⟩
    · exact ⟨_, f, Or.inr ⟨rfl, hf⟩, hx⟩
  · rintro ⟨level, f, ⟨-, hf⟩ | ⟨-, hf⟩, hx⟩
    · exact ⟨_, List.mem_map.2 ⟨f, List.mem_append_left _ hf, rfl⟩, hx⟩
    · exact ⟨_, List.mem_map.2 ⟨f, List.mem_append_right _ hf, rfl⟩, hx⟩

theorem RunningCompaction.Exact.allInput_sorted {contents : UInt64 → List (InternalKey α × Bytes)}
    (h : r.Exact contents) (hsetup : r.job.compaction.SetUp r.job.inputVersion) :
    (r.allInput contents).Pairwise fun x y => x.1 < y.1 := by
  refine hsetup.input_sorted h.valid.layers h.valid.filed.nodup (mergeAll_sorted _) ?_
  rw [List.flatMap_def]
  exact mergeAll_perm _

/-- An entry of a user key that sorts before another was written after it. -/
theorem Sources.Good.sequence_lt {S : Sources α} (h : S.Good) {x y : InternalKey α × Bytes} (hx : x ∈ S.entries)
    (hy : y ∈ S.entries) (hu : y.1.userKey = x.1.userKey) (hlt : y.1 < x.1) : x.1.sequence < y.1.sequence := by
  refine lt_of_le_of_ne (InternalKey.sequence_le hlt.le hu) fun heq => ?_
  rw [h.eq_of_sequence hx hy hu.symm heq] at hlt
  exact lt_irrefl _ hlt

/-- **The outputs in place of the inputs.** -/
theorem Database.Intact.thinned (h : db.Intact) (hr : db.running = some r) (hinput : r.input = []) {S' : Sources α}
    (hunflushed : S'.unflushed = db.unflushed)
    (htables : ∀ y, S'.InTables y ↔ y ∈ r.outputs.flatMap (·.entries) ∨
      ∃ level, ∃ f ∈ db.vset.current.files level, ¬ r.job.compaction.IsInput level f ∧ y ∈ db.contents f.number) :
    Thinned r.job.smallestSnapshot db.sources.versions S'.versions := by
  have hgood := h.good.running r hr
  have hexact := h.running r hr
  have hinputs : ∀ {level f}, r.job.compaction.IsInput level f → f ∈ db.vset.current.files level :=
    fun hf => hgood.kept _ _ (hgood.setUp.mem hf)
  have hin : ∀ {x}, x ∈ r.allInput db.contents → x ∈ db.sources.entries := by
    intro x hx
    obtain ⟨level, f, hf, hxf⟩ := RunningCompaction.mem_allInput.1 hx
    exact Or.inr ⟨level, f, hinputs hf, hxf⟩
  have houtputs : r.outputs.flatMap (·.entries) = DropState.kept r.job {} (r.allInput db.contents) := by
    rw [(RunningCompaction.outputs_spec hgood.recorded).2.1, hexact.kept, hinput]
    simp [DropState.kept]
  have hsorted := hexact.allInput_sorted hgood.setUp
  have hkept := fun y => DropState.mem_kept (y := y) hexact.valid.sortedLevels hexact.snapshot hsorted
    fun x hx => h.parses x (hin hx)
  have hsub : ∀ x, x ∈ S'.entries → x ∈ db.sources.entries := by
    rintro x (hx | hx)
    · rw [hunflushed] at hx
      exact Or.inl hx
    · rcases (htables x).1 hx with hx | ⟨level, f, hf, -, hx⟩
      · exact hin ((hkept x).1 (houtputs ▸ hx)).1
      · exact Or.inr ⟨level, f, hf, hx⟩
  refine ⟨?_, ?_⟩
  · rintro w ⟨x, hx, hw⟩
    exact ⟨x, hsub x hx, hw⟩
  rintro w ⟨x, hx, hw⟩ hgone
  have hgone : x ∉ S'.entries := fun hx' => hgone ⟨x, hx', hw⟩
  obtain ⟨hkey, hstamp, -⟩ := stampedOf_some hw
  -- the entry was in an input, and the loop has dropped it
  obtain ⟨level, f, hf, hxf⟩ : db.InTables x := hx.resolve_left fun hx => hgone (Or.inl (hunflushed ▸ hx))
  have hfin : r.job.compaction.IsInput level f := by
    by_contra hnot
    exact hgone (Or.inr ((htables x).2 (Or.inr ⟨level, f, hf, hnot, hxf⟩)))
  have hxin : x ∈ r.allInput db.contents := RunningCompaction.mem_allInput.2 ⟨level, f, hfin, hxf⟩
  have hdropped : x ∉ DropState.kept r.job {} (r.allInput db.contents) :=
    fun hx' => hgone (Or.inr ((htables x).2 (Or.inl (houtputs.symm ▸ hx'))))
  by_cases hhidden : DropState.Hidden r.job.smallestSnapshot (r.allInput db.contents) x
  · obtain ⟨y, hy, hlt, hu, hle⟩ := hhidden
    obtain ⟨w', hw'⟩ := exists_stampedOf (h.parses y (hin hy))
    obtain ⟨hkey', hstamp', -⟩ := stampedOf_some hw'
    refine Or.inl ⟨w', ⟨y, hin hy, hw'⟩, ?_, ?_, ?_⟩
    · rw [hkey, hkey', hu]
    · rw [hstamp, hstamp']
      exact h.sources_good.sequence_lt hx (hin hy) hu hlt
    · rw [hstamp']
      exact hle
  · have hobsolete : DropState.Obsolete r.job x := by
      by_contra hnot
      exact hdropped ((hkept x).2 ⟨hxin, hhidden, hnot⟩)
    obtain ⟨⟨p, hp, htype⟩, hseq, hbase⟩ := hobsolete
    refine Or.inr ⟨?_, ?_⟩
    · rw [← liveValue_eq hw]
      simp [liveValue, hp, htype]
    rintro w' ⟨y, hy, hw'⟩ hsame
    obtain ⟨hkey', hstamp', -⟩ := stampedOf_some hw'
    have hu : y.1.userKey = x.1.userKey := by rw [← hkey', hsame, hkey]
    rw [hstamp, hstamp']
    rcases hy with hy | hy
    · rw [hunflushed] at hy
      exact h.good.memtables.newer x ⟨level, f, hf, hxf⟩ y hy
    rcases (htables y).1 hy with hyout | ⟨level', g, hg, hnot, hyg⟩
    · -- another entry that was kept: it would be hidden behind this one
      obtain ⟨hyin, hyhidden, -⟩ := (hkept y).1 (houtputs ▸ hyout)
      rcases lt_trichotomy y.1 x.1 with hlt | heq | hlt
      · exact h.sources_good.sequence_lt hx (hin hyin) hu hlt
      · have hyx : y = x := h.sources_good.eq_of_sequence (hin hyin) hx hu (congrArg _ heq)
        exact absurd (Or.inr (hyx ▸ hy)) hgone
      · exact absurd ⟨x, hxin, hlt, hu.symm, hseq⟩ hyhidden
    · by_cases hgv : g ∈ r.job.inputVersion.files level'
      · rcases lt_trichotomy y.1 x.1 with hlt | heq | hlt
        · exact h.sources_good.sequence_lt hx (Or.inr ⟨level', g, hg, hyg⟩) hu hlt
        · have hyx : y = x :=
            h.sources_good.eq_of_sequence (Or.inr ⟨level', g, hg, hyg⟩) hx hu (congrArg _ heq)
          exact absurd (Or.inr (hyx ▸ hy)) hgone
        · -- an older entry would be below the outputs, but there is none
          have hbelow := hgood.setUp.older_below hexact.valid.layers hfin hgv hnot hxf hyg hu.symm hlt
          have hl : level' < kNumLevels := by
            by_contra hl
            rw [hexact.valid.filed.none_beyond level' (not_lt.1 hl)] at hgv
            exact absurd hgv (by simp)
          have hwithin := (hexact.valid.tables level' g hgv).within y hyg
          refine absurd ⟨?_, ?_⟩ (hbase level' (List.mem_range'_1.2 (by omega)) g hgv)
          · rw [← hu]
            exact InternalKey.userKey_le hwithin.1
          · rw [← hu]
            exact InternalKey.userKey_le hwithin.2
      · exact (hgood.flushed level' g hg hgv).newer level f (hgood.setUp.mem hfin) y hyg x hxf

end Thinned

/-! ## Steps -/

/-- What a step may change: the memtables, and what is stored; the tables there were stay as they are. -/
structure Database.StepOf (db : Database α) (event : DatabaseEvent α) (db' : Database α) : Prop where
  next : db.nextFileNumber ≤ db'.nextFileNumber
  contents : ∀ n : UInt64, n.toNat < db.nextFileNumber → (∀ r, db.running = some r → n ∉ r.work.numbers) →
    db'.contents n = db.contents n
  numbers : ∀ r', db'.running = some r' → ∀ n ∈ r'.work.numbers,
    (∃ r, db.running = some r ∧ n ∈ r.work.numbers) ∨ db.nextFileNumber ≤ n.toNat
  job : ∀ r', db'.running = some r' →
    (∃ r, db.running = some r ∧ r'.job = r.job) ∨ event.smallestSnapshot = some r'.job.smallestSnapshot
  memory : match event with
    | .write batch => db'.mem = db.mem ++ Database.insertInto (db.lastSequence + 1) batch ∧ db'.imm = db.imm ∧
        db'.lastSequence = db.lastSequence + batch.length
    | .switchMemTable => db.imm = none ∧ db'.imm = some db.mem ∧ db'.mem = [] ∧ db'.lastSequence = db.lastSequence
    | .compactMemTable _ => db'.imm = none ∧ db'.mem = db.mem ∧ db'.lastSequence = db.lastSequence
    | _ => db'.mem = db.mem ∧ db'.imm = db.imm ∧ db'.lastSequence = db.lastSequence
  entries : match event with
    | .write batch => db'.sources.entries =
        db.sources.entries ∪ {x | x ∈ Database.insertInto (db.lastSequence + 1) batch}
    | .installCompaction => ∃ r, db.running = some r ∧
        Thinned r.job.smallestSnapshot db.sources.versions db'.sources.versions
    | _ => db'.sources.entries = db.sources.entries

section Steps
variable {db db' : Database α} {env : Environment α}

theorem RunningCompaction.Exact.congr {contents contents' : UInt64 → List (InternalKey α × Bytes)}
    {r : RunningCompaction α} (h : r.Exact contents) (hsetup : r.job.compaction.SetUp r.job.inputVersion)
    (hcontents : ∀ level, ∀ f ∈ r.job.inputVersion.files level, contents' f.number = contents f.number) :
    r.Exact contents' := by
  have hinput : r.allInput contents' = r.allInput contents := by
    refine congrArg mergeAll (List.map_congr_left fun f hf => ?_)
    rcases List.mem_append.1 hf with hf | hf
    · exact hcontents _ f (hsetup.mem (Or.inl ⟨rfl, hf⟩))
    · exact hcontents _ f (hsetup.mem (Or.inr ⟨rfl, hf⟩))
  exact ⟨h.valid.congr rfl hcontents, h.snapshot, by rw [hinput]; exact h.kept⟩

namespace Database

/-- No file of the version is written again. -/
theorem Good.number_kept (h : db.Good) {level : Nat} {f : FileMetaData α} (hf : f ∈ db.vset.current.files level) :
    f.number.toNat < db.nextFileNumber ∧ ∀ r, db.running = some r → f.number ∉ r.work.numbers :=
  ⟨h.numbers.used level f hf, fun r hr hn => ((h.running r hr).numbersNew _ hn).2 level ⟨f, hf, rfl⟩⟩

/-- A step whose tables were there before, or are new and in order. -/
theorem Intact.of_tables (h : db.Intact) (hgood : db'.Good)
    (hparses : ∀ x ∈ db'.unflushed, (parseInternalKey x.1).isSome)
    (htables : ∀ level, ∀ f ∈ db'.vset.current.files level,
      (∃ level', f ∈ db.vset.current.files level' ∧ db'.contents f.number = db.contents f.number) ∨
        ((∃ x ∈ db'.contents f.number, x.1 = f.largest) ∧
          ∀ x ∈ db'.contents f.number, (parseInternalKey x.1).isSome))
    (hrunning : ∀ r', db'.running = some r' → r'.Exact db'.contents) : db'.Intact where
  good := hgood
  parses := by
    rintro x (hx | ⟨level, f, hf, hx⟩)
    · exact hparses x hx
    · rcases htables level f hf with ⟨level', hf', heq⟩ | ⟨-, hall⟩
      · have hx' : x ∈ db.contents f.number := heq ▸ hx
        exact h.parses x (Or.inr ⟨level', f, hf', hx'⟩)
      · exact hall x hx
  largest level f hf := by
    rcases htables level f hf with ⟨level', hf', heq⟩ | ⟨hlargest, -⟩
    · rw [heq]
      exact h.largest level' f hf'
    · exact hlargest
  running := hrunning

/-- A step that leaves the version and its tables alone. -/
theorem Intact.congr (h : db.Intact) (hgood : db'.Good) (hfiles : db'.vset.current.files = db.vset.current.files)
    (hcontents : db'.contents = db.contents) (hparses : ∀ x ∈ db'.unflushed, (parseInternalKey x.1).isSome)
    (hrunning : ∀ r', db'.running = some r' → r'.Exact db.contents) : db'.Intact :=
  h.of_tables hgood hparses (fun level _ hf => Or.inl ⟨level, hfiles ▸ hf, congrFun hcontents _⟩)
    fun r' hr' => hcontents.symm ▸ hrunning r' hr'

theorem Intact.unflushed_parses (h : db.Intact) : ∀ x ∈ db.unflushed, (parseInternalKey x.1).isSome :=
  fun x hx => h.parses x (Or.inl hx)

theorem sources_entries_congr (hunflushed : db'.unflushed = db.unflushed)
    (hfiles : db'.vset.current.files = db.vset.current.files) (hcontents : db'.contents = db.contents) :
    db'.sources.entries = db.sources.entries :=
  Sources.entries_congr (fun x => by show x ∈ db'.unflushed ↔ _; rw [hunflushed]; rfl) hfiles
    fun _ _ _ => congrFun hcontents _

/-- **A write.** -/
theorem Intact.write (h : db.Intact) {batch : List (α × ValueType × Bytes)} (hstep : db.write batch = some db') :
    db'.Intact ∧ db.StepOf (.write batch) db' := by
  have hgood := h.good.write hstep
  unfold Database.write at hstep
  split at hstep
  · cases hstep
    refine ⟨h.congr hgood rfl rfl (fun x hx => ?_) fun r hr => h.running r hr,
      ⟨le_refl _, fun _ _ _ => rfl, fun r hr n hn => Or.inl ⟨r, hr, hn⟩, fun r hr => Or.inl ⟨r, hr, rfl⟩,
        ⟨rfl, rfl, rfl⟩, ?_⟩⟩
    · rw [unflushed, ← List.append_assoc, List.mem_append] at hx
      rcases hx with hx | hx
      · exact h.unflushed_parses x hx
      · exact parses_insertInto hx
    · ext x
      simp only [sources, Sources.entries, Sources.InTables, unflushed, ← List.append_assoc, List.mem_append,
        Set.mem_union, Set.mem_ofPred_eq]
      exact or_right_comm
  · cases hstep

/-- **A switch of memtables.** -/
theorem Intact.switchMemTable (h : db.Intact) (hstep : db.switchMemTable = some db') :
    db'.Intact ∧ db.StepOf .switchMemTable db' := by
  have hgood := h.good.switchMemTable hstep
  unfold Database.switchMemTable at hstep
  split at hstep
  · rename_i hif
    cases hstep
    have hunflushed : ({ db with imm := some db.mem, mem := [], nextFileNumber := db.nextFileNumber + 1 } :
        Database α).unflushed = db.unflushed := by
      rw [unflushed, unflushed, hif.1]
      exact List.append_nil _
    exact ⟨h.congr hgood rfl rfl (fun x hx => h.unflushed_parses x (hunflushed ▸ hx)) fun r hr => h.running r hr,
      ⟨Nat.le_succ _, fun _ _ _ => rfl, fun r hr n hn => Or.inl ⟨r, hr, hn⟩, fun r hr => Or.inl ⟨r, hr, rfl⟩,
        ⟨hif.1, rfl, rfl, rfl⟩, sources_entries_congr hunflushed rfl rfl⟩⟩
  · cases hstep

/-- **A charged seek.** -/
theorem Intact.chargeSeek (h : db.Intact) {level : Nat} {f : FileMetaData α}
    (hstep : db.chargeSeek level f = some db') : db'.Intact ∧ db.StepOf (.chargeSeek level f) db' := by
  have hgood := h.good.chargeSeek hstep
  unfold Database.chargeSeek at hstep
  split at hstep
  · cases hstep
    exact ⟨h.congr hgood rfl rfl h.unflushed_parses fun r hr => h.running r hr,
      ⟨le_refl _, fun _ _ _ => rfl, fun r hr n hn => Or.inl ⟨r, hr, hn⟩, fun r hr => Or.inl ⟨r, hr, rfl⟩,
        ⟨rfl, rfl, rfl⟩, sources_entries_congr rfl rfl rfl⟩⟩
  · cases hstep

/-- **A compaction given up.** -/
theorem Intact.cleanupCompaction (h : db.Intact) (hstep : db.cleanupCompaction = some db') :
    db'.Intact ∧ db.StepOf .cleanupCompaction db' := by
  have hgood := h.good.cleanupCompaction hstep
  unfold Database.cleanupCompaction at hstep
  split at hstep
  · cases hstep
    exact ⟨h.congr hgood rfl rfl h.unflushed_parses (by rintro r ⟨⟩),
      ⟨le_refl _, fun _ _ _ => rfl, by rintro r ⟨⟩, by rintro r ⟨⟩, ⟨rfl, rfl, rfl⟩,
        sources_entries_congr rfl rfl rfl⟩⟩
  · cases hstep

/-- **One round of the compaction loop.** -/
theorem Intact.workOn (h : db.Intact) (hstep : db.workOn = some db') : db'.Intact ∧ db.StepOf .workOn db' := by
  have hgood := h.good.workOn hstep
  unfold Database.workOn at hstep
  split at hstep
  · cases hstep
  · rename_i r hr
    split at hstep
    · cases hstep
    · rename_i x input hinput
      split at hstep
      · cases hstep
        obtain ⟨-, hwritten, hnumbers, hdrop⟩ := CompactionWork.step_spec r.job db.newFileNumber x
          (h.good.running r hr).recorded
        have hexact := h.running r hr
        refine ⟨h.congr hgood rfl rfl h.unflushed_parses ?_, ⟨Nat.le_add_right _ _, fun _ _ _ => rfl, ?_, ?_,
          ⟨rfl, rfl, rfl⟩, sources_entries_congr rfl rfl rfl⟩⟩
        · rintro r' ⟨⟩
          refine ⟨hexact.valid, hexact.snapshot, ?_⟩
          show DropState.kept r.job {} (r.allInput db.contents) = _
          rw [hexact.kept, hinput, DropState.kept]
          dsimp only
          rw [hwritten, hdrop]
          split <;> simp
        · rintro r' ⟨⟩ n hn
          dsimp only at hn
          rcases hnumbers with heq | heq
          · rw [heq] at hn
            exact Or.inl ⟨r, hr, hn⟩
          · rw [heq, List.mem_append, List.mem_singleton] at hn
            rcases hn with hn | rfl
            · exact Or.inl ⟨r, hr, hn⟩
            · exact Or.inr h.good.numbers.newFileNumber_toNat.ge
        · rintro r' ⟨⟩
          exact Or.inl ⟨r, hr, rfl⟩
      · cases hstep

/-! ### Flushes -/

end Database

theorem buildTable_none {number fileSize : UInt64} {entries : List (InternalKey α × Bytes)}
    (hsorted : entries.Pairwise fun x y => x.1 < y.1) (h : buildTable number fileSize entries = none) :
    entries = [] := by
  unfold buildTable at h
  split at h
  · rename_i first last hfirst hlast
    rw [dif_pos (bounds_of_sorted hsorted hfirst hlast (List.mem_of_head? hfirst)).2] at h
    cases h
  · rename_i hnone
    cases entries with
    | nil => rfl
    | cons x entries => exact absurd (List.getLast?_eq_some_getLast (List.cons_ne_nil x entries)) (hnone x _ rfl)

namespace Database

/-- The files after `WriteLevel0Table`: those there were, and the one that was built, if there are entries. -/
theorem Good.mem_writeLevel0Table (h : db.Good) (fileSize : UInt64) (entries : List (InternalKey α × Bytes)) :
    ∃ level₀, ∀ level f, f ∈ ((Builder.apply { base := db.vset.current }
        (db.writeLevel0Table fileSize entries)).saveTo).files level ↔
      (level = level₀ ∧ buildTable db.newFileNumber fileSize entries = some f) ∨
        f ∈ db.vset.current.files level := by
  unfold Database.writeLevel0Table
  split
  · rename_i hnone
    obtain ⟨hfiled, hmem⟩ := Builder.saveTo_apply h.version.filed {} (fun _ => List.Pairwise.nil)
      (by rintro level g ⟨⟩)
    refine ⟨0, fun level f => ?_⟩
    by_cases hl : level < kNumLevels
    · rw [hmem level hl]
      simp [hnone]
    · rw [hfiled.none_beyond level (not_lt.1 hl), h.version.filed.none_beyond level (not_lt.1 hl)]
      simp [hnone]
  · rename_i f₀ hf₀
    obtain ⟨hnumber, -⟩ := buildTable_some hf₀
    obtain ⟨hlevel, -⟩ := Version.pickLevelForMemTableOutput_apart h.version.sortedLevels h.version.inFormat
      db.vset.options f₀.smallest.userKey f₀.largest.userKey
    dsimp only
    generalize db.vset.current.pickLevelForMemTableOutput db.vset.options f₀.smallest.userKey
      f₀.largest.userKey = level₀ at hlevel ⊢
    have hadded : ∀ {level f}, f ∈ (VersionEdit.addFile {} level₀ f₀).added level ↔ level = level₀ ∧ f = f₀ := by
      intro level f
      simp [VersionEdit.addFile]
    obtain ⟨hfiled, hmem⟩ := Builder.saveTo_apply h.version.filed (VersionEdit.addFile {} level₀ f₀)
      (fun level => by
        unfold VersionEdit.added VersionEdit.addFile
        by_cases hl : level₀ = level <;> simp [hl])
      (fun level g hg => by
        rw [(hadded.1 hg).2, hnumber]
        exact h.numbers.newFileNumber_fresh level)
    refine ⟨level₀, fun level f => ?_⟩
    by_cases hl : level < kNumLevels
    · rw [hmem level hl, hadded, hf₀, Option.some.injEq, eq_comm (a := f₀)]
      simp [VersionEdit.addFile]
    · rw [hfiled.none_beyond level (not_lt.1 hl), h.version.filed.none_beyond level (not_lt.1 hl)]
      have hne : level ≠ level₀ := by
        rintro rfl
        exact hl (hlevel.trans_lt (by decide))
      simp [hne]

/-- **A flush.** -/
theorem Intact.compactMemTable (h : db.Intact) {fileSize : UInt64}
    (hstep : db.compactMemTable env fileSize = some db') : db'.Intact ∧ db.StepOf (.compactMemTable fileSize) db' := by
  have hgood := h.good.compactMemTable hstep
  unfold Database.compactMemTable at hstep
  split at hstep
  · cases hstep
  · rename_i imm himm
    split at hstep
    · cases hstep
      have hunflushed : db.unflushed = imm ++ db.mem := by rw [unflushed, himm, Option.getD_some]
      have horder := h.good.memtables.order
      rw [hunflushed] at horder
      have hsorted := sorted_of_sequences (List.pairwise_append.1 horder).1
      have hmem : ∀ {x}, x ∈ mergeAll [imm] ↔ x ∈ imm := by
        intro x
        simpa using (mergeAll_perm [imm]).mem_iff (a := x)
      have hparses : ∀ x ∈ imm ++ db.mem, (parseInternalKey x.1).isSome := hunflushed ▸ h.unflushed_parses
      have hold : ∀ {n : UInt64}, n.toNat < db.nextFileNumber → n ≠ db.newFileNumber := by
        rintro n hn rfl
        rw [h.good.numbers.newFileNumber_toNat] at hn
        exact lt_irrefl _ hn
      have hcontents : ∀ level, ∀ f ∈ db.vset.current.files level,
          (if f.number = db.newFileNumber then mergeAll [imm] else db.contents f.number) = db.contents f.number :=
        fun level f hf => if_neg (hold (h.good.numbers.used level f hf))
      obtain ⟨level₀, hfiles⟩ := h.good.mem_writeLevel0Table fileSize (mergeAll [imm])
      refine ⟨h.of_tables hgood (fun x hx => hparses x (List.mem_append_right _ hx)) (fun level f hf => ?_)
        fun r hr => ?_, ⟨Nat.le_succ _, fun n hn _ => if_neg (hold hn), fun r hr n hn => Or.inl ⟨r, hr, hn⟩,
          fun r hr => Or.inl ⟨r, hr, rfl⟩, ⟨rfl, rfl, rfl⟩, ?_⟩⟩
      · rcases (hfiles level f).1 hf with ⟨-, hbuilt⟩ | hf
        · obtain ⟨hnumber, -, hlast⟩ := buildTable_some hbuilt
          obtain ⟨x, hx, hlargest⟩ := Option.map_eq_some_iff.1 hlast
          refine Or.inr ?_
          dsimp only
          rw [if_pos hnumber]
          exact ⟨⟨x, List.mem_of_getLast? hx, hlargest⟩,
            fun x hx => hparses x (List.mem_append_left _ (hmem.1 hx))⟩
        · exact Or.inl ⟨level, hf, hcontents level f hf⟩
      · have hrun := h.good.running r hr
        exact (h.running r hr).congr hrun.setUp fun level f hf => hcontents level f (hrun.kept level f hf)
      · -- the entries of the memtable are in the new table
        ext x
        simp only [sources, Sources.entries, Sources.InTables, unflushed, himm, Option.getD_some, Option.getD_none,
          List.nil_append, List.mem_append, Set.mem_ofPred_eq]
        constructor
        · rintro (hx | ⟨level, f, hf, hx⟩)
          · exact Or.inl (Or.inr hx)
          · rcases (hfiles level f).1 hf with ⟨-, hbuilt⟩ | hf
            · rw [if_pos (buildTable_some hbuilt).1] at hx
              exact Or.inl (Or.inl (hmem.1 hx))
            · rw [hcontents level f hf] at hx
              exact Or.inr ⟨level, f, hf, hx⟩
        · rintro ((hx | hx) | ⟨level, f, hf, hx⟩)
          · cases hbuilt : buildTable db.newFileNumber fileSize (mergeAll [imm]) with
            | none =>
              have hnil := hmem.2 hx
              rw [buildTable_none hsorted hbuilt] at hnil
              cases hnil
            | some f =>
              refine Or.inr ⟨level₀, f, (hfiles level₀ f).2 (Or.inl ⟨rfl, hbuilt⟩), ?_⟩
              rw [if_pos (buildTable_some hbuilt).1]
              exact hmem.2 hx
          · exact Or.inl hx
          · refine Or.inr ⟨level, f, (hfiles level f).2 (Or.inr hf), ?_⟩
            rw [hcontents level f hf]
            exact hx
    · cases hstep

/-! ### Compactions -/

/-- A trivial move loses no file. -/
theorem Good.mem_moved (h : db.Good) {c : Compaction α} (hsetup : c.SetUp db.vset.current) {f : FileMetaData α}
    (hf : f ∈ db.vset.current.files c.level) {level : Nat} {g : FileMetaData α}
    (hg : g ∈ db.vset.current.files level) :
    ∃ level', g ∈ ((Builder.apply { base := db.vset.current } (c.moveEdit f)).saveTo).files level' := by
  have hadded : ∀ {level g}, g ∈ (c.moveEdit f).added level ↔ level = c.level + 1 ∧ g = f := by
    intro level g
    simp [Compaction.moveEdit]
  have hmem := (Builder.saveTo_apply h.version.filed (c.moveEdit f)
    (fun level => by
      unfold VersionEdit.added Compaction.moveEdit
      by_cases hl : c.level + 1 = level <;> simp [hl])
    (fun level g hg => by
      obtain ⟨rfl, rfl⟩ := hadded.1 hg
      rintro ⟨f', hf', hn⟩
      exact absurd (h.version.eq_of_number hf' hf hn).1 (Nat.succ_ne_self _))).2
  by_cases hsame : g = f
  · exact ⟨c.level + 1, (hmem _ hsetup.closed.level_lt g).2 (Or.inl (hadded.2 ⟨rfl, hsame⟩))⟩
  · have hl : level < kNumLevels := by
      by_contra hl
      rw [h.version.filed.none_beyond level (not_lt.1 hl)] at hg
      cases hg
    refine ⟨level, (hmem level hl g).2 (Or.inr ⟨hg, fun hdeleted => hsame ?_⟩)⟩
    rw [VersionEdit.mem_deleted, Compaction.moveEdit, List.mem_singleton, Prod.mk.injEq] at hdeleted
    exact (h.version.eq_of_number hg hf hdeleted.2).2

/-- **A compaction begins**, or moves a file. -/
theorem Intact.backgroundCompaction (h : db.Intact) {isManual : Bool} {smallestSnapshot : Nat}
    (hss : smallestSnapshot < kMaxSequenceNumber) {r : Option (Option (Compaction α × VersionSet α))}
    (hr : ∀ c vset', r = some (some (c, vset')) → c.SetUp db.vset.current ∧ vset'.current = db.vset.current)
    {event : DatabaseEvent α} (hevent : event = .pickCompaction smallestSnapshot ∨
      ∃ level begin_ end_, event = .compactRange level begin_ end_ smallestSnapshot)
    (hstep : db.backgroundCompaction env isManual smallestSnapshot r = some db') :
    db'.Intact ∧ db.StepOf event db' := by
  have hgood := h.good.backgroundCompaction hr hstep
  have hevent' : event.smallestSnapshot = some smallestSnapshot := by
    rcases hevent with rfl | ⟨level, begin_, end_, rfl⟩ <;> rfl
  -- nothing is stored, and nothing goes
  have hstepOf : ∀ {db' : Database α}, db'.nextFileNumber = db.nextFileNumber → db'.contents = db.contents →
      (∀ r', db'.running = some r' → r'.work.numbers = [] ∧ r'.job.smallestSnapshot = smallestSnapshot) →
      (db'.mem = db.mem ∧ db'.imm = db.imm ∧ db'.lastSequence = db.lastSequence) →
      db'.sources.entries = db.sources.entries → db.StepOf event db' := by
    intro db' hnext hcontents hrunning hmemory hentries
    refine ⟨hnext.ge, fun n _ _ => congrFun hcontents n, fun r' hr' n hn => ?_, fun r' hr' => Or.inr ?_, ?_, ?_⟩
    · rw [(hrunning r' hr').1] at hn
      cases hn
    · rw [hevent', (hrunning r' hr').2]
    · rcases hevent with rfl | ⟨level, begin_, end_, rfl⟩ <;> exact hmemory
    · rcases hevent with rfl | ⟨level, begin_, end_, rfl⟩ <;> exact hentries
  unfold Database.backgroundCompaction at hstep
  split at hstep
  · rename_i hidle
    have hnone : db.running = none := Option.isNone_iff_eq_none.1 hidle.1
    have hnorun : ∀ r', db.running = some r' → False := fun r' hr' => by rw [hnone] at hr'; cases hr'
    split at hstep
    · cases hstep
    · cases hstep
      exact ⟨h, hstepOf rfl rfl (fun r' hr' => (hnorun r' hr').elim) ⟨rfl, rfl, rfl⟩ rfl⟩
    · rename_i c vset'
      obtain ⟨hsetup, hcurrent⟩ := hr c vset' rfl
      obtain rfl := Option.some.inj hstep
      unfold startCompaction at hgood ⊢
      split
      · rename_i f rest h0
        rw [h0] at hgood
        dsimp only at hgood ⊢
        split
        · -- a trivial move
          rename_i hmove
          rw [if_pos hmove] at hgood
          simp only [Bool.and_eq_true, Compaction.isTrivialMove, decide_eq_true_eq, h0, List.length_cons,
            List.length_eq_zero_iff] at hmove
          have hrest : rest = [] := by
            have := hmove.2.1.1
            exact List.eq_nil_of_length_eq_zero (by omega)
          have hf : f ∈ db.vset.current.files c.level :=
            hsetup.mem (Or.inl ⟨rfl, by rw [h0]; exact List.mem_cons_self⟩)
          obtain ⟨-, hfrom⟩ := h.good.moveFile hsetup (hrest ▸ h0) hmove.2.1.2
            (Builder.apply { base := vset'.current } (c.moveEdit f)).saveTo (by rw [hcurrent])
          refine ⟨h.of_tables hgood h.unflushed_parses (fun level g hg => ?_)
            fun r' hr' => (hnorun r' hr').elim, hstepOf rfl rfl (fun r' hr' => (hnorun r' hr').elim)
              ⟨rfl, rfl, rfl⟩ ?_⟩
          · obtain ⟨level', hg'⟩ := hfrom level g hg
            exact Or.inl ⟨level', hg', rfl⟩
          · ext x
            refine or_congr Iff.rfl ⟨?_, ?_⟩
            · rintro ⟨level, g, hg, hx⟩
              obtain ⟨level', hg'⟩ := hfrom level g hg
              exact ⟨level', g, hg', hx⟩
            · rintro ⟨level, g, hg, hx⟩
              obtain ⟨level', hg'⟩ := h.good.mem_moved hsetup hf hg
              rw [← hcurrent] at hg'
              exact ⟨level', g, hg', hx⟩
        · rename_i hnot
          rw [if_neg hnot, ← h0] at hgood
          refine ⟨h.congr hgood (congrArg _ hcurrent) rfl h.unflushed_parses ?_, hstepOf rfl rfl ?_ ⟨rfl, rfl, rfl⟩
            (sources_entries_congr rfl (congrArg _ hcurrent) rfl)⟩
          · rintro r' ⟨⟩
            exact ⟨h.good.version, hss, rfl⟩
          · rintro r' ⟨⟩
            exact ⟨rfl, rfl⟩
      · rename_i h0
        rw [h0] at hgood
        exact ⟨h.congr hgood (congrArg _ hcurrent) rfl h.unflushed_parses fun r' hr' => (hnorun r' hr').elim,
          hstepOf rfl rfl (fun r' hr' => (hnorun r' hr').elim) ⟨rfl, rfl, rfl⟩
            (sources_entries_congr rfl (congrArg _ hcurrent) rfl)⟩
  · cases hstep

/-- **The outputs are installed.** -/
theorem Intact.installCompaction (h : db.Intact)
    (hclear : ∀ r, db.running = some r → ∀ f ∈ db.vset.current.files (r.job.compaction.level + 1),
      f ∉ r.job.inputVersion.files (r.job.compaction.level + 1) →
      ∀ out ∈ r.outputs, ∀ o ∈ out.file?, NotInside o f)
    (hstep : db.installCompaction env = some db') : db'.Intact ∧ db.StepOf .installCompaction db' := by
  have hgood := h.good.installCompaction hclear hstep
  unfold Database.installCompaction at hstep
  split at hstep
  · cases hstep
  · rename_i r hr
    split at hstep
    · cases hstep
    · rename_i hinput
      cases hstep
      have hrun := h.good.running r hr
      obtain ⟨-, -, hnumbers⟩ := RunningCompaction.outputs_spec hrun.recorded
      have hnodup : (r.outputs.map (·.number)).Nodup := hnumbers ▸ hrun.numbers
      have hfresh : ∀ out ∈ r.outputs, ∀ level, ¬ db.vset.current.Holds level out.number := fun out hout =>
        (hrun.numbersNew _ (hnumbers ▸ List.mem_map_of_mem hout)).2
      have hinputs : ∀ level f, r.job.compaction.IsInput level f → f ∈ db.vset.current.files level :=
        fun level f hf => hrun.kept level f (hrun.setUp.mem hf)
      obtain ⟨hnew, hold⟩ := withOutputs_spec hnodup db.contents
      have hcontents : ∀ level, ∀ f ∈ db.vset.current.files level,
          withOutputs db.contents r.outputs f.number = db.contents f.number := by
        intro level f hf
        refine hold f.number fun hin => ?_
        rw [hnumbers] at hin
        exact (h.good.number_kept hf).2 r hr hin
      have hmem := fun {level} {f} (hl : level < kNumLevels) => mem_install h.good.version.filed hinputs hnodup
        (fun out hout => hfresh out hout _) hl (f := f)
      have hlevel : ∀ {v : Version α} {level f}, v.FiledLevels → f ∈ v.files level → level < kNumLevels := by
        intro v level f hv hf
        by_contra hl
        rw [hv.none_beyond level (not_lt.1 hl)] at hf
        cases hf
      have hfiled := hgood.version.filed
      -- every output is a file now, and every file that is no input is still there
      have htables : ∀ y, Database.InTables { db.logAndApply env (r.job.compaction.installResults r.outputs) with
          contents := withOutputs db.contents r.outputs, running := none } y ↔
          y ∈ r.outputs.flatMap (·.entries) ∨ ∃ level, ∃ f ∈ db.vset.current.files level,
            ¬ r.job.compaction.IsInput level f ∧ y ∈ db.contents f.number := by
        intro y
        constructor
        · rintro ⟨level, f, hf, hy⟩
          rcases (hmem (hlevel hfiled hf)).1 hf with ⟨-, out, hout, hfile⟩ | ⟨hf, hnot⟩
          · dsimp only at hy
            rw [Output.number_of_file? hfile, hnew out hout] at hy
            exact Or.inl (List.mem_flatMap.2 ⟨out, hout, hy⟩)
          · dsimp only at hy
            rw [hcontents level f hf] at hy
            exact Or.inr ⟨level, f, hf, hnot, hy⟩
        · rintro (hy | ⟨level, f, hf, hnot, hy⟩)
          · obtain ⟨out, hout, hy⟩ := List.mem_flatMap.1 hy
            obtain ⟨f, hfile, -⟩ := ((RunningCompaction.outputs_spec hrun.recorded).1 out hout).file?_some
              ((List.pairwise_flatMap.1 hrun.outputs_sorted).1 out hout)
            refine ⟨_, f, (hmem hrun.setUp.closed.level_lt).2 (Or.inl ⟨rfl, out, hout, hfile⟩), ?_⟩
            dsimp only
            rw [Output.number_of_file? hfile, hnew out hout]
            exact hy
          · refine ⟨level, f, (hmem (hlevel h.good.version.filed hf)).2 (Or.inr ⟨hf, hnot⟩), ?_⟩
            dsimp only
            rw [hcontents level f hf]
            exact hy
      refine ⟨h.of_tables hgood h.unflushed_parses (fun level f hf => ?_) (by rintro r' ⟨⟩),
        ⟨le_refl _, fun n _ hn => hold n ?_, by rintro r' ⟨⟩, by rintro r' ⟨⟩, ⟨rfl, rfl, rfl⟩,
          ⟨r, hr, h.thinned hr hinput rfl htables⟩⟩⟩
      · rcases (hmem (hlevel hfiled hf)).1 hf with ⟨-, out, hout, hfile⟩ | ⟨hf, -⟩
        · obtain ⟨hnumber, -, hlast⟩ := hrun.output_file hout hfile
          obtain ⟨x, hx, hlargest⟩ := Option.map_eq_some_iff.1 hlast
          refine Or.inr ?_
          dsimp only
          rw [hnumber, hnew out hout]
          refine ⟨⟨x, List.mem_of_getLast? hx, hlargest⟩, fun x hx => ?_⟩
          obtain ⟨level', g, hg, hxg⟩ := hrun.output_entry hout hx
          exact h.parses x (Or.inr ⟨level', g, hinputs level' g hg, hxg⟩)
        · exact Or.inl ⟨level, hf, hcontents level f hf⟩
      · rw [hnumbers]
        exact hn r hr

/-- **Step.** -/
theorem Intact.step (h : db.Intact) {event : DatabaseEvent α} (hclear : db.Clear event)
    (hss : ∀ s ∈ event.smallestSnapshot, s < kMaxSequenceNumber) (hstep : db.step env event = some db') :
    db'.Intact ∧ db.StepOf event db' := by
  cases event with
  | write batch => exact h.write hstep
  | switchMemTable => exact h.switchMemTable hstep
  | compactMemTable fileSize => exact h.compactMemTable hstep
  | chargeSeek level f => exact h.chargeSeek hstep
  | pickCompaction smallestSnapshot =>
    exact h.backgroundCompaction (hss _ rfl) (fun c vset' hc =>
      VersionSet.setUp_of_some h.good.version.sortedLevels h.good.seek (Or.inl hc)) (Or.inl rfl) hstep
  | compactRange level begin_ end_ smallestSnapshot =>
    exact h.backgroundCompaction (hss _ rfl) (fun c vset' hc =>
      VersionSet.setUp_of_some h.good.version.sortedLevels h.good.seek (Or.inr ⟨level, begin_, end_, hc⟩))
      (Or.inr ⟨level, begin_, end_, rfl⟩) hstep
  | workOn => exact h.workOn hstep
  | installCompaction => exact h.installCompaction hclear hstep
  | cleanupCompaction => exact h.cleanupCompaction hstep

end Database

end Steps

end LevelDbSurf
