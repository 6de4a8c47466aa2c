import LevelDbSurf.LevelInvariants
import LevelDbSurf.CompactionView

/-!
# Runs of the database

`Database.Good` is what holds between any two steps: the version is valid, the memtables are newer than all
tables, numbers are new, and whatever has been added to the version since a compaction began came from a
flush (`RunningCompaction.Good`). Every step keeps it, if it is `Clear` (`Good.step`), so every clear run does
(`Good.run`).
-/

namespace LevelDbSurf

open Cursors

variable {α : Type} [LinearOrder α]

namespace Database

/-- The entries not in tables yet, oldest first. -/
def unflushed (db : Database α) : List (InternalKey α × Bytes) := db.imm.getD [] ++ db.mem

/-- The entry is in a table of the current version. -/
def InTables (db : Database α) (y : InternalKey α × Bytes) : Prop :=
  ∃ level, ∃ f ∈ db.vset.current.files level, y ∈ db.contents f.number

/-- Memtables are newer than tables, and the immutable one is the older one. -/
structure MemtablesNewer (db : Database α) : Prop where
  order : db.unflushed.Pairwise fun x y => x.1.sequence < y.1.sequence
  bounds : ∀ x ∈ db.unflushed, x.1.InFormat ∧ x.1.sequence ≤ db.lastSequence
  tables : ∀ y, db.InTables y → y.1.sequence ≤ db.lastSequence
  newer : ∀ y, db.InTables y → ∀ x ∈ db.unflushed, y.1.sequence < x.1.sequence
  last : db.lastSequence ≤ kMaxSequenceNumber

/-- File numbers are given out once. -/
structure NumbersNew (db : Database α) : Prop where
  lt : db.nextFileNumber < 2 ^ 64
  used : ∀ level, ∀ f ∈ db.vset.current.files level, f.number.toNat < db.nextFileNumber

end Database

/-- A compaction under way. -/
structure RunningCompaction.Good (db : Database α) (r : RunningCompaction α) : Prop where
  setUp : r.job.compaction.SetUp r.job.inputVersion
  kept : ∀ level, ∀ f ∈ r.job.inputVersion.files level, f ∈ db.vset.current.files level
  flushed : ∀ level, ∀ g ∈ db.vset.current.files level, g ∉ r.job.inputVersion.files level →
    FlushedOver db.contents r.job.inputVersion level g
  input : ∃ past, (past ++ r.input).Pairwise (fun x y => x.1 < y.1) ∧
    (∀ x ∈ past ++ r.input, ∃ level f, r.job.compaction.IsInput level f ∧ x ∈ db.contents f.number) ∧
    r.work.written.Sublist past
  recorded : r.work.AllRecorded
  numbers : r.work.numbers.Nodup
  numbersNew : ∀ n ∈ r.work.numbers, n.toNat < db.nextFileNumber ∧ ∀ level, ¬ db.vset.current.Holds level n

/-- The invariant of a run. -/
structure Database.Good (db : Database α) : Prop where
  version : ValidVersion db.contents db.vset.current
  seek : VersionSet.SeekFileKnown db.vset.current
  memtables : db.MemtablesNewer
  numbers : db.NumbersNew
  running : ∀ r, db.running = some r → r.Good db

section Steps
variable {db db' : Database α}

/-! ## Steps that leave the tables alone -/

theorem RunningCompaction.Good.congr {r : RunningCompaction α} (h : r.Good db)
    (hfiles : db'.vset.current.files = db.vset.current.files) (hcontents : db'.contents = db.contents)
    (hnext : db.nextFileNumber ≤ db'.nextFileNumber) : r.Good db' where
  setUp := h.setUp
  kept level f hf := by
    rw [hfiles]
    exact h.kept level f hf
  flushed level g hg := by
    rw [hfiles] at hg
    rw [hcontents]
    exact h.flushed level g hg
  input := by
    rw [hcontents]
    exact h.input
  recorded := h.recorded
  numbers := h.numbers
  numbersNew n hn := by
    obtain ⟨hlt, hnot⟩ := h.numbersNew n hn
    refine ⟨hlt.trans_le hnext, fun level => ?_⟩
    rw [Version.Holds, hfiles]
    exact hnot level

/-- Neither the version nor the tables change. -/
theorem Database.Good.congr (h : db.Good) (hfiles : db'.vset.current.files = db.vset.current.files)
    (hcontents : db'.contents = db.contents) (hnext : db.nextFileNumber ≤ db'.nextFileNumber)
    (hlt : db'.nextFileNumber < 2 ^ 64) (hseek : VersionSet.SeekFileKnown db'.vset.current)
    (hmemtables : db'.MemtablesNewer) (hrunning : ∀ r, db'.running = some r → r.Good db') : db'.Good where
  version := by
    rw [hcontents]
    exact h.version.congr hfiles fun _ _ _ => rfl
  seek := hseek
  memtables := hmemtables
  numbers := ⟨hlt, fun level f hf => by
    rw [hfiles] at hf
    exact (h.numbers.used level f hf).trans_le hnext⟩
  running := hrunning

namespace Database

omit [LinearOrder α] in
theorem mem_insertInto {sequence : Nat} {batch : List (α × ValueType × Bytes)} {x : InternalKey α × Bytes}
    (hx : x ∈ insertInto sequence batch) :
    sequence ≤ x.1.sequence ∧ x.1.sequence < sequence + batch.length ∧
      x.1.tag ≤ packSequenceAndType x.1.sequence kValueTypeForSeek := by
  obtain ⟨⟨⟨u, t, v⟩, i⟩, hi, rfl⟩ := List.mem_map.1 hx
  have hi := (List.mem_zipIdx hi).2.1
  unfold InternalKey.sequence packSequenceAndType kValueTypeForSeek
  cases t <;> simp only [ValueType.toNat] <;> omega

omit [LinearOrder α] in
/-- The entries of a batch, in order. -/
theorem insertInto_sorted (sequence : Nat) (batch : List (α × ValueType × Bytes)) :
    (insertInto sequence batch).Pairwise fun x y => x.1.sequence < y.1.sequence := by
  unfold insertInto
  rw [List.pairwise_map]
  have hindex : batch.zipIdx.Pairwise fun a b => a.2 < b.2 := by
    rw [← List.pairwise_map (f := Prod.snd), List.zipIdx_map_snd]
    exact List.pairwise_lt_range'
  refine hindex.imp fun {a b} hlt => ?_
  obtain ⟨⟨u, t, v⟩, i⟩ := a
  obtain ⟨⟨u', t', v'⟩, j⟩ := b
  unfold InternalKey.sequence packSequenceAndType
  cases t <;> cases t' <;> simp only [ValueType.toNat] at hlt ⊢ <;> omega

/-- **A write.** -/
theorem Good.write (h : db.Good) {batch : List (α × ValueType × Bytes)} (hstep : db.write batch = some db') :
    db'.Good := by
  unfold Database.write at hstep
  split at hstep
  · rename_i hle
    cases hstep
    refine h.congr rfl rfl (le_refl _) h.numbers.lt h.seek ⟨?_, fun x hx => ?_, fun y hy => ?_, fun y hy x hx => ?_,
      hle⟩ fun r hr => (h.running r hr).congr rfl rfl (le_refl _)
    · rw [unflushed, ← List.append_assoc, List.pairwise_append]
      refine ⟨h.memtables.order, insertInto_sorted _ _, fun x hx y hy => ?_⟩
      have hx := (h.memtables.bounds x hx).2
      have hy := (mem_insertInto hy).1
      omega
    · rw [unflushed, ← List.append_assoc, List.mem_append] at hx
      rcases hx with hx | hx
      · obtain ⟨hformat, hseq⟩ := h.memtables.bounds x hx
        exact ⟨hformat, hseq.trans (Nat.le_add_right _ _)⟩
      · obtain ⟨-, hlt, htag⟩ := mem_insertInto hx
        refine ⟨htag.trans ?_, by dsimp only; omega⟩
        unfold packSequenceAndType
        omega
    · exact (h.memtables.tables y hy).trans (Nat.le_add_right _ _)
    · rw [unflushed, ← List.append_assoc, List.mem_append] at hx
      rcases hx with hx | hx
      · exact h.memtables.newer y hy x hx
      · have hy := h.memtables.tables y hy
        have hx := (mem_insertInto hx).1
        omega
  · cases hstep

/-- **A switch of memtables.** -/
theorem Good.switchMemTable (h : db.Good) (hstep : db.switchMemTable = some db') : db'.Good := by
  unfold Database.switchMemTable at hstep
  split at hstep
  · rename_i hif
    cases hstep
    have hsame : db.unflushed = db.mem := by
      rw [unflushed, hif.1]
      rfl
    have hunflushed : ({ db with imm := some db.mem, mem := [], nextFileNumber := db.nextFileNumber + 1 } :
        Database α).unflushed = db.unflushed := by
      rw [hsame]
      exact List.append_nil _
    refine h.congr rfl rfl (Nat.le_succ _) hif.2 h.seek ⟨?_, ?_, h.memtables.tables, ?_, h.memtables.last⟩
      fun r hr => (h.running r hr).congr rfl rfl (Nat.le_succ _)
    · rw [hunflushed]
      exact h.memtables.order
    · rw [hunflushed]
      exact h.memtables.bounds
    · rw [hunflushed]
      exact h.memtables.newer
  · cases hstep

/-- **A charged seek.** -/
theorem Good.chargeSeek (h : db.Good) {level : Nat} {f : FileMetaData α}
    (hstep : db.chargeSeek level f = some db') : db'.Good := by
  unfold Database.chargeSeek at hstep
  split at hstep
  · rename_i hif
    cases hstep
    refine h.congr rfl rfl (le_refl _) h.numbers.lt ?_ ⟨h.memtables.order, h.memtables.bounds, h.memtables.tables,
      h.memtables.newer, h.memtables.last⟩ fun r hr => (h.running r hr).congr rfl rfl (le_refl _)
    rintro g ⟨⟩
    exact hif.1
  · cases hstep

/-- **A compaction given up.** -/
theorem Good.cleanupCompaction (h : db.Good) (hstep : db.cleanupCompaction = some db') : db'.Good := by
  unfold Database.cleanupCompaction at hstep
  split at hstep
  · cases hstep
    exact h.congr rfl rfl (le_refl _) h.numbers.lt h.seek ⟨h.memtables.order, h.memtables.bounds,
      h.memtables.tables, h.memtables.newer, h.memtables.last⟩ (by rintro r ⟨⟩)
  · cases hstep

theorem NumbersNew.newFileNumber_toNat (h : db.NumbersNew) : db.newFileNumber.toNat = db.nextFileNumber :=
  UInt64.toNat_ofNat_of_lt' h.lt

/-- No file has the number that is given out next. -/
theorem NumbersNew.newFileNumber_fresh (h : db.NumbersNew) (level : Nat) :
    ¬ db.vset.current.Holds level db.newFileNumber := by
  rintro ⟨f, hf, hn⟩
  have hused := h.used level f hf
  rw [hn, h.newFileNumber_toNat] at hused
  exact absurd hused (lt_irrefl _)

/-- **One round of the compaction loop.** -/
theorem Good.workOn (h : db.Good) (hstep : db.workOn = some db') : db'.Good := by
  unfold Database.workOn at hstep
  split at hstep
  · cases hstep
  · rename_i r hr
    split at hstep
    · cases hstep
    · rename_i x input hinput
      split at hstep
      · rename_i hlt
        cases hstep
        have hgood := h.running r hr
        obtain ⟨hrecorded, hwritten, hnumbers, -⟩ := CompactionWork.step_spec r.job db.newFileNumber x
          hgood.recorded
        have hopened : (r.work.step r.job db.newFileNumber x).opened =
            (r.work.step r.job db.newFileNumber x).numbers.length := (CompactionWork.length_numbers _).symm
        have hle : db.nextFileNumber + ((r.work.step r.job db.newFileNumber x).opened - r.work.opened) ≤
            db.nextFileNumber + 1 := by
          rw [hopened, ← CompactionWork.length_numbers r.work]
          rcases hnumbers with heq | heq <;> rw [heq] <;> simp
        refine h.congr rfl rfl (Nat.le_add_right _ _) (hle.trans_lt hlt) h.seek ⟨h.memtables.order,
          h.memtables.bounds, h.memtables.tables, h.memtables.newer, h.memtables.last⟩ ?_
        rintro r' ⟨⟩
        refine ⟨hgood.setUp, hgood.kept, hgood.flushed, ?_, hrecorded, ?_, fun n hn => ?_⟩
        · obtain ⟨past, hsorted, hmem, hsub⟩ := hgood.input
          rw [hinput] at hsorted hmem
          refine ⟨past ++ [x], by simpa using hsorted, by simpa using hmem, ?_⟩
          dsimp only
          rw [hwritten]
          split
          · exact (List.append_nil _).symm ▸ hsub.trans (List.sublist_append_left _ _)
          · exact hsub.append (List.Sublist.refl _)
        · dsimp only
          rcases hnumbers with heq | heq
          · rw [heq]
            exact hgood.numbers
          · rw [heq, List.nodup_append]
            refine ⟨hgood.numbers, List.nodup_singleton _, fun n hn m hm hnm => ?_⟩
            rw [List.mem_singleton.1 hm] at hnm
            have hused := (hgood.numbersNew n hn).1
            rw [hnm, h.numbers.newFileNumber_toNat] at hused
            exact absurd hused (lt_irrefl _)
        · dsimp only at hn ⊢
          rcases hnumbers with heq | heq
          · rw [heq] at hn
            obtain ⟨hused, hnot⟩ := hgood.numbersNew n hn
            exact ⟨hused.trans_le (Nat.le_add_right _ _), hnot⟩
          · have hmore : (r.work.step r.job db.newFileNumber x).opened - r.work.opened = 1 := by
              rw [hopened, ← CompactionWork.length_numbers r.work, heq]
              simp
            rw [hmore]
            rw [heq, List.mem_append, List.mem_singleton] at hn
            rcases hn with hn | rfl
            · obtain ⟨hused, hnot⟩ := hgood.numbersNew n hn
              exact ⟨hused.trans (Nat.lt_succ_self _), hnot⟩
            · refine ⟨?_, h.numbers.newFileNumber_fresh⟩
              rw [h.numbers.newFileNumber_toNat]
              exact Nat.lt_succ_self _
      · cases hstep

/-! ## Flushes -/

end Database

/-- Sorted entries lie between the first and the last one. -/
theorem bounds_of_sorted {entries : List (InternalKey α × Bytes)} (h : entries.Pairwise fun x y => x.1 < y.1)
    {first last : InternalKey α × Bytes} (hfirst : entries.head? = some first) (hlast : entries.getLast? = some last)
    {x : InternalKey α × Bytes} (hx : x ∈ entries) : first.1 ≤ x.1 ∧ x.1 ≤ last.1 := by
  constructor
  · obtain ⟨rest, rfl⟩ := List.head?_eq_some_iff.1 hfirst
    rcases List.mem_cons.1 hx with rfl | hx
    · exact le_refl _
    · exact ((List.pairwise_cons.1 h).1 x hx).le
  · obtain ⟨front, rfl⟩ := List.getLast?_eq_some_iff.1 hlast
    rcases List.mem_append.1 hx with hx | hx
    · exact ((List.pairwise_append.1 h).2.2 x hx last List.mem_cons_self).le
    · rw [List.mem_singleton.1 hx]

/-- Sorted entries that the bounds of a file are the first and the last of. -/
theorem tableOf_of_sorted {entries : List (InternalKey α × Bytes)} (h : entries.Pairwise fun x y => x.1 < y.1)
    (hformat : ∀ x ∈ entries, x.1.InFormat) {f : FileMetaData α}
    (hfirst : entries.head?.map (·.1) = some f.smallest) (hlast : entries.getLast?.map (·.1) = some f.largest) :
    TableOf entries f := by
  obtain ⟨first, hfirst, hsmallest⟩ := Option.map_eq_some_iff.1 hfirst
  obtain ⟨last, hlast, hlargest⟩ := Option.map_eq_some_iff.1 hlast
  refine ⟨h, fun x hx => ?_, ?_, hformat⟩
  · rw [← hsmallest, ← hlargest]
    exact bounds_of_sorted h hfirst hlast hx
  · rw [← hlargest]
    exact hformat last (List.mem_of_getLast? hlast)

theorem buildTable_some {number fileSize : UInt64} {entries : List (InternalKey α × Bytes)} {f : FileMetaData α}
    (h : buildTable number fileSize entries = some f) : f.number = number ∧
      entries.head?.map (·.1) = some f.smallest ∧ entries.getLast?.map (·.1) = some f.largest := by
  unfold buildTable at h
  split at h
  · rename_i first last hfirst hlast
    split at h
    · cases h
      simp [hfirst, hlast]
    · cases h
  · cases h

/-- What is written is not written twice, so a sorted memtable is strictly sorted. -/
theorem sorted_of_sequences {imm : List (InternalKey α × Bytes)}
    (h : imm.Pairwise fun x y => x.1.sequence < y.1.sequence) : (mergeAll [imm]).Pairwise fun x y => x.1 < y.1 := by
  have hperm : (mergeAll [imm]).Perm imm := by simpa using mergeAll_perm [imm]
  have hne : (mergeAll [imm]).Pairwise fun x y => x.1 ≠ y.1 :=
    (hperm.pairwise_iff fun {_ _} hne => Ne.symm hne).2 (h.imp fun {_ _} hlt heq => hlt.ne (congrArg _ heq))
  exact (mergeAll_sorted [imm]).imp₂ (fun {_ _} hle hne => lt_of_le_of_ne hle hne) hne

/-- Versions with the same files on the levels there are. -/
theorem Version.FiledLevels.files_eq {v v' : Version α} (hv : v.FiledLevels) (hv' : v'.FiledLevels)
    (h : ∀ level < kNumLevels, ∀ f, f ∈ v'.files level ↔ f ∈ v.files level) : v'.files = v.files := by
  funext level
  by_cases hl : level < kNumLevels
  · exact (hv'.filed level).ext (hv.filed level) (h level hl)
  · rw [hv.none_beyond level (not_lt.1 hl), hv'.none_beyond level (not_lt.1 hl)]

theorem FlushedOver.congr {contents contents' : UInt64 → List (InternalKey α × Bytes)} {v₀ : Version α}
    {level : Nat} {g : FileMetaData α} (h : FlushedOver contents v₀ level g)
    (hg : contents' g.number = contents g.number)
    (hv : ∀ level, ∀ f ∈ v₀.files level, contents' f.number = contents f.number) :
    FlushedOver contents' v₀ level g where
  apart := h.apart
  newer level' f hf := by
    rw [hg, hv level' f hf]
    exact h.newer level' f hf

/-- A compaction under way does not mind files that are flushed over it. -/
theorem RunningCompaction.Good.grow {r : RunningCompaction α} (h : r.Good db)
    (hold : ∀ level, ∀ f ∈ db.vset.current.files level, f ∈ db'.vset.current.files level ∧
      db'.contents f.number = db.contents f.number)
    (hnew : ∀ level, ∀ g ∈ db'.vset.current.files level, g ∉ db.vset.current.files level →
      FlushedOver db'.contents db.vset.current level g ∧ g.number.toNat = db.nextFileNumber)
    (hnext : db.nextFileNumber ≤ db'.nextFileNumber) : r.Good db' where
  setUp := h.setUp
  kept level f hf := (hold level f (h.kept level f hf)).1
  flushed level g hg hnot := by
    by_cases hgold : g ∈ db.vset.current.files level
    · exact (h.flushed level g hgold hnot).congr (hold level g hgold).2
        fun level' f hf => (hold level' f (h.kept level' f hf)).2
    · obtain ⟨hapart, hnewer⟩ := (hnew level g hg hgold).1
      exact ⟨fun hl level' hle f hf => hapart hl level' hle f (h.kept level' f hf),
        fun level' f hf => hnewer level' f (h.kept level' f hf)⟩
  input := by
    obtain ⟨past, hsorted, hmem, hsub⟩ := h.input
    refine ⟨past, hsorted, fun x hx => ?_, hsub⟩
    obtain ⟨level, f, hf, hxf⟩ := hmem x hx
    refine ⟨level, f, hf, ?_⟩
    rw [(hold level f (h.kept level f (h.setUp.mem hf))).2]
    exact hxf
  recorded := h.recorded
  numbers := h.numbers
  numbersNew n hn := by
    obtain ⟨hlt, hnot⟩ := h.numbersNew n hn
    refine ⟨hlt.trans_le hnext, ?_⟩
    rintro level ⟨g, hg, rfl⟩
    by_cases hgold : g ∈ db.vset.current.files level
    · exact hnot level ⟨g, hgold, rfl⟩
    · exact hlt.ne (hnew level g hg hgold).2

namespace Database

theorem NumbersNew.number_lt (h : db.NumbersNew) {level : Nat} {f : FileMetaData α}
    (hf : f ∈ db.vset.current.files level) : f.number < db.newFileNumber := by
  rw [UInt64.lt_iff_toNat_lt, h.newFileNumber_toNat]
  exact h.used level f hf

/-- The version `WriteLevel0Table` leads to: the same files, or one more. -/
theorem Good.writeLevel0Table (h : db.Good) (fileSize : UInt64) {entries : List (InternalKey α × Bytes)}
    (hsorted : entries.Pairwise fun x y => x.1 < y.1) (hformat : ∀ x ∈ entries, x.1.InFormat) {v' : Version α}
    (hv' : v' = (Builder.apply { base := db.vset.current } (db.writeLevel0Table fileSize entries)).saveTo) :
    v'.FiledLevels ∧ (v'.files = db.vset.current.files ∨ ∃ level₀ f₀, f₀.number = db.newFileNumber ∧
      TableOf entries f₀ ∧
      (level₀ ≠ 0 → ∀ level ≤ level₀, ∀ f ∈ db.vset.current.files level,
        OutOfRange f₀.smallest.userKey f₀.largest.userKey f) ∧
      ∀ level f, f ∈ v'.files level ↔ (level = level₀ ∧ f = f₀) ∨ f ∈ db.vset.current.files level) := by
  unfold Database.writeLevel0Table at hv'
  split at hv'
  · -- no entries, no file
    obtain ⟨hfiled, hmem⟩ := Builder.saveTo_apply h.version.filed {} (fun _ => List.Pairwise.nil)
      (by rintro level g ⟨⟩)
    rw [← hv'] at hfiled hmem
    refine ⟨hfiled, Or.inl (h.version.filed.files_eq hfiled fun level hl f => ?_)⟩
    rw [hmem level hl]
    simp
  · rename_i f₀ hf₀
    obtain ⟨hnumber, hfirst, hlast⟩ := buildTable_some hf₀
    obtain ⟨hlevel, hapart⟩ := Version.pickLevelForMemTableOutput_apart h.version.sortedLevels h.version.inFormat
      db.vset.options f₀.smallest.userKey f₀.largest.userKey
    dsimp only at hv'
    generalize db.vset.current.pickLevelForMemTableOutput db.vset.options f₀.smallest.userKey
      f₀.largest.userKey = level₀ at hv' hlevel hapart
    have hadded : ∀ {level f}, f ∈ (VersionEdit.addFile {} level₀ f₀).added level ↔ level = level₀ ∧ f = f₀ := by
      intro level f
      simp [VersionEdit.addFile]
    obtain ⟨hfiled, hmem⟩ := Builder.saveTo_apply h.version.filed (VersionEdit.addFile {} level₀ f₀)
      (fun level => by
        unfold VersionEdit.added VersionEdit.addFile
        by_cases hl : level₀ = level <;> simp [hl])
      (fun level g hg => by
        rw [(hadded.1 hg).2, hnumber]
        exact h.numbers.newFileNumber_fresh level)
    rw [← hv'] at hfiled hmem
    refine ⟨hfiled, Or.inr ⟨level₀, f₀, hnumber, tableOf_of_sorted hsorted hformat hfirst hlast, hapart,
      fun level f => ?_⟩⟩
    by_cases hl : level < kNumLevels
    · rw [hmem level hl f, hadded]
      simp [VersionEdit.addFile]
    · rw [hfiled.none_beyond level (not_lt.1 hl), h.version.filed.none_beyond level (not_lt.1 hl)]
      have hne : level ≠ level₀ := by
        rintro rfl
        exact hl (hlevel.trans_lt (by decide))
      simp [hne]

/-- The version after a flush is valid, has what it had, and what is new is apart from what it was put below. -/
theorem Good.flushVersion (h : db.Good) {entries : List (InternalKey α × Bytes)} {v' : Version α}
    (contents' : UInt64 → List (InternalKey α × Bytes)) (hfiled : v'.FiledLevels)
    (hfiles : v'.files = db.vset.current.files ∨ ∃ level₀ f₀, f₀.number = db.newFileNumber ∧ TableOf entries f₀ ∧
      (level₀ ≠ 0 → ∀ level ≤ level₀, ∀ f ∈ db.vset.current.files level,
        OutOfRange f₀.smallest.userKey f₀.largest.userKey f) ∧
      ∀ level f, f ∈ v'.files level ↔ (level = level₀ ∧ f = f₀) ∨ f ∈ db.vset.current.files level)
    (hcontents : ∀ level, ∀ f ∈ db.vset.current.files level, contents' f.number = db.contents f.number)
    (hentries : contents' db.newFileNumber = entries) (hunflushed : ∀ x ∈ entries, x ∈ db.unflushed)
    (hsequences : ∀ x ∈ entries, ∀ y ∈ entries, x.1.sequence = y.1.sequence → x.1 = y.1) :
    ValidVersion contents' v' ∧ (∀ level, ∀ f ∈ db.vset.current.files level, f ∈ v'.files level) ∧
      ∀ level, ∀ g ∈ v'.files level, g ∉ db.vset.current.files level →
        FlushedOver contents' db.vset.current level g ∧ g.number = db.newFileNumber := by
  have hnewer : ∀ level, ∀ f ∈ db.vset.current.files level, ∀ x ∈ contents' db.newFileNumber,
      ∀ y ∈ db.contents f.number, y.1.sequence < x.1.sequence := by
    intro level f hf x hx y hy
    rw [hentries] at hx
    exact h.memtables.newer y ⟨level, f, hf, hy⟩ x (hunflushed x hx)
  rcases hfiles with hsame | ⟨level₀, f₀, hnumber, htable, hapart, hmem⟩
  · refine ⟨h.version.congr hsame hcontents, fun level f hf => hsame ▸ hf, fun level g hg hnot => ?_⟩
    exact absurd (hsame ▸ hg) hnot
  · refine ⟨?_, fun level f hf => (hmem level f).2 (Or.inr hf), fun level g hg hnot => ?_⟩
    · refine h.version.flush hfiled hmem hcontents ?_ (fun level f hf => hnumber ▸ h.numbers.number_lt hf) ?_ ?_ hapart
      · rw [hnumber, hentries]
        exact htable
      · rw [hnumber]
        exact hnewer
      · rw [hnumber, hentries]
        exact hsequences
    · obtain ⟨rfl, rfl⟩ := ((hmem level g).1 hg).resolve_right hnot
      refine ⟨⟨fun hl level' hle f hf => hapart hl level' hle f hf, fun level' f hf => ?_⟩, hnumber⟩
      rw [hnumber, hcontents level' f hf]
      exact hnewer level' f hf

/-- **A flush.** -/
theorem Good.compactMemTable {env : Environment α} (h : db.Good) {fileSize : UInt64}
    (hstep : db.compactMemTable env fileSize = some db') : db'.Good := by
  unfold Database.compactMemTable at hstep
  split at hstep
  · cases hstep
  · rename_i imm himm
    split at hstep
    · rename_i hlt
      cases hstep
      have hunflushed : db.unflushed = imm ++ db.mem := by rw [unflushed, himm, Option.getD_some]
      have horder := h.memtables.order
      rw [hunflushed] at horder
      obtain ⟨horder, hmemOrder, hafter⟩ := List.pairwise_append.1 horder
      have hmem : ∀ {x}, x ∈ mergeAll [imm] ↔ x ∈ imm := by
        intro x
        simpa using (mergeAll_perm [imm]).mem_iff (a := x)
      have hin : ∀ x ∈ mergeAll [imm], x ∈ db.unflushed := by
        intro x hx
        rw [hunflushed]
        exact List.mem_append_left _ (hmem.1 hx)
      have hsequences : ∀ x ∈ mergeAll [imm], ∀ y ∈ mergeAll [imm], x.1.sequence = y.1.sequence → x.1 = y.1 := by
        intro x hx y hy heq
        by_contra hne
        have : Std.Symm fun x y : InternalKey α × Bytes => x.1.sequence ≠ y.1.sequence := ⟨fun _ _ => Ne.symm⟩
        exact (horder.imp fun {_ _} hlt => hlt.ne).forall (hmem.1 hx) (hmem.1 hy) (fun hxy => hne (congrArg _ hxy))
          heq
      have hcontents : ∀ level, ∀ f ∈ db.vset.current.files level,
          (if f.number = db.newFileNumber then mergeAll [imm] else db.contents f.number) = db.contents f.number := by
        intro level f hf
        rw [if_neg fun heq => absurd (heq ▸ h.numbers.number_lt hf) (UInt64.lt_irrefl _)]
      obtain ⟨hfiled, hfiles⟩ := h.writeLevel0Table fileSize (sorted_of_sequences horder)
        (fun x hx => (h.memtables.bounds x (hin x hx)).1) rfl
      obtain ⟨hvalid, hold, hnew⟩ := h.flushVersion
        (fun number => if number = db.newFileNumber then mergeAll [imm] else db.contents number)
        hfiled hfiles hcontents (if_pos rfl) hin hsequences
      -- an entry of a table was in a table, or in the memtable
      have hentry : ∀ level, ∀ g ∈ ((Builder.apply { base := db.vset.current }
          (db.writeLevel0Table fileSize (mergeAll [imm]))).saveTo).files level,
          ∀ y ∈ (if g.number = db.newFileNumber then mergeAll [imm] else db.contents g.number),
            db.InTables y ∨ y ∈ imm := by
        intro level g hg y hy
        by_cases hgold : g ∈ db.vset.current.files level
        · rw [hcontents level g hgold] at hy
          exact Or.inl ⟨level, g, hgold, hy⟩
        · rw [if_pos (hnew level g hg hgold).2] at hy
          exact Or.inr (hmem.1 hy)
      refine ⟨hvalid.congr rfl fun _ _ _ => rfl, by rintro f ⟨⟩, ⟨hmemOrder, fun x hx => ?_, ?_, ?_, h.memtables.last⟩,
        ⟨hlt, fun level g hg => ?_⟩, fun r hr => ?_⟩
      · exact h.memtables.bounds x (hunflushed ▸ List.mem_append_right _ hx)
      · rintro y ⟨level, g, hg, hy⟩
        rcases hentry level g hg y hy with hy | hy
        · exact h.memtables.tables y hy
        · exact (h.memtables.bounds y (hunflushed ▸ List.mem_append_left _ hy)).2
      · rintro y ⟨level, g, hg, hy⟩ x hx
        rcases hentry level g hg y hy with hy | hy
        · exact h.memtables.newer y hy x (hunflushed ▸ List.mem_append_right _ hx)
        · exact hafter y hy x hx
      · by_cases hgold : g ∈ db.vset.current.files level
        · exact (h.numbers.used level g hgold).trans (Nat.lt_succ_self _)
        · rw [(hnew level g hg hgold).2, h.numbers.newFileNumber_toNat]
          exact Nat.lt_succ_self _
      · refine (h.running r hr).grow (fun level f hf => ⟨hold level f hf, hcontents level f hf⟩)
          (fun level g hg hnot => ?_) (Nat.le_succ _)
        obtain ⟨hflushed, hnumber⟩ := hnew level g hg hnot
        exact ⟨hflushed, hnumber ▸ h.numbers.newFileNumber_toNat⟩
    · cases hstep

end Database

/-! ## Compactions -/

namespace Database

/-- A trivial move puts the only input one level down. -/
theorem Good.moveFile (h : db.Good) {c : Compaction α} (hsetup : c.SetUp db.vset.current)
    {f : FileMetaData α} (h0 : c.inputs0 = [f]) (h1 : c.inputs1 = []) (v' : Version α)
    (hv' : v' = (Builder.apply { base := db.vset.current } (c.moveEdit f)).saveTo) :
    ValidVersion db.contents v' ∧ ∀ level, ∀ g ∈ v'.files level, ∃ level', g ∈ db.vset.current.files level' := by
  have hinput : ∀ {level g}, c.IsInput level g ↔ level = c.level ∧ g = f := by
    intro level g
    simp [Compaction.IsInput, h0, h1]
  have hf : f ∈ db.vset.current.files c.level := hsetup.mem (hinput.2 ⟨rfl, rfl⟩)
  have hadded : ∀ {level g}, g ∈ (c.moveEdit f).added level ↔ level = c.level + 1 ∧ g = f := by
    intro level g
    simp [Compaction.moveEdit]
  obtain ⟨hfiled, hmem⟩ := Builder.saveTo_apply h.version.filed (c.moveEdit f)
    (fun level => by
      unfold VersionEdit.added Compaction.moveEdit
      by_cases hl : c.level + 1 = level <;> simp [hl])
    (fun level g hg => by
      obtain ⟨rfl, rfl⟩ := hadded.1 hg
      rintro ⟨f', hf', hn⟩
      exact absurd (h.version.eq_of_number hf' hf hn).1 (Nat.succ_ne_self _))
  rw [← hv'] at hfiled hmem
  have hmem' : ∀ level g, g ∈ v'.files level ↔
      (level = c.level + 1 ∧ g ∈ [f]) ∨ (g ∈ db.vset.current.files level ∧ ¬ c.IsInput level g) := by
    intro level g
    by_cases hl : level < kNumLevels
    · rw [hmem level hl, hadded, hinput, List.mem_singleton, VersionEdit.mem_deleted]
      refine or_congr_right (and_congr_right fun hg => not_congr ?_)
      simp only [Compaction.moveEdit, List.mem_singleton, Prod.mk.injEq]
      refine and_congr_right fun hlevel => ⟨fun hn => ?_, congrArg _⟩
      exact (h.version.eq_of_number hg hf hn).2
    · have hlevel := hsetup.closed.level_lt
      rw [hfiled.none_beyond level (not_lt.1 hl), h.version.filed.none_beyond level (not_lt.1 hl)]
      have hne : level ≠ c.level + 1 := by omega
      simp [hne]
  refine ⟨?_, fun level g hg => ?_⟩
  · refine h.version.replace hsetup (fun _ _ hg => hg) (fun _ g hg hnot => absurd hg hnot) hfiled hmem'
      (fun _ _ _ _ => rfl) ?_ ?_ ?_ (fun g hg hnot => absurd hg hnot)
    · intro out hout
      obtain rfl := List.mem_singleton.1 hout
      exact ⟨h.version.tables _ _ hf, fun x hx => ⟨c.level, out, hinput.2 ⟨rfl, rfl⟩, hx⟩,
        ⟨c.level, out, hinput.2 ⟨rfl, rfl⟩, le_refl _, out.ordered⟩,
        ⟨c.level, out, hinput.2 ⟨rfl, rfl⟩, out.ordered, le_refl _⟩⟩
    · intro out hout out' hout' hne
      rw [List.mem_singleton.1 hout, List.mem_singleton.1 hout'] at hne
      exact absurd rfl hne
    · intro out hout level g hg hnot hn
      rw [List.mem_singleton.1 hout] at hn
      obtain ⟨rfl, rfl⟩ := h.version.eq_of_number hg hf hn
      exact hnot (hinput.2 ⟨rfl, rfl⟩)
  · rcases (hmem' level g).1 hg with ⟨-, hg⟩ | ⟨hg, -⟩
    · rw [List.mem_singleton.1 hg]
      exact ⟨c.level, hf⟩
    · exact ⟨level, hg⟩

/-- The compaction loop has all entries of the inputs before it, sorted. -/
theorem Good.startedCompaction (h : db.Good) {c : Compaction α} (hsetup : c.SetUp db.vset.current)
    {job : CompactionJob α} (hversion : job.inputVersion = db.vset.current) (hjob : job.compaction = c)
    (hfiles : db'.vset.current.files = db.vset.current.files) (hcontents : db'.contents = db.contents) :
    RunningCompaction.Good db'
      { job, input := mergeAll ((c.inputs0 ++ c.inputs1).map fun f => db.contents f.number) } := by
  have hperm : (mergeAll ((c.inputs0 ++ c.inputs1).map fun f => db.contents f.number)).Perm
      ((c.inputs0 ++ c.inputs1).flatMap fun f => db.contents f.number) := by
    rw [List.flatMap_def]
    exact mergeAll_perm _
  refine ⟨?_, fun level f hf => ?_, fun level g hg hnot => ?_, ⟨[], ?_, fun x hx => ?_, List.Sublist.refl _⟩,
    ⟨by simp, by simp⟩, List.nodup_nil, by rintro n ⟨⟩⟩
  · rw [hversion, hjob]
    exact hsetup
  · dsimp only at hf
    rw [hversion] at hf
    exact hfiles.symm ▸ hf
  · dsimp only at hnot
    rw [hversion, ← hfiles] at hnot
    exact absurd hg hnot
  · exact hsetup.input_sorted h.version.layers h.version.filed.nodup (mergeAll_sorted _) hperm
  · obtain ⟨f, hf, hxf⟩ := List.mem_flatMap.1 (hperm.mem_iff.1 hx)
    rw [hcontents]
    dsimp only
    rw [hjob]
    rcases List.mem_append.1 hf with hf | hf
    · exact ⟨c.level, f, Or.inl ⟨rfl, hf⟩, hxf⟩
    · exact ⟨c.level + 1, f, Or.inr ⟨rfl, hf⟩, hxf⟩

/-- Tables that hold nothing new, with numbers that have been given out. -/
theorem Good.tables_from (h : db.Good) (hunflushed : db'.unflushed.Sublist db.unflushed)
    (hlast : db'.lastSequence = db.lastSequence) (htables : ∀ y, db'.InTables y → db.InTables y) :
    db'.MemtablesNewer where
  order := h.memtables.order.sublist hunflushed
  bounds x hx := hlast.symm ▸ h.memtables.bounds x (hunflushed.subset hx)
  tables y hy := hlast.symm ▸ h.memtables.tables y (htables y hy)
  newer y hy x hx := h.memtables.newer y (htables y hy) x (hunflushed.subset hx)
  last := hlast.symm ▸ h.memtables.last

/-- **A compaction begins**, or moves a file. -/
theorem Good.backgroundCompaction {env : Environment α} (h : db.Good) {isManual : Bool} {smallestSnapshot : Nat}
    {r : Option (Option (Compaction α × VersionSet α))}
    (hr : ∀ c vset', r = some (some (c, vset')) → c.SetUp db.vset.current ∧ vset'.current = db.vset.current)
    (hstep : db.backgroundCompaction env isManual smallestSnapshot r = some db') : db'.Good := by
  unfold Database.backgroundCompaction at hstep
  split at hstep
  · rename_i hidle
    split at hstep
    · cases hstep
    · cases hstep
      exact h
    · rename_i c vset'
      obtain ⟨hsetup, hcurrent⟩ := hr c vset' rfl
      have hnone : db.running = none := Option.isNone_iff_eq_none.1 hidle.1
      have hseek : VersionSet.SeekFileKnown vset'.current := hcurrent.symm ▸ h.seek
      obtain rfl := Option.some.inj hstep
      unfold startCompaction
      split
      · rename_i f rest h0
        dsimp only
        split
        · -- a trivial move
          rename_i hmove
          simp only [Bool.and_eq_true, Compaction.isTrivialMove, decide_eq_true_eq, h0, List.length_cons,
            List.length_eq_zero_iff] at hmove
          have hrest : rest = [] := by
            have := hmove.2.1.1
            exact List.eq_nil_of_length_eq_zero (by omega)
          obtain ⟨hvalid, hfrom⟩ := h.moveFile hsetup (hrest ▸ h0) hmove.2.1.2
            (Builder.apply { base := vset'.current } (c.moveEdit f)).saveTo (by rw [hcurrent])
          refine ⟨hvalid.congr rfl fun _ _ _ => rfl, by rintro g ⟨⟩,
            h.tables_from (List.Sublist.refl _) rfl ?_, ⟨h.numbers.lt, fun level g hg => ?_⟩, fun r hr => ?_⟩
          · rintro y ⟨level, g, hg, hy⟩
            obtain ⟨level', hg'⟩ := hfrom level g hg
            exact ⟨level', g, hg', hy⟩
          · obtain ⟨level', hg'⟩ := hfrom level g hg
            exact h.numbers.used level' g hg'
          · exact absurd (hnone.symm.trans hr) (by simp)
        · refine h.congr (congrArg _ hcurrent) rfl (le_refl _) h.numbers.lt hseek
            (h.tables_from (List.Sublist.refl _) rfl ?_) ?_
          · rintro y ⟨level, g, hg, hy⟩
            exact ⟨level, g, hcurrent ▸ hg, hy⟩
          · rintro r ⟨⟩
            exact h.startedCompaction hsetup rfl rfl (congrArg _ hcurrent) rfl
      · refine h.congr (congrArg _ hcurrent) rfl (le_refl _) h.numbers.lt hseek
          (h.tables_from (List.Sublist.refl _) rfl ?_) fun r hr => ?_
        · rintro y ⟨level, g, hg, hy⟩
          exact ⟨level, g, hcurrent ▸ hg, hy⟩
        · exact absurd (hnone.symm.trans hr) (by simp)
  · cases hstep

end Database

section Outputs
variable {r : RunningCompaction α}

/-- What the loop has left. -/
theorem RunningCompaction.outputs_spec (h : r.work.AllRecorded) :
    (∀ out ∈ r.outputs, CompactionWork.Recorded out) ∧ r.outputs.flatMap (·.entries) = r.work.written ∧
      r.outputs.map (·.number) = r.work.numbers := by
  refine ⟨(h.finishOutput r.job).1, ?_, ?_⟩
  · rw [← CompactionWork.finishOutput_written r.job]
    simp [RunningCompaction.outputs, CompactionWork.written]
  · rw [← CompactionWork.finishOutput_numbers r.job]
    simp [RunningCompaction.outputs, CompactionWork.numbers]

theorem RunningCompaction.Good.outputs_sorted (h : r.Good db) :
    (r.outputs.flatMap (·.entries)).Pairwise fun x y => x.1 < y.1 := by
  obtain ⟨past, hsorted, -, hsub⟩ := h.input
  rw [(outputs_spec h.recorded).2.1]
  exact (List.pairwise_append.1 hsorted).1.sublist hsub

/-- Every output becomes a file. -/
theorem RunningCompaction.Good.output_file (h : r.Good db) {out : Output α} (hout : out ∈ r.outputs)
    {f : FileMetaData α} (hf : out.file? = some f) : f.number = out.number ∧
      out.entries.head?.map (·.1) = some f.smallest ∧ out.entries.getLast?.map (·.1) = some f.largest := by
  obtain ⟨f', hf', hspec⟩ := ((outputs_spec h.recorded).1 out hout).file?_some
    ((List.pairwise_flatMap.1 h.outputs_sorted).1 out hout)
  rwa [Option.some.inj (hf'.symm.trans hf)] at hspec

theorem RunningCompaction.Good.output_entry (h : r.Good db) {out : Output α} (hout : out ∈ r.outputs)
    {x : InternalKey α × Bytes} (hx : x ∈ out.entries) :
    ∃ level g, r.job.compaction.IsInput level g ∧ x ∈ db.contents g.number := by
  obtain ⟨past, -, hmem, hsub⟩ := h.input
  refine hmem x (List.mem_append_left _ (hsub.subset ?_))
  rw [← (outputs_spec h.recorded).2.1]
  exact List.mem_flatMap.2 ⟨out, hout, hx⟩

/-- An output as a table file: of the input's entries, within the inputs. -/
theorem RunningCompaction.Good.outputOf (h : r.Good db)
    (htables : ∀ level f, r.job.compaction.IsInput level f → TableOf (db.contents f.number) f)
    {out : Output α} (hout : out ∈ r.outputs) {f : FileMetaData α} (hf : out.file? = some f)
    {contents' : UInt64 → List (InternalKey α × Bytes)} (hcontents : contents' out.number = out.entries) :
    OutputOf db.contents contents' r.job.compaction f := by
  obtain ⟨hnumber, hfirst, hlast⟩ := h.output_file hout hf
  have hbound : ∀ {x}, x ∈ out.entries → ∃ level g, r.job.compaction.IsInput level g ∧ g.smallest ≤ x.1 ∧
      x.1 ≤ g.largest := by
    intro x hx
    obtain ⟨level, g, hg, hxg⟩ := h.output_entry hout hx
    exact ⟨level, g, hg, (htables level g hg).within x hxg⟩
  refine ⟨?_, fun x hx => h.output_entry hout ?_, ?_, ?_⟩
  · rw [hnumber, hcontents]
    refine tableOf_of_sorted ((List.pairwise_flatMap.1 h.outputs_sorted).1 out hout) (fun x hx => ?_) hfirst hlast
    obtain ⟨level, g, hg, hxg⟩ := h.output_entry hout hx
    exact (htables level g hg).inFormat.2 x hxg
  · rw [hnumber, hcontents] at hx
    exact hx
  · obtain ⟨first, hfirst, hsmallest⟩ := Option.map_eq_some_iff.1 hfirst
    rw [← hsmallest]
    exact hbound (List.mem_of_head? hfirst)
  · obtain ⟨last, hlast, hlargest⟩ := Option.map_eq_some_iff.1 hlast
    rw [← hlargest]
    exact hbound (List.mem_of_getLast? hlast)

/-- The outputs are in the order of their entries, so no two overlap. -/
theorem RunningCompaction.Good.outputs_disjoint (h : r.Good db) {out out' : Output α}
    (hout : out ∈ r.outputs) (hout' : out' ∈ r.outputs) (hne : out ≠ out') {f f' : FileMetaData α}
    (hf : out.file? = some f) (hf' : out'.file? = some f') :
    f.largest < f'.smallest ∨ f'.largest < f.smallest := by
  obtain ⟨-, hfirst, hlast⟩ := h.output_file hout hf
  obtain ⟨-, hfirst', hlast'⟩ := h.output_file hout' hf'
  obtain ⟨first, hfirst, hsmallest⟩ := Option.map_eq_some_iff.1 hfirst
  obtain ⟨last, hlast, hlargest⟩ := Option.map_eq_some_iff.1 hlast
  obtain ⟨first', hfirst', hsmallest'⟩ := Option.map_eq_some_iff.1 hfirst'
  obtain ⟨last', hlast', hlargest'⟩ := Option.map_eq_some_iff.1 hlast'
  rw [← hsmallest, ← hlargest, ← hsmallest', ← hlargest']
  have : Std.Symm fun o o' : Output α => (∀ x ∈ o.entries, ∀ y ∈ o'.entries, x.1 < y.1) ∨
      ∀ x ∈ o'.entries, ∀ y ∈ o.entries, x.1 < y.1 := ⟨fun _ _ => Or.symm⟩
  have hpairs : r.outputs.Pairwise fun o o' => (∀ x ∈ o.entries, ∀ y ∈ o'.entries, x.1 < y.1) ∨
      ∀ x ∈ o'.entries, ∀ y ∈ o.entries, x.1 < y.1 :=
    (List.pairwise_flatMap.1 h.outputs_sorted).2.imp fun {_ _} hlt => Or.inl hlt
  exact (hpairs.forall hout hout' hne).imp (fun hlt => hlt last (List.mem_of_getLast? hlast) first' (List.mem_of_head? hfirst'))
    fun hlt => hlt last' (List.mem_of_getLast? hlast') first (List.mem_of_head? hfirst)

end Outputs

namespace Database

omit [LinearOrder α] in
theorem withOutputs_spec {outputs : List (Output α)} (hnodup : (outputs.map (·.number)).Nodup)
    (contents : UInt64 → List (InternalKey α × Bytes)) :
    (∀ out ∈ outputs, withOutputs contents outputs out.number = out.entries) ∧
      ∀ number ∉ outputs.map (·.number), withOutputs contents outputs number = contents number := by
  unfold withOutputs
  constructor
  · intro out hout
    cases hfind : outputs.find? fun o => decide (o.number = out.number) with
    | none =>
      have hno := List.find?_eq_none.1 hfind out hout
      simp at hno
    | some o =>
      have hn := List.find?_some hfind
      have ho := List.mem_of_find?_eq_some hfind
      rw [List.inj_on_of_nodup_map hnodup ho hout (by simpa using hn)]
  · intro number hnot
    cases hfind : outputs.find? fun o => decide (o.number = number) with
    | none => rfl
    | some o =>
      have hn := List.find?_some hfind
      have ho := List.mem_of_find?_eq_some hfind
      exact absurd (List.mem_map.2 ⟨o, ho, by simpa using hn⟩) hnot

/-- **The outputs are installed.** -/
theorem Good.installCompaction {env : Environment α} (h : db.Good)
    (hclear : ∀ r, db.running = some r → ∀ f ∈ db.vset.current.files (r.job.compaction.level + 1),
      f ∉ r.job.inputVersion.files (r.job.compaction.level + 1) →
      ∀ out ∈ r.outputs, ∀ o ∈ out.file?, NotInside o f)
    (hstep : db.installCompaction env = some db') : db'.Good := by
  unfold Database.installCompaction at hstep
  split at hstep
  · cases hstep
  · rename_i r hr
    split at hstep
    · cases hstep
    · rename_i hinput
      cases hstep
      have hgood := h.running r hr
      obtain ⟨-, -, hnumbers⟩ := RunningCompaction.outputs_spec hgood.recorded
      have hnodup : (r.outputs.map (·.number)).Nodup := hnumbers ▸ hgood.numbers
      have hfresh : ∀ out ∈ r.outputs, ∀ level, ¬ db.vset.current.Holds level out.number := fun out hout =>
        (hgood.numbersNew _ (hnumbers ▸ List.mem_map_of_mem hout)).2
      have hinputs : ∀ level f, r.job.compaction.IsInput level f → f ∈ db.vset.current.files level :=
        fun level f hf => hgood.kept level f (hgood.setUp.mem hf)
      obtain ⟨hnew, hold⟩ := withOutputs_spec hnodup db.contents
      have hcontents : ∀ level, ∀ f ∈ db.vset.current.files level,
          withOutputs db.contents r.outputs f.number = db.contents f.number := by
        intro level f hf
        refine hold f.number fun hin => ?_
        obtain ⟨out, hout, hn⟩ := List.mem_map.1 hin
        exact hfresh out hout level ⟨f, hf, hn.symm⟩
      have hmem := fun {level} {f} (hl : level < kNumLevels) => mem_install h.version.filed hinputs hnodup
        (fun out hout => hfresh out hout _) hl (f := f)
      have hfiled : (r.job.compaction.install db.vset.current r.outputs).FiledLevels :=
        (Builder.saveTo_apply h.version.filed (r.job.compaction.installResults r.outputs)
          (installResults_added_numbers hnodup) fun level g hg hholds => by
            obtain ⟨rfl, out, hout, hfile⟩ := mem_installResults_added.1 hg
            exact hfresh out hout _ (Output.number_of_file? hfile ▸ hholds)).1
      have hmem' : ∀ level f, f ∈ (r.job.compaction.install db.vset.current r.outputs).files level ↔
          (level = r.job.compaction.level + 1 ∧ f ∈ r.outputs.filterMap Output.file?) ∨
            (f ∈ db.vset.current.files level ∧ ¬ r.job.compaction.IsInput level f) := by
        intro level f
        by_cases hl : level < kNumLevels
        · rw [hmem hl, List.mem_filterMap]
        · have hlevel := hgood.setUp.closed.level_lt
          rw [hfiled.none_beyond level (not_lt.1 hl), h.version.filed.none_beyond level (not_lt.1 hl)]
          have hne : level ≠ r.job.compaction.level + 1 := by omega
          simp [hne]
      have hvalid := h.version.replace hgood.setUp hgood.kept hgood.flushed hfiled hmem'
        (fun level f hf _ => hcontents level f hf)
        (fun o ho => by
          obtain ⟨out, hout, hfile⟩ := List.mem_filterMap.1 ho
          exact hgood.outputOf (fun level f hf => h.version.tables level f (hinputs level f hf)) hout hfile
            (hnew out hout))
        (fun o ho o' ho' hne => by
          obtain ⟨out, hout, hfile⟩ := List.mem_filterMap.1 ho
          obtain ⟨out', hout', hfile'⟩ := List.mem_filterMap.1 ho'
          refine hgood.outputs_disjoint hout hout' (fun heq => hne ?_) hfile hfile'
          rw [heq, hfile'] at hfile
          rw [Option.some.inj hfile])
        (fun o ho level f hf _ hn => by
          obtain ⟨out, hout, hfile⟩ := List.mem_filterMap.1 ho
          exact hfresh out hout level ⟨f, hf, hn.trans (Output.number_of_file? hfile)⟩)
        (fun f hf hnot o ho => by
          obtain ⟨out, hout, hfile⟩ := List.mem_filterMap.1 ho
          exact hclear r hr f hf hnot out hout o hfile)
      refine ⟨hvalid.congr rfl fun _ _ _ => rfl, by rintro g ⟨⟩, h.tables_from (List.Sublist.refl _) rfl ?_,
        ⟨h.numbers.lt, fun level g hg => ?_⟩, by rintro r ⟨⟩⟩
      · rintro y ⟨level, g, hg, hy⟩
        rcases (hmem' level g).1 hg with ⟨-, hg⟩ | ⟨hg, -⟩
        · obtain ⟨out, hout, hfile⟩ := List.mem_filterMap.1 hg
          rw [Output.number_of_file? hfile] at hy
          dsimp only at hy
          rw [hnew out hout] at hy
          obtain ⟨level', f, hf, hyf⟩ := hgood.output_entry hout hy
          exact ⟨level', f, hinputs level' f hf, hyf⟩
        · exact ⟨level, g, hg, hcontents level g hg ▸ hy⟩
      · rcases (hmem' level g).1 hg with ⟨-, hg⟩ | ⟨hg, -⟩
        · obtain ⟨out, hout, hfile⟩ := List.mem_filterMap.1 hg
          rw [Output.number_of_file? hfile]
          exact (hgood.numbersNew _ (hnumbers ▸ List.mem_map_of_mem hout)).1
        · exact h.numbers.used level g hg

/-! ## Runs -/

/-- The step does not put an output around a table that was flushed while the compaction was under way. -/
def Clear (db : Database α) : DatabaseEvent α → Prop
  | .installCompaction => ∀ r, db.running = some r →
      ∀ f ∈ db.vset.current.files (r.job.compaction.level + 1),
        f ∉ r.job.inputVersion.files (r.job.compaction.level + 1) →
          ∀ out ∈ r.outputs, ∀ o ∈ out.file?, NotInside o f
  | _ => True

/-- All steps of the run are clear. -/
def ClearRun (env : Environment α) : Database α → List (DatabaseEvent α) → Prop
  | _, [] => True
  | db, event :: events =>
    db.Clear event ∧ ∀ db', db.step env event = some db' → ClearRun env db' events

/-- **Step.** -/
theorem Good.step {env : Environment α} (h : db.Good) {event : DatabaseEvent α} (hclear : db.Clear event)
    (hstep : db.step env event = some db') : db'.Good := by
  cases event with
  | write batch => exact h.write hstep
  | switchMemTable => exact h.switchMemTable hstep
  | compactMemTable fileSize => exact h.compactMemTable hstep
  | chargeSeek level f => exact h.chargeSeek hstep
  | pickCompaction smallestSnapshot =>
    exact h.backgroundCompaction (fun c vset' hc =>
      VersionSet.setUp_of_some h.version.sortedLevels h.seek (Or.inl hc)) hstep
  | compactRange level begin_ end_ smallestSnapshot =>
    exact h.backgroundCompaction (fun c vset' hc =>
      VersionSet.setUp_of_some h.version.sortedLevels h.seek (Or.inr ⟨level, begin_, end_, hc⟩)) hstep
  | workOn => exact h.workOn hstep
  | installCompaction => exact h.installCompaction hclear hstep
  | cleanupCompaction => exact h.cleanupCompaction hstep

theorem run_cons_some {env : Environment α} {event : DatabaseEvent α} {events : List (DatabaseEvent α)}
    {states : List (Database α)} : db.run env (event :: events) = some states ↔
      ∃ db' rest, db.step env event = some db' ∧ db'.run env events = some rest ∧ states = db :: rest := by
  simp only [Database.run, Option.bind_eq_bind, Option.bind_eq_some_iff, Option.pure_def, Option.some.injEq]
  constructor
  · rintro ⟨db', hstep, rest, hrest, rfl⟩
    exact ⟨db', rest, hstep, hrest, rfl⟩
  · rintro ⟨db', rest, hstep, hrest, rfl⟩
    exact ⟨db', hstep, rest, hrest, rfl⟩

/-- **Run.** -/
theorem Good.run {env : Environment α} {events : List (DatabaseEvent α)} {states : List (Database α)}
    (h : db.Good) (hclear : db.ClearRun env events) (hrun : db.run env events = some states) :
    ∀ db' ∈ states, db'.Good := by
  induction events generalizing db states with
  | nil =>
    obtain rfl := Option.some.inj hrun
    simpa using h
  | cons event events ih =>
    obtain ⟨db', rest, hstep, hrest, rfl⟩ := run_cons_some.1 hrun
    simp only [List.mem_cons, forall_eq_or_imp]
    exact ⟨h, ih (h.step hclear.1 hstep) (hclear.2 db' hstep) hrest⟩

end Database

end Steps

end LevelDbSurf
