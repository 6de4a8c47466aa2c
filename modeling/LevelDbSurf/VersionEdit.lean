import LevelDbSurf.VersionIterators

/-!
# Edits and the builder (`version_set.cc:584-749`)

| here | there |
| --- | --- |
| `VersionEdit`          | `VersionEdit` (`db/version_edit.h`, not part of the repository), its fields |
| `bySmallestKey`, `FileSet.insert` | `BySmallestKey` (`:590`), insertion into `FileSet` (`:604`) |
| `Builder.apply`        | `VersionSet::Builder::Apply` (`:647`), but for the compaction pointers |
| `Builder.saveTo`       | `VersionSet::Builder::SaveTo` (`:690`), with `MaybeAddFile` (`:735`) |

`saveFiles` keeps the source's loop; `saveFiles_eq` says that it is a merge with the deleted files left
out. The assertions of `MaybeAddFile` and of the debug build that a level has no overlap are not part
of the model: what they state is what has to be proved.
-/

namespace LevelDbSurf

variable {α : Type} [LinearOrder α]

/-- `VersionEdit`: the `has_..._` flags are the `Option`s. `deletedFiles` is a set in the source. -/
structure VersionEdit (α : Type) [LinearOrder α] where
  comparator : Option String := none
  logNumber : Option UInt64 := none
  prevLogNumber : Option UInt64 := none
  nextFileNumber : Option UInt64 := none
  lastSequence : Option Nat := none
  compactPointers : List (Nat × InternalKey α) := []
  deletedFiles : List (Nat × UInt64) := []
  newFiles : List (Nat × FileMetaData α) := []

namespace VersionEdit

/-- `RemoveFile`. -/
def removeFile (edit : VersionEdit α) (level : Nat) (number : UInt64) : VersionEdit α :=
  { edit with deletedFiles := edit.deletedFiles ++ [(level, number)] }

/-- `AddFile`. -/
def addFile (edit : VersionEdit α) (level : Nat) (f : FileMetaData α) : VersionEdit α :=
  { edit with newFiles := edit.newFiles ++ [(level, f)] }

/-- The files added to a level. -/
def added (edit : VersionEdit α) (level : Nat) : List (FileMetaData α) :=
  (edit.newFiles.filter fun e => decide (e.1 = level)).map (·.2)

/-- The numbers deleted from a level. -/
def deleted (edit : VersionEdit α) (level : Nat) : List UInt64 :=
  (edit.deletedFiles.filter fun e => decide (e.1 = level)).map (·.2)

@[simp] theorem mem_added {edit : VersionEdit α} {level : Nat} {f : FileMetaData α} :
    f ∈ edit.added level ↔ (level, f) ∈ edit.newFiles := by
  simp only [added, List.mem_map, List.mem_filter, decide_eq_true_eq]
  constructor
  · rintro ⟨⟨_, _⟩, ⟨h, rfl⟩, rfl⟩
    exact h
  · exact fun h => ⟨(level, f), ⟨h, rfl⟩, rfl⟩

@[simp] theorem mem_deleted {edit : VersionEdit α} {level : Nat} {n : UInt64} :
    n ∈ edit.deleted level ↔ (level, n) ∈ edit.deletedFiles := by
  simp only [deleted, List.mem_map, List.mem_filter, decide_eq_true_eq]
  constructor
  · rintro ⟨⟨_, _⟩, ⟨h, rfl⟩, rfl⟩
    exact h
  · exact fun h => ⟨(level, n), ⟨h, rfl⟩, rfl⟩

end VersionEdit

/-! ## `BySmallestKey` -/

/-- `BySmallestKey`: "Break ties by file number". -/
def bySmallestKey (f1 f2 : FileMetaData α) : Prop :=
  f1.smallest < f2.smallest ∨ f1.smallest = f2.smallest ∧ f1.number < f2.number

instance : DecidableRel (bySmallestKey : FileMetaData α → FileMetaData α → Prop) :=
  fun _ _ => inferInstanceAs (Decidable (_ ∨ _))

theorem bySmallestKey_irrefl (f : FileMetaData α) : ¬ bySmallestKey f f := by
  rintro (h | ⟨-, h⟩)
  · exact lt_irrefl _ h
  · exact UInt64.lt_irrefl _ h

theorem bySmallestKey_trans {f g h : FileMetaData α} (hfg : bySmallestKey f g) (hgh : bySmallestKey g h) :
    bySmallestKey f h := by
  rcases hfg with hfg | ⟨hfg, hn⟩
  · rcases hgh with hgh | ⟨hgh, -⟩
    · exact Or.inl (lt_trans hfg hgh)
    · exact Or.inl (hgh ▸ hfg)
  · rcases hgh with hgh | ⟨hgh, hn'⟩
    · exact Or.inl (hfg ▸ hgh)
    · exact Or.inr ⟨hfg.trans hgh, UInt64.lt_trans hn hn'⟩

theorem bySmallestKey_asymm {f g : FileMetaData α} (h : bySmallestKey f g) : ¬ bySmallestKey g f :=
  fun h' => bySmallestKey_irrefl f (bySmallestKey_trans h h')

/-- Files of different numbers are ordered one way or the other. -/
theorem bySmallestKey_total {f g : FileMetaData α} (hn : f.number ≠ g.number) :
    bySmallestKey f g ∨ bySmallestKey g f := by
  rcases lt_trichotomy f.smallest g.smallest with h | h | h
  · exact Or.inl (Or.inl h)
  · rcases UInt64.lt_or_lt_of_ne hn with h' | h'
    · exact Or.inl (Or.inr ⟨h, h'⟩)
    · exact Or.inr (Or.inr ⟨h.symm, h'⟩)
  · exact Or.inr (Or.inl h)

/-- In order, and no number twice: what the files of a level look like after `SaveTo`. -/
def Filed (files : List (FileMetaData α)) : Prop :=
  files.Pairwise fun f g => bySmallestKey f g ∧ f.number ≠ g.number

instance : Std.Antisymm (fun f g : FileMetaData α => bySmallestKey f g ∧ f.number ≠ g.number) :=
  ⟨fun _ _ h h' => absurd h'.1 (bySmallestKey_asymm h.1)⟩

instance : Std.Irrefl (fun f g : FileMetaData α => bySmallestKey f g ∧ f.number ≠ g.number) :=
  ⟨fun f h => bySmallestKey_irrefl f h.1⟩

/-- Such files are determined by which they are. -/
theorem Filed.ext {files files' : List (FileMetaData α)} (h : Filed files) (h' : Filed files')
    (hmem : ∀ f, f ∈ files ↔ f ∈ files') : files = files' :=
  List.Pairwise.eq_of_mem_iff h h' hmem

/-- Two files of one number are one file. -/
theorem Filed.eq_of_number {files : List (FileMetaData α)} (h : Filed files) {f g : FileMetaData α}
    (hf : f ∈ files) (hg : g ∈ files) (hn : f.number = g.number) : f = g := by
  have hnodup : (files.map (·.number)).Nodup := List.pairwise_map.2 (List.Pairwise.imp (fun h => h.2) h)
  exact List.inj_on_of_nodup_map hnodup hf hg hn

/-! ## Sets of files -/

/-- Insertion into a `FileSet`: nothing happens if a file that compares equal is there already. -/
def FileSet.insert (f : FileMetaData α) : List (FileMetaData α) → List (FileMetaData α)
  | [] => [f]
  | g :: files =>
    if bySmallestKey f g then f :: g :: files
    else if bySmallestKey g f then g :: FileSet.insert f files
    else g :: files

theorem FileSet.mem_insert {f : FileMetaData α} {files : List (FileMetaData α)}
    (hnew : ∀ g ∈ files, g.number ≠ f.number) {g : FileMetaData α} :
    g ∈ FileSet.insert f files ↔ g = f ∨ g ∈ files := by
  induction files with
  | nil => simp [FileSet.insert]
  | cons a files ih =>
    have ih := ih fun g hg => hnew g (List.mem_cons_of_mem _ hg)
    have htotal := bySmallestKey_total (hnew a List.mem_cons_self)
    simp only [FileSet.insert]
    split
    · simp only [List.mem_cons]
    · rename_i hfa
      rw [if_pos (htotal.resolve_right hfa)]
      simp only [List.mem_cons, ih]
      tauto

theorem FileSet.insert_filed {f : FileMetaData α} {files : List (FileMetaData α)}
    (hnew : ∀ g ∈ files, g.number ≠ f.number) (h : Filed files) : Filed (FileSet.insert f files) := by
  induction files with
  | nil => exact List.pairwise_singleton _ _
  | cons a files ih =>
    obtain ⟨ha, hfiles⟩ := List.pairwise_cons.1 h
    have hnew' : ∀ g ∈ files, g.number ≠ f.number := fun g hg => hnew g (List.mem_cons_of_mem _ hg)
    have htotal := bySmallestKey_total (hnew a List.mem_cons_self)
    simp only [FileSet.insert]
    split
    · rename_i hfa
      refine List.pairwise_cons.2 ⟨fun g hg => ?_, h⟩
      rcases List.mem_cons.1 hg with rfl | hg
      · exact ⟨hfa, (hnew g List.mem_cons_self).symm⟩
      · exact ⟨bySmallestKey_trans hfa (ha g hg).1, (hnew' g hg).symm⟩
    · rename_i hfa
      have haf := htotal.resolve_right hfa
      rw [if_pos haf]
      refine List.pairwise_cons.2 ⟨fun g hg => ?_, ih hnew' hfiles⟩
      rcases (FileSet.mem_insert hnew').1 hg with rfl | hg
      · exact ⟨haf, hnew a List.mem_cons_self⟩
      · exact ha g hg

/-! ## `Builder` -/

/-- `LevelState`. -/
structure LevelState (α : Type) [LinearOrder α] where
  deletedFiles : Finset UInt64 := ∅
  addedFiles : List (FileMetaData α) := []

namespace LevelState

/-- `deleted_files.insert(number)`. -/
def delete (s : LevelState α) (number : UInt64) : LevelState α :=
  { s with deletedFiles := insert number s.deletedFiles }

/-- `deleted_files.erase(f->number)`, `added_files->insert(f)`. -/
def add (s : LevelState α) (f : FileMetaData α) : LevelState α :=
  { deletedFiles := s.deletedFiles.erase f.number, addedFiles := FileSet.insert f s.addedFiles }

end LevelState

/-- `VersionSet::Builder`. -/
structure Builder (α : Type) [LinearOrder α] where
  base : Version α
  levels : Nat → LevelState α := fun _ => {}

namespace Builder

/-- Changes the state of one level. -/
def onLevel (b : Builder α) (level : Nat) (f : LevelState α → LevelState α) : Builder α :=
  { b with levels := fun l => if l = level then f (b.levels l) else b.levels l }

/-- `Apply`, but for "Update compaction pointers". -/
def apply (b : Builder α) (edit : VersionEdit α) : Builder α :=
  let b := edit.deletedFiles.foldl (fun b e => b.onLevel e.1 fun s => s.delete e.2) b
  edit.newFiles.foldl (fun b e => b.onLevel e.1 fun s => s.add e.2) b

/-- `MaybeAddFile`. -/
def maybeAddFile (s : LevelState α) (files : List (FileMetaData α)) (f : FileMetaData α) :
    List (FileMetaData α) :=
  if f.number ∈ s.deletedFiles then files else files ++ [f]

/-- `std::upper_bound` in a sorted range. -/
def upperBound (files : List (FileMetaData α)) (f : FileMetaData α) : Nat :=
  files.findIdx fun g => decide (bySmallestKey f g)

/-- The loop of `SaveTo` at one level, over the added files that are left; `baseIter` is what lies
between `base_iter` and `base_end`. -/
def saveLoop (s : LevelState α) :
    List (FileMetaData α) → List (FileMetaData α) → List (FileMetaData α) → List (FileMetaData α)
  | [], baseIter, files => baseIter.foldl (maybeAddFile s) files  -- "Add remaining base files"
  | addedFile :: added, baseIter, files =>
    let bpos := upperBound baseIter addedFile
    -- "Add all smaller files listed in base_"
    let files := (baseIter.take bpos).foldl (maybeAddFile s) files
    saveLoop s added (baseIter.drop bpos) (maybeAddFile s files addedFile)

/-- What `SaveTo` makes of one level. -/
def saveFiles (s : LevelState α) (baseFiles : List (FileMetaData α)) : List (FileMetaData α) :=
  saveLoop s s.addedFiles baseFiles []

/-- `SaveTo`, into a new version. -/
def saveTo (b : Builder α) : Version α where
  files level := if level < kNumLevels then saveFiles (b.levels level) (b.base.files level) else []

/-! ### What `Apply` does to a level -/

theorem foldl_onLevel {β : Type} (f : LevelState α → β → LevelState α) (es : List (Nat × β)) (b : Builder α)
    (level : Nat) :
    (es.foldl (fun b e => b.onLevel e.1 fun s => f s e.2) b).levels level =
      ((es.filter fun e => decide (e.1 = level)).map (·.2)).foldl f (b.levels level) := by
  induction es generalizing b with
  | nil => rfl
  | cons e es ih =>
    rw [List.foldl_cons, ih]
    by_cases he : e.1 = level
    · simp [onLevel, he]
    · simp [onLevel, he, Ne.symm he]

theorem foldl_onLevel_base {β : Type} (f : LevelState α → β → LevelState α) (es : List (Nat × β))
    (b : Builder α) : (es.foldl (fun b e => b.onLevel e.1 fun s => f s e.2) b).base = b.base := by
  induction es generalizing b with
  | nil => rfl
  | cons e es ih =>
    rw [List.foldl_cons, ih]
    rfl

@[simp] theorem apply_base (b : Builder α) (edit : VersionEdit α) : (b.apply edit).base = b.base := by
  unfold apply
  rw [foldl_onLevel_base, foldl_onLevel_base]

theorem apply_levels (b : Builder α) (edit : VersionEdit α) (level : Nat) :
    (b.apply edit).levels level =
      (edit.added level).foldl LevelState.add ((edit.deleted level).foldl LevelState.delete (b.levels level)) := by
  unfold apply
  rw [foldl_onLevel, foldl_onLevel]
  rfl

end Builder

namespace LevelState

theorem foldl_delete (numbers : List UInt64) (s : LevelState α) :
    (∀ n, n ∈ (numbers.foldl delete s).deletedFiles ↔ n ∈ numbers ∨ n ∈ s.deletedFiles) ∧
      (numbers.foldl delete s).addedFiles = s.addedFiles := by
  induction numbers generalizing s with
  | nil => simp
  | cons m numbers ih =>
    obtain ⟨hmem, hadded⟩ := ih (s.delete m)
    rw [List.foldl_cons]
    refine ⟨fun n => ?_, hadded⟩
    rw [hmem]
    simp only [delete, Finset.mem_insert, List.mem_cons]
    tauto

theorem foldl_add_deleted (files : List (FileMetaData α)) (s : LevelState α) (n : UInt64) :
    n ∈ (files.foldl add s).deletedFiles ↔ n ∈ s.deletedFiles ∧ ∀ f ∈ files, f.number ≠ n := by
  induction files generalizing s with
  | nil => simp
  | cons f files ih =>
    rw [List.foldl_cons, ih]
    simp only [add, Finset.mem_erase, List.forall_mem_cons, ne_comm (a := n)]
    tauto

/-- Adding files of new numbers. -/
theorem foldl_add_added (files : List (FileMetaData α)) {s : LevelState α} (hs : Filed s.addedFiles)
    (hnew : ∀ f ∈ files, ∀ g ∈ s.addedFiles, g.number ≠ f.number)
    (honce : files.Pairwise fun f g => f.number ≠ g.number) :
    Filed (files.foldl add s).addedFiles ∧
      ∀ f, f ∈ (files.foldl add s).addedFiles ↔ f ∈ files ∨ f ∈ s.addedFiles := by
  induction files generalizing s with
  | nil => exact ⟨hs, by simp⟩
  | cons a files ih =>
    obtain ⟨ha, honce⟩ := List.pairwise_cons.1 honce
    have hnewa := hnew a List.mem_cons_self
    rw [List.foldl_cons]
    obtain ⟨hfiled, hmem⟩ := ih (s := s.add a) (FileSet.insert_filed hnewa hs) (fun f hf g hg => by
      rcases (FileSet.mem_insert hnewa).1 hg with rfl | hg
      · exact ha f hf
      · exact hnew f (List.mem_cons_of_mem _ hf) g hg) honce
    refine ⟨hfiled, fun f => ?_⟩
    rw [hmem, show f ∈ (s.add a).addedFiles ↔ f = a ∨ f ∈ s.addedFiles from FileSet.mem_insert hnewa,
      List.mem_cons]
    tauto

end LevelState

/-! ### What `SaveTo` makes of a level -/

namespace Builder

theorem foldl_maybeAddFile (s : LevelState α) (fs files : List (FileMetaData α)) :
    fs.foldl (maybeAddFile s) files = files ++ fs.filter fun f => decide (f.number ∉ s.deletedFiles) := by
  induction fs generalizing files with
  | nil => simp
  | cons f fs ih =>
    rw [List.foldl_cons, ih, maybeAddFile]
    by_cases hf : f.number ∈ s.deletedFiles
    · simp [hf]
    · simp [hf]

/-- Base files go first where they compare equal. -/
def baseFirst (g f : FileMetaData α) : Bool := !decide (bySmallestKey f g)

@[simp] theorem baseFirst_iff {f g : FileMetaData α} : baseFirst g f = true ↔ ¬ bySmallestKey f g := by
  simp [baseFirst]

/-- The files of the base before the next added one. -/
theorem merge_cons (f : FileMetaData α) (added baseIter : List (FileMetaData α)) :
    List.merge baseIter (f :: added) baseFirst =
      baseIter.take (upperBound baseIter f) ++
        f :: List.merge (baseIter.drop (upperBound baseIter f)) added baseFirst := by
  induction baseIter with
  | nil => simp [upperBound]
  | cons g baseIter ih =>
    by_cases hfg : bySmallestKey f g
    · have hu : upperBound (g :: baseIter) f = 0 := by simp [upperBound, List.findIdx_cons, hfg]
      have hg : baseFirst g f = false := by simp [baseFirst, hfg]
      rw [hu, List.merge, if_neg (by simp [hg]), List.take_zero, List.drop_zero, List.nil_append]
    · have hu : upperBound (g :: baseIter) f = upperBound baseIter f + 1 := by
        simp [upperBound, List.findIdx_cons, hfg]
      rw [hu, List.merge, if_pos (baseFirst_iff.2 hfg), ih, List.take_succ_cons, List.drop_succ_cons,
        List.cons_append]

theorem saveLoop_eq (s : LevelState α) (added baseIter files : List (FileMetaData α)) :
    saveLoop s added baseIter files =
      files ++ (List.merge baseIter added baseFirst).filter fun f => decide (f.number ∉ s.deletedFiles) := by
  induction added generalizing baseIter files with
  | nil => rw [saveLoop, foldl_maybeAddFile, List.merge_right]
  | cons f added ih =>
    have hone : ∀ files, maybeAddFile s files f = files ++ [f].filter fun f => decide (f.number ∉ s.deletedFiles) :=
      foldl_maybeAddFile s [f]
    simp only [saveLoop]
    rw [ih, hone, foldl_maybeAddFile, merge_cons, List.filter_append, List.append_assoc, List.append_assoc,
      ← List.filter_append, List.singleton_append]

/-- **`SaveTo`** at one level: the base files and the added ones in order, without the deleted ones. -/
theorem saveFiles_eq (s : LevelState α) (baseFiles : List (FileMetaData α)) :
    saveFiles s baseFiles = (List.merge baseFiles s.addedFiles baseFirst).filter
      fun f => decide (f.number ∉ s.deletedFiles) := by
  rw [saveFiles, saveLoop_eq, List.nil_append]

theorem mem_saveFiles {s : LevelState α} {baseFiles : List (FileMetaData α)} {f : FileMetaData α} :
    f ∈ saveFiles s baseFiles ↔ (f ∈ baseFiles ∨ f ∈ s.addedFiles) ∧ f.number ∉ s.deletedFiles := by
  rw [saveFiles_eq, List.mem_filter, List.mem_merge, decide_eq_true_eq]

/-- The level is in order again, if what is added bears new numbers. -/
theorem saveFiles_filed {s : LevelState α} {baseFiles : List (FileMetaData α)} (hb : Filed baseFiles)
    (ha : Filed s.addedFiles)
    (hnew : ∀ g ∈ s.addedFiles, ∀ f ∈ baseFiles, f.number = g.number → f.number ∈ s.deletedFiles) :
    Filed (saveFiles s baseFiles) := by
  rw [saveFiles_eq]
  have hle : ∀ {files : List (FileMetaData α)}, Filed files → files.Pairwise fun f g => baseFirst f g = true :=
    fun h => h.imp fun {_ _} h => baseFirst_iff.2 (bySmallestKey_asymm h.1)
  have hmerge : (List.merge baseFiles s.addedFiles baseFirst).Pairwise fun f g => baseFirst f g = true := by
    refine List.pairwise_merge ?_ ?_ _ _ (hle hb) (hle ha)
    · intro f g h hfg hgh
      rw [baseFirst_iff] at hfg hgh ⊢
      intro hhf
      by_cases hn : g.number = f.number
      · -- `g` and `f` may tie with each other only
        rcases lt_trichotomy f.smallest g.smallest with hlt | heq | hlt
        · exact hgh (bySmallestKey_trans hhf (Or.inl hlt))
        · refine hgh ?_
          rcases hhf with hhf | ⟨hhf, hn'⟩
          · exact Or.inl (heq ▸ hhf)
          · exact Or.inr ⟨hhf.trans heq, hn ▸ hn'⟩
        · exact hfg (Or.inl hlt)
      · exact hgh (bySmallestKey_trans hhf ((bySmallestKey_total hn).resolve_left hfg))
    · intro f g
      rw [Bool.or_eq_true, baseFirst_iff, baseFirst_iff]
      by_contra h
      push Not at h
      exact bySmallestKey_asymm h.1 h.2
  -- no number is left twice
  have hnumbers : ((List.merge baseFiles s.addedFiles baseFirst).filter
      fun f => decide (f.number ∉ s.deletedFiles)).Pairwise fun f g => f.number ≠ g.number := by
    have hperm : (List.merge baseFiles s.addedFiles baseFirst).Perm (baseFiles ++ s.addedFiles) :=
      List.merge_perm_append baseFirst
    have hperm := hperm.filter
      fun f => decide (f.number ∉ s.deletedFiles)
    refine (hperm.pairwise_iff fun {f g} (h : f.number ≠ g.number) => h.symm).2 ?_
    rw [List.filter_append, List.pairwise_append]
    refine ⟨(hb.imp fun h => h.2).filter _, (ha.imp fun h => h.2).filter _, fun f hf g hg hn => ?_⟩
    obtain ⟨hf, hkept⟩ := List.mem_filter.1 hf
    rw [decide_eq_true_eq] at hkept
    exact hkept (hnew g (List.mem_filter.1 hg).1 f hf hn)
  refine (hmerge.filter _).imp₂ (fun {f g} hle hn => ⟨?_, hn⟩) hnumbers
  exact (bySmallestKey_total hn).resolve_right (baseFirst_iff.1 hle)

end Builder

end LevelDbSurf
