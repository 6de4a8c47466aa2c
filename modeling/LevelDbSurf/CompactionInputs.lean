import LevelDbSurf.Compaction
import LevelDbSurf.VersionIterators
import LevelDbSurf.OneBlockTable

/-!
# What a compaction reads

Every list of inputs holds files of its level, none twice, and those of a level from 1 on stay in
order when boundary files are appended (`InputsOf.addBoundary`). So the input iterator, which has no
bounds and prunes nothing, is a cursor over all entries of all inputs.
-/

namespace LevelDbSurf

open Cursors

variable {α : Type} [LinearOrder α]

/-! ## Lists of inputs -/

theorem scanFiles_done {level : Nat} {userBegin userEnd : Option α} {files inputs r : List (FileMetaData α)}
    (h : scanFiles level userBegin userEnd files inputs = .done r) :
    ∃ kept, r = inputs ++ kept ∧ kept.Sublist files := by
  induction files generalizing inputs with
  | nil =>
    cases h
    exact ⟨[], (List.append_nil _).symm, List.Sublist.refl _⟩
  | cons f files ih =>
    rw [scanFiles] at h
    have hskip : ∀ h : scanFiles level userBegin userEnd files inputs = .done r,
        ∃ kept, r = inputs ++ kept ∧ kept.Sublist (f :: files) := by
      intro h
      obtain ⟨kept, hr, hs⟩ := ih h
      exact ⟨kept, hr, hs.cons f⟩
    split at h
    · exact hskip h
    · split at h
      · exact hskip h
      · split at h
        · cases h
        · split at h
          · cases h
          · obtain ⟨kept, hr, hs⟩ := ih h
            refine ⟨f :: kept, ?_, hs.cons_cons f⟩
            rw [hr, List.append_assoc, List.singleton_append]

/-- `GetOverlappingInputs` selects files of the level, in order. -/
theorem overlappingInputsLoop_sublist (level : Nat) (files : List (FileMetaData α)) (userBegin userEnd : Option α) :
    (overlappingInputsLoop level files userBegin userEnd).Sublist files := by
  fun_induction overlappingInputsLoop level files userBegin userEnd with
  | case1 userBegin userEnd inputs h =>
    obtain ⟨kept, rfl, hs⟩ := scanFiles_done h
    exact hs
  | case2 userBegin userEnd b e h ih => exact ih

theorem limitInputs_initial (limit total : UInt64) (files : List (FileMetaData α)) :
    VersionSet.limitInputs limit total files <+: files := by
  induction files generalizing total with
  | nil => exact List.prefix_rfl
  | cons f files ih =>
    rw [VersionSet.limitInputs]
    split
    · exact ⟨files, rfl⟩
    · exact List.prefix_cons_inj f |>.2 (ih _)

/-- The largest key that `FindLargestKey` finds. -/
theorem findLargestKey_some {files : List (FileMetaData α)} {k : InternalKey α}
    (h : findLargestKey files = some k) : ∀ f ∈ files, f.largest ≤ k := by
  cases files with
  | nil => cases h
  | cons a files =>
    rw [findLargestKey, Option.some.injEq] at h
    subst h
    -- the loop's key only grows
    have hloop : ∀ (files : List (FileMetaData α)) (k : InternalKey α),
        k ≤ files.foldl (fun largestKey f => if f.largest > largestKey then f.largest else largestKey) k ∧
          ∀ f ∈ files, f.largest ≤
            files.foldl (fun largestKey f => if f.largest > largestKey then f.largest else largestKey) k := by
      intro files
      induction files with
      | nil => exact fun k => ⟨le_refl k, by rintro f ⟨⟩⟩
      | cons b files ih =>
        intro k
        obtain ⟨hk, hfiles⟩ := ih (if b.largest > k then b.largest else k)
        have hboth : k ≤ (if b.largest > k then b.largest else k) ∧
            b.largest ≤ (if b.largest > k then b.largest else k) := by
          split
          · rename_i hlt
            exact ⟨hlt.le, le_refl _⟩
          · rename_i hle
            exact ⟨le_refl k, not_lt.1 hle⟩
        refine ⟨hboth.1.trans hk, fun f hf => ?_⟩
        rcases List.mem_cons.1 hf with rfl | hf
        · exact hboth.2.trans hk
        · exact hfiles f hf
    obtain ⟨ha, hfiles⟩ := hloop files a.largest
    intro f hf
    rcases List.mem_cons.1 hf with rfl | hf
    · exact ha
    · exact hfiles f hf

/-- Inputs taken from these files of a level: no file twice, and in order if the level is. -/
structure InputsOf (level : Nat) (levelFiles inputs : List (FileMetaData α)) : Prop where
  subperm : inputs.Subperm levelFiles
  sorted : 1 ≤ level → LevelSorted inputs

namespace InputsOf

variable {level : Nat} {levelFiles inputs : List (FileMetaData α)}

theorem of_sublist (hs : 1 ≤ level → LevelSorted levelFiles) (h : inputs.Sublist levelFiles) :
    InputsOf level levelFiles inputs :=
  ⟨h.subperm, fun hl => (hs hl).sublist h⟩

/-- A boundary file goes to the end: it starts after all inputs end. -/
theorem push (h : InputsOf level levelFiles inputs) {k : InternalKey α} (hk : ∀ f ∈ inputs, f.largest ≤ k)
    {b : FileMetaData α} (hb : b ∈ levelFiles) (hlt : k < b.smallest) :
    InputsOf level levelFiles (inputs ++ [b]) where
  subperm := by
    have hnot : b ∉ inputs := fun hmem =>
      absurd (b.ordered.trans (hk b hmem)) (not_le.2 hlt)
    exact (List.perm_append_singleton b inputs).subperm_right.2
      (List.cons_subperm_of_not_mem_of_mem hnot hb h.subperm)
  sorted hl := by
    refine List.pairwise_append.2 ⟨h.sorted hl, List.pairwise_singleton _ _, fun f hf g hg => ?_⟩
    rw [List.mem_singleton.1 hg]
    exact lt_of_le_of_lt (hk f hf) hlt

theorem addBoundaryLoop (h : InputsOf level levelFiles inputs) {k : InternalKey α}
    (hk : ∀ f ∈ inputs, f.largest ≤ k) :
    InputsOf level levelFiles (addBoundaryLoop levelFiles k inputs) := by
  fun_induction LevelDbSurf.addBoundaryLoop levelFiles k inputs with
  | case1 k inputs b hfound ih =>
    obtain ⟨hb, hlt, -⟩ := findSmallestBoundaryFile_some hfound
    refine ih (h.push hk hb hlt) fun f hf => ?_
    rcases List.mem_append.1 hf with hf | hf
    · exact (hk f hf).trans (hlt.le.trans b.ordered)
    · rw [List.mem_singleton.1 hf]
  | case2 k inputs hfound => exact h

/-- **`AddBoundaryInputs`** keeps inputs what they are. -/
theorem addBoundary (h : InputsOf level levelFiles inputs) :
    InputsOf level levelFiles (addBoundaryInputs levelFiles inputs) := by
  unfold addBoundaryInputs
  cases hk : findLargestKey inputs with
  | none => exact h
  | some k => exact h.addBoundaryLoop (findLargestKey_some hk)

theorem mem (h : InputsOf level levelFiles inputs) {f : FileMetaData α} (hf : f ∈ inputs) : f ∈ levelFiles :=
  h.subperm.subset hf

end InputsOf

/-! ## The inputs of a compaction -/

theorem Version.getOverlappingInputs_some {v : Version α} {level : Nat} {begin_ end_ : Option (InternalKey α)}
    {inputs : List (FileMetaData α)} (h : v.getOverlappingInputs level begin_ end_ = some inputs) :
    inputs.Sublist (v.files level) := by
  unfold Version.getOverlappingInputs at h
  split at h
  · cases h
    exact overlappingInputsLoop_sublist _ _ _ _
  · cases h

/-- Both input lists hold files of the version. -/
structure InputsOfVersion (v : Version α) (level : Nat) (inputs0 inputs1 : List (FileMetaData α)) : Prop where
  inputs0 : InputsOf level (v.files level) inputs0
  inputs1 : InputsOf (level + 1) (v.files (level + 1)) inputs1

namespace VersionSet

variable {vset : VersionSet α}

/-- The inputs `growInputs` takes instead: the files the whole range overlaps, more than there were, and as
many of the lower level as before. -/
structure Grown (vset : VersionSet α) (level : Nat) (i i' : OtherInputs α)
    (overlapping0 overlapping1 : List (FileMetaData α)) (newStart newLimit : InternalKey α) : Prop where
  selected0 : vset.current.getOverlappingInputs level (some i.allStart) (some i.allLimit) = some overlapping0
  inputs0 : i'.inputs0 = addBoundaryInputs (vset.current.files level) overlapping0
  longer : i.inputs0.length < i'.inputs0.length
  range : getRange i'.inputs0 = some (newStart, newLimit)
  selected1 : vset.current.getOverlappingInputs (level + 1) (some newStart) (some newLimit) = some overlapping1
  inputs1 : i'.inputs1 = addBoundaryInputs (vset.current.files (level + 1)) overlapping1
  length : i'.inputs1.length = i.inputs1.length

/-- What `growInputs` can do. -/
theorem growInputs_cases {level : Nat} {i i' : OtherInputs α} (h : vset.growInputs level i = some i') :
    i' = i ∨ ∃ overlapping0 overlapping1 newStart newLimit,
      Grown vset level i i' overlapping0 overlapping1 newStart newLimit := by
  unfold growInputs at h
  simp only [Option.bind_eq_bind, Option.pure_def] at h
  split at h
  · exact Or.inl (Option.some.inj h).symm
  · obtain ⟨overlapping0, hoverlap0, h⟩ := Option.bind_eq_some_iff.1 h
    split at h
    · rename_i hsize
      obtain ⟨⟨newStart, newLimit⟩, hrange, h⟩ := Option.bind_eq_some_iff.1 h
      obtain ⟨overlapping1, hoverlap1, h⟩ := Option.bind_eq_some_iff.1 h
      split at h
      · rename_i hlength
        obtain ⟨all, -, h⟩ := Option.bind_eq_some_iff.1 h
        cases h
        exact Or.inr ⟨overlapping0, overlapping1, newStart, newLimit, hoverlap0, rfl, hsize.1, hrange, hoverlap1,
          rfl, hlength⟩
      · exact Or.inl (Option.some.inj h).symm
    · exact Or.inl (Option.some.inj h).symm

/-- How `PickCompaction` comes to a compaction. -/
theorem pickCompaction_cases {c : Compaction α} {vset' : VersionSet α}
    (h : vset.pickCompaction = some (some (c, vset'))) :
    ∃ level f inputs0, vset.compactionStart = some (some (level, f)) ∧ vset.pickedInputs level f = some inputs0 ∧
      vset.setupOtherInputs { level, inputs0 } = some (c, vset') := by
  unfold pickCompaction at h
  simp only [Option.bind_eq_bind, Option.pure_def] at h
  obtain ⟨start, hstart, h⟩ := Option.bind_eq_some_iff.1 h
  cases start with
  | none => cases h
  | some start =>
    obtain ⟨level, f⟩ := start
    obtain ⟨inputs0, hpicked, h⟩ := Option.bind_eq_some_iff.1 h
    obtain ⟨r, hr, h⟩ := Option.bind_eq_some_iff.1 h
    cases h
    exact ⟨level, f, inputs0, hstart, hpicked, hr⟩

/-- How `CompactRange` comes to a compaction. -/
theorem compactRange_cases {level : Nat} {begin_ end_ : Option (InternalKey α)} {c : Compaction α}
    {vset' : VersionSet α} (h : vset.compactRange level begin_ end_ = some (some (c, vset'))) :
    ∃ inputs, vset.current.getOverlappingInputs level begin_ end_ = some inputs ∧ inputs ≠ [] ∧
      vset.setupOtherInputs { level, inputs0 :=
        if level > 0 then limitInputs (maxFileSizeForLevel vset.options level) 0 inputs else inputs } =
          some (c, vset') := by
  unfold compactRange at h
  simp only [Option.bind_eq_bind, Option.pure_def] at h
  obtain ⟨inputs, hoverlap, h⟩ := Option.bind_eq_some_iff.1 h
  split at h
  · cases h
  · rename_i hempty
    obtain ⟨r, hr, h⟩ := Option.bind_eq_some_iff.1 h
    cases h
    exact ⟨inputs, hoverlap, by simpa using hempty, hr⟩

/-- What `GetOverlappingInputs` selects, with boundary files. -/
theorem overlapping_addBoundary (hs : vset.current.SortedLevels) {level : Nat}
    {begin_ end_ : Option (InternalKey α)} {inputs : List (FileMetaData α)}
    (h : vset.current.getOverlappingInputs level begin_ end_ = some inputs) :
    InputsOf level (vset.current.files level) (addBoundaryInputs (vset.current.files level) inputs) :=
  (InputsOf.of_sublist (hs level) (Version.getOverlappingInputs_some h)).addBoundary

theorem firstInputs_some (hs : vset.current.SortedLevels) {c : Compaction α} {i : OtherInputs α}
    (h : vset.firstInputs c = some i)
    (h0 : InputsOf c.level (vset.current.files c.level) c.inputs0) :
    InputsOfVersion vset.current c.level i.inputs0 i.inputs1 := by
  simp only [firstInputs, Option.bind_eq_bind, Option.bind_eq_some_iff] at h
  obtain ⟨range, -, inputs1, hoverlap, all, -, hi⟩ := h
  cases hi
  exact ⟨h0.addBoundary, overlapping_addBoundary hs hoverlap⟩

/-- Growing exchanges both lists for lists of the same kind. -/
theorem growInputs_some (hs : vset.current.SortedLevels) {level : Nat} {i i' : OtherInputs α}
    (h : vset.growInputs level i = some i')
    (hi : InputsOfVersion vset.current level i.inputs0 i.inputs1) :
    InputsOfVersion vset.current level i'.inputs0 i'.inputs1 := by
  obtain rfl | ⟨overlapping0, overlapping1, newStart, newLimit, hgrown⟩ := growInputs_cases h
  · exact hi
  · rw [hgrown.inputs0, hgrown.inputs1]
    exact ⟨overlapping_addBoundary hs hgrown.selected0, overlapping_addBoundary hs hgrown.selected1⟩

/-- **`SetupOtherInputs`** leaves inputs of both levels, and touches neither options nor tables. -/
theorem setupOtherInputs_some (hs : vset.current.SortedLevels) {c c' : Compaction α} {vset' : VersionSet α}
    (h : vset.setupOtherInputs c = some (c', vset'))
    (h0 : InputsOf c.level (vset.current.files c.level) c.inputs0) :
    InputsOfVersion vset.current c'.level c'.inputs0 c'.inputs1 ∧ vset'.tableCache = vset.tableCache ∧
      vset'.options = vset.options := by
  simp only [setupOtherInputs, Option.bind_eq_bind, Option.bind_eq_some_iff] at h
  obtain ⟨i, hfirst, i', hgrow, grandparents, -, h⟩ := h
  have hinputs := growInputs_some hs hgrow (firstInputs_some hs hfirst h0)
  cases h
  exact ⟨hinputs, rfl, rfl⟩

/-- The file marked for a seek compaction belongs to its level. -/
def SeekFileKnown (v : Version α) : Prop :=
  ∀ f, v.fileToCompact = some f → f ∈ v.files v.fileToCompactLevel

theorem firstFileAfter_mem {level : Nat} {f : FileMetaData α} (h : vset.firstFileAfter level = some f) :
    f ∈ vset.current.files level := by
  unfold firstFileAfter at h
  split at h
  · rename_i g hg
    cases h
    exact List.mem_of_find?_eq_some hg
  · exact List.mem_of_getElem? h

theorem compactionStart_mem (hseek : SeekFileKnown vset.current) {level : Nat} {f : FileMetaData α}
    (h : vset.compactionStart = some (some (level, f))) : f ∈ vset.current.files level := by
  unfold compactionStart at h
  split at h
  · simp only [Option.bind_eq_bind, Option.bind_eq_some_iff] at h
    obtain ⟨-, -, g, hg, h⟩ := h
    cases h
    exact firstFileAfter_mem hg
  · cases hfile : vset.current.fileToCompact with
    | none =>
      rw [hfile] at h
      cases h
    | some g =>
      rw [hfile] at h
      cases h
      exact hseek f hfile

theorem pickedInputs_some (hs : vset.current.SortedLevels) {level : Nat} {f : FileMetaData α}
    (hf : f ∈ vset.current.files level) {inputs0 : List (FileMetaData α)}
    (h : vset.pickedInputs level f = some inputs0) : InputsOf level (vset.current.files level) inputs0 := by
  unfold pickedInputs at h
  split at h
  · rename_i hlevel
    subst hlevel
    simp only [Option.bind_eq_bind, Option.bind_eq_some_iff] at h
    obtain ⟨range, -, overlapping, hoverlap, -, -, h⟩ := h
    cases h
    exact InputsOf.of_sublist (hs 0) (Version.getOverlappingInputs_some hoverlap)
  · cases h
    exact InputsOf.of_sublist (hs level) (List.singleton_sublist.2 hf)

/-- **`PickCompaction`** sets up inputs of the current version. -/
theorem pickCompaction_some (hs : vset.current.SortedLevels) (hseek : SeekFileKnown vset.current)
    {c : Compaction α} {vset' : VersionSet α} (h : vset.pickCompaction = some (some (c, vset'))) :
    InputsOfVersion vset.current c.level c.inputs0 c.inputs1 ∧ vset'.tableCache = vset.tableCache ∧
      vset'.options = vset.options := by
  obtain ⟨level, f, inputs0, hstart, hpicked, hsetup⟩ := pickCompaction_cases h
  exact setupOtherInputs_some hs hsetup (pickedInputs_some hs (compactionStart_mem hseek hstart) hpicked)

/-- **`CompactRange`** sets up inputs of the current version. -/
theorem compactRange_some (hs : vset.current.SortedLevels) {level : Nat}
    {begin_ end_ : Option (InternalKey α)} {c : Compaction α} {vset' : VersionSet α}
    (h : vset.compactRange level begin_ end_ = some (some (c, vset'))) :
    InputsOfVersion vset.current c.level c.inputs0 c.inputs1 ∧ vset'.tableCache = vset.tableCache ∧
      vset'.options = vset.options := by
  obtain ⟨inputs, hoverlap, -, hsetup⟩ := compactRange_cases h
  have hsub := Version.getOverlappingInputs_some hoverlap
  refine setupOtherInputs_some hs hsetup (InputsOf.of_sublist (hs level) ?_)
  dsimp only
  split
  · exact (limitInputs_initial _ _ _).sublist.trans hsub
  · exact hsub

/-! ## The input iterator -/

section Iterators
variable [Slice α] [Coding] [TableFormat]

/-- The entries of each iterator over the inputs of one level. -/
def levelLists (cache : TableCache α) (level : Nat) (files : List (FileMetaData α)) :
    List (List (InternalKey α × Bytes)) :=
  if files.isEmpty then []
  else if level = 0 then files.map (fileEntries cache)
  else [files.flatMap (fileEntries cache)]

/-- The entries of each child of the input iterator. -/
def inputLists (cache : TableCache α) (c : Compaction α) : List (List (InternalKey α × Bytes)) :=
  [0, 1].flatMap fun which => levelLists cache (c.level + which) (c.inputs which)

omit [Slice α] in
theorem levelLists_flatten (cache : TableCache α) (level : Nat) (files : List (FileMetaData α)) :
    (levelLists cache level files).flatten = files.flatMap (fileEntries cache) := by
  unfold levelLists
  split
  · rename_i hempty
    rw [List.isEmpty_iff.1 hempty]
    rfl
  · split
    · rfl
    · exact List.flatten_singleton

/-- **The iterators of one level** are cursors over whole files, whatever the tables' filters answer. -/
theorem levelIterators_behaviour {level : Nat} {levelFiles files : List (FileMetaData α)}
    (hr : ∀ f ∈ levelFiles, ∃ t, Serves vset.tableCache f t) (h : InputsOf level levelFiles files) :
    (vset.levelIterators level files).map behaviour = (levelLists vset.tableCache level files).map cursor := by
  have hserves : ∀ f ∈ files, ∃ t, Serves vset.tableCache f t := fun f hf => hr f (h.mem hf)
  unfold levelIterators levelLists
  split
  · rfl
  · split
    · rw [List.map_map, List.map_map]
      refine List.map_congr_left fun f hf => ?_
      obtain ⟨t, ht⟩ := hserves f hf
      have htracks := fileIterator_tracks ht vset.inputOptions Slice.nil Slice.nil none
      rw [fileKept_nil] at htracks
      exact (bisimulates_inl.tracks rfl htracks).behaviour_eq
    · rename_i hlevel
      have htracks := newLevelIterator_tracks (h.sorted (Nat.pos_of_ne_zero hlevel)) hserves vset.inputOptions
        Slice.nil Slice.nil
      rw [fileKept_nil] at htracks
      rw [List.map_singleton, List.map_singleton]
      exact congrArg (fun b => [b]) (bisimulates_inr.tracks rfl htracks).behaviour_eq

theorem levelLists_sorted {cache : TableCache α} {level : Nat} {levelFiles files : List (FileMetaData α)}
    (hr : ∀ f ∈ levelFiles, ∃ t, Serves cache f t) (h : InputsOf level levelFiles files) :
    ∀ L ∈ levelLists cache level files, Sorted L := by
  intro L hL
  unfold levelLists at hL
  split at hL
  · cases hL
  · split at hL
    · obtain ⟨f, hf, rfl⟩ := List.mem_map.1 hL
      obtain ⟨t, ht⟩ := hr f (h.mem hf)
      rw [← fileKept_nil]
      exact fileKept_sorted ht _ _
    · rename_i hlevel
      rw [List.mem_singleton.1 hL]
      rw [← fileKept_nil]
      exact levelKept_sorted (h.sorted (Nat.pos_of_ne_zero hlevel)) (fun f hf => hr f (h.mem hf)) _ _

theorem levelIterators_length (vset : VersionSet α) (level : Nat) (files : List (FileMetaData α)) :
    (vset.levelIterators level files).length ≤ if level = 0 then files.length else 1 := by
  unfold levelIterators
  split
  · exact Nat.zero_le _
  · split
    · rw [List.length_map]
    · exact le_refl 1

omit [Slice α] [Coding] [TableFormat] in
/-- The input lists, by number. -/
theorem inputs_of {v : Version α} {c : Compaction α}
    (h : InputsOfVersion v c.level c.inputs0 c.inputs1) {which : Nat} (hw : which ∈ [0, 1]) :
    InputsOf (c.level + which) (v.files (c.level + which)) (c.inputs which) := by
  rcases List.mem_cons.1 hw with rfl | hw
  · exact h.inputs0
  · rw [List.mem_singleton.1 hw]
    exact h.inputs1

theorem inputIterators_behaviour {v : Version α} (hr : v.Readable vset.tableCache) {c : Compaction α}
    (h : InputsOfVersion v c.level c.inputs0 c.inputs1) :
    (vset.inputIterators c).map behaviour = (inputLists vset.tableCache c).map cursor := by
  unfold inputIterators inputLists
  rw [List.map_flatMap, List.map_flatMap]
  exact List.flatMap_congr fun which hw => levelIterators_behaviour (hr _) (inputs_of h hw)

theorem inputLists_sorted {v : Version α} {cache : TableCache α} (hr : v.Readable cache) {c : Compaction α}
    (h : InputsOfVersion v c.level c.inputs0 c.inputs1) : ∀ L ∈ inputLists cache c, Sorted L := by
  intro L hL
  obtain ⟨which, hw, hL⟩ := List.mem_flatMap.1 hL
  exact levelLists_sorted (hr _) (inputs_of h hw) L hL

omit [Slice α] in
/-- The children have all entries of all inputs. -/
theorem inputLists_flatten (cache : TableCache α) (c : Compaction α) :
    (inputLists cache c).flatten = (c.inputs0 ++ c.inputs1).flatMap (fileEntries cache) := by
  unfold inputLists
  rw [List.flatMap_cons, List.flatMap_singleton, List.flatten_append, levelLists_flatten, levelLists_flatten,
    List.flatMap_append]
  rfl

/-- There is room for all children. -/
theorem inputIterators_length (vset : VersionSet α) (c : Compaction α) :
    (vset.inputIterators c).length ≤ space c := by
  have h0 := vset.levelIterators_length (c.level + 0) (c.inputs 0)
  have h1 := vset.levelIterators_length (c.level + 1) (c.inputs 1)
  rw [if_neg (Nat.succ_ne_zero _)] at h1
  rw [Nat.add_zero] at h0
  unfold inputIterators space
  rw [List.flatMap_cons, List.flatMap_singleton, List.length_append, Nat.add_zero]
  by_cases hlevel : c.level = 0
  · rw [if_pos hlevel] at h0 ⊢
    omega
  · rw [if_neg hlevel] at h0 ⊢
    omega

end Iterators

end VersionSet

/-- The input iterator of a compaction that has been set up is a cursor over the merge of its inputs. -/
theorem VersionSet.makeInputIterator_eq [Slice α] [Coding] [TableFormat] (M : Merger (InternalKey α) Bytes)
    {vset vset' : VersionSet α} (hs : vset.current.SortedLevels) (hr : vset.current.Readable vset.tableCache)
    (hseek : VersionSet.SeekFileKnown vset.current) {c : Compaction α}
    (hc : vset.pickCompaction = some (some (c, vset')) ∨
      ∃ level begin_ end_, vset.compactRange level begin_ end_ = some (some (c, vset'))) :
    InputsOfVersion vset.current c.level c.inputs0 c.inputs1 ∧
      vset'.makeInputIterator M c = cursor (mergeAll (inputLists vset.tableCache c)) := by
  obtain ⟨hinputs, hcache, -⟩ : InputsOfVersion vset.current c.level c.inputs0 c.inputs1 ∧
      vset'.tableCache = vset.tableCache ∧ vset'.options = vset.options := by
    rcases hc with hc | ⟨level, begin_, end_, hc⟩
    · exact VersionSet.pickCompaction_some hs hseek hc
    · exact VersionSet.compactRange_some hs hc
  refine ⟨hinputs, ?_⟩
  rw [VersionSet.makeInputIterator,
    VersionSet.inputIterators_behaviour (v := vset.current) (by rw [hcache]; exact hr) hinputs, hcache,
    M.merge_cursors _ (VersionSet.inputLists_sorted hr hinputs)]

/-- **A compaction reads everything.** For every compaction that `PickCompaction` or `CompactRange` sets
up, whatever filters the tables have and answer, a walk of the input iterator from the first entry on
shows all entries of all input files, sorted, and nothing else. The inputs are files of the two levels,
none twice, and the child iterators fit the space allocated for them. -/
theorem makeInputIterator_reads_all [Slice α] [Coding] [TableFormat] (M : Merger (InternalKey α) Bytes)
    (vset : VersionSet α) (hs : vset.current.SortedLevels) (hr : vset.current.Readable vset.tableCache)
    (hseek : VersionSet.SeekFileKnown vset.current) (c : Compaction α) (vset' : VersionSet α)
    (hc : vset.pickCompaction = some (some (c, vset')) ∨
      ∃ level begin_ end_, vset.compactRange level begin_ end_ = some (some (c, vset'))) :
    (∃ L, Yields (vset'.makeInputIterator M c) [.seekToFirst] .next L ∧ Sorted L ∧
      L.Perm ((c.inputs0 ++ c.inputs1).flatMap (fileEntries vset.tableCache))) ∧
    c.inputs0.Subperm (vset.current.files c.level) ∧
    c.inputs1.Subperm (vset.current.files (c.level + 1)) ∧
    (vset'.inputIterators c).length ≤ VersionSet.space c := by
  obtain ⟨hinputs, hiterator⟩ := VersionSet.makeInputIterator_eq M hs hr hseek hc
  refine ⟨⟨mergeAll (VersionSet.inputLists vset.tableCache c), ?_, mergeAll_sorted _, ?_⟩,
    hinputs.inputs0.subperm, hinputs.inputs1.subperm, VersionSet.inputIterators_length vset' c⟩
  · rw [hiterator]
    exact cursor_yields_next _ _
  · rw [← VersionSet.inputLists_flatten]
    exact mergeAll_perm _

/-! ### A manual compaction that a boundary file joins -/

theorem overlappingInputsLoop_of_done {level : Nat} {files inputs : List (FileMetaData α)}
    {userBegin userEnd : Option α} (h : scanFiles level userBegin userEnd files [] = .done inputs) :
    overlappingInputsLoop level files userBegin userEnd = inputs := by
  rw [overlappingInputsLoop]
  split
  · rename_i inputs' h'
    cases h.symm.trans h'
    rfl
  · rename_i b e h'
    cases h.symm.trans h'

theorem addBoundaryLoop_of_some {levelFiles files : List (FileMetaData α)} {k : InternalKey α}
    {b : FileMetaData α} (h : findSmallestBoundaryFile levelFiles k = some b) :
    addBoundaryLoop levelFiles k files = addBoundaryLoop levelFiles b.largest (files ++ [b]) := by
  rw [addBoundaryLoop]
  split
  · rename_i b' h'
    cases h.symm.trans h'
    rfl
  · rename_i h'
    cases h.symm.trans h'

theorem addBoundaryLoop_of_none {levelFiles files : List (FileMetaData α)} {k : InternalKey α}
    (h : findSmallestBoundaryFile levelFiles k = none) : addBoundaryLoop levelFiles k files = files := by
  rw [addBoundaryLoop]
  split
  · rename_i b' h'
    cases h.symm.trans h'
  · rfl

namespace SampleCompaction

/-- `a` at sequences 3 and 1, in two files of level 1. -/
def newA : InternalKey Bytes × Bytes := (⟨[97], packSequenceAndType 3 .value⟩, [1])
def oldA : InternalKey Bytes × Bytes := (⟨[97], packSequenceAndType 1 .value⟩, [2])

def file1 : FileMetaData Bytes := ⟨7, 500, newA.1, newA.1, le_refl _⟩
def file2 : FileMetaData Bytes := ⟨8, 500, oldA.1, oldA.1, le_refl _⟩

/-- At most 100 bytes for a file, so that `CompactRange` stops after the first one. -/
def options : Options := { maxFileSize := 100 }

def files : UInt64 → Option (RandomAccessFile Bytes)
  | 7 => some (OneBlock.file newA.1 [newA] [] [])
  | 8 => some (OneBlock.file oldA.1 [oldA] [] [])
  | _ => none

def vset : VersionSet Bytes where
  options
  tableCache := OneBlock.cache options files
  current :=
    { files := fun
        | 1 => [file1, file2]
        | _ => [] }

theorem sortedLevels : vset.current.SortedLevels := by
  intro level h
  match level with
  | 1 => exact List.pairwise_pair.2 (by decide)
  | _ + 2 => exact List.Pairwise.nil

theorem readable [Coding] :
    letI := smallHandles
    vset.current.Readable vset.tableCache := by
  let _ := smallHandles
  intro level f hf
  match level with
  | 0 => cases hf
  | 1 =>
    rcases List.mem_cons.1 hf with rfl | hf
    · refine ⟨OneBlock.table options newA.1 [newA] [] [], ?_⟩
      exact (OneBlock.serves rfl (by decide) (by decide) (by decide) (by decide)).1
    · obtain rfl := List.mem_singleton.1 hf
      refine ⟨OneBlock.table options oldA.1 [oldA] [] [], ?_⟩
      exact (OneBlock.serves rfl (by decide) (by decide) (by decide) (by decide)).1
  | _ + 2 => cases hf

theorem addBoundaryInputs_file1 : addBoundaryInputs [file1, file2] [file1] = [file1, file2] := by
  have hfirst : addBoundaryInputs [file1, file2] [file1] =
      addBoundaryLoop [file1, file2] file1.largest [file1] := rfl
  have hfound : findSmallestBoundaryFile [file1, file2] file1.largest = some file2 := by decide
  have hend : findSmallestBoundaryFile [file1, file2] file2.largest = none := by decide
  rw [hfirst, addBoundaryLoop_of_some hfound, addBoundaryLoop_of_none hend]
  rfl

theorem getOverlappingInputs_one : vset.current.getOverlappingInputs 1 none none = some [file1, file2] :=
  congrArg some (overlappingInputsLoop_of_done rfl)

/-- The other levels are empty. -/
theorem getOverlappingInputs_deeper {level : Nat} (h : level < kNumLevels) (hl : 1 < level)
    (begin_ end_ : Option (InternalKey Bytes)) : vset.current.getOverlappingInputs level begin_ end_ = some [] := by
  have hfiles : vset.current.files level = [] := by
    match level with
    | _ + 2 => rfl
  rw [Version.getOverlappingInputs, if_pos h, hfiles, overlappingInputsLoop_of_done rfl]

/-- What `SetupOtherInputs` makes of the first file. -/
def inputs : OtherInputs Bytes :=
  { inputs0 := [file1, file2], inputs1 := [], largest := oldA.1, allStart := newA.1, allLimit := oldA.1 }

theorem firstInputs_eq : vset.firstInputs { level := 1, inputs0 := [file1] } = some inputs := by
  have h0 : addBoundaryInputs (vset.current.files 1) [file1] = [file1, file2] := addBoundaryInputs_file1
  have h1 : addBoundaryInputs (vset.current.files (1 + 1)) [] = [] := rfl
  have hrange : getRange [file1, file2] = some (newA.1, oldA.1) := by decide
  have hrange2 : getRange2 [file1, file2] [] = some (newA.1, oldA.1) := by decide
  have hoverlap : ∀ begin_ end_, vset.current.getOverlappingInputs (1 + 1) begin_ end_ = some [] :=
    getOverlappingInputs_deeper (by decide) (by decide)
  unfold VersionSet.firstInputs
  simp only [h0, hrange, hoverlap, h1, hrange2, Option.bind_eq_bind, Option.bind_some]
  rfl

def compaction : Compaction Bytes :=
  { level := 1, inputs0 := [file1, file2], editPointers := [(1, oldA.1)] }

def moved : VersionSet Bytes :=
  { vset with compactPointer := fun l => if l = 1 then some oldA.1 else vset.compactPointer l }

/-- The first file is cut off, and the second one comes back as its boundary file. -/
theorem compactRange_eq : vset.compactRange 1 none none = some (some (compaction, moved)) := by
  have hlimit : VersionSet.limitInputs (maxFileSizeForLevel vset.options 1) 0 [file1, file2] = [file1] := by
    decide
  have hgrow : vset.growInputs 1 inputs = some inputs := rfl
  have hgrand : vset.grandparents { level := 1, inputs0 := [file1] } inputs = some [] := by
    rw [VersionSet.grandparents, if_pos (by decide), getOverlappingInputs_deeper (by decide) (by decide)]
  have hsetup : vset.setupOtherInputs { level := 1, inputs0 := [file1] } = some (compaction, moved) := by
    unfold VersionSet.setupOtherInputs
    simp only [firstInputs_eq, hgrow, hgrand, Option.bind_eq_bind, Option.bind_some]
    rfl
  unfold VersionSet.compactRange
  rw [getOverlappingInputs_one]
  show (vset.setupOtherInputs
    ⟨1, VersionSet.limitInputs (maxFileSizeForLevel vset.options 1) 0 [file1, file2], [], [], []⟩).bind
      (fun r => some (some r)) = _
  rw [hlimit, hsetup]
  rfl

end SampleCompaction

theorem makeInputIterator_reads_all_sample :
    letI := littleEndian
    letI := smallHandles
    ∃ L, Yields (SampleCompaction.moved.makeInputIterator (Merger.ofCursors _ _) SampleCompaction.compaction)
      [.seekToFirst] .next L ∧ Sorted L ∧
      L.Perm ((SampleCompaction.compaction.inputs0 ++ SampleCompaction.compaction.inputs1).flatMap
        (fileEntries SampleCompaction.vset.tableCache)) :=
  letI := littleEndian
  letI := smallHandles
  (makeInputIterator_reads_all (Merger.ofCursors _ _) SampleCompaction.vset SampleCompaction.sortedLevels
    SampleCompaction.readable (by rintro f ⟨⟩) SampleCompaction.compaction SampleCompaction.moved
    (Or.inr ⟨1, none, none, SampleCompaction.compactRange_eq⟩)).1

end LevelDbSurf
