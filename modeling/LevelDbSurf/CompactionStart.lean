import LevelDbSurf.OverlapClosure

/-!
# From the starting set of a compaction to its inputs (`version_set.cc:1275-1501`)

`VersionSet.Starts` is what `PickCompaction` and `CompactRange` hand to `SetupOtherInputs`, and
`VersionSet.SetsUp` what it makes of it. `SetupOtherInputs` compares only the lengths of the inputs of
the lower level before it exchanges them, but a wider range drags in no fewer files of that level, so
the same number of files are the same files (`growInputs_perm`).
-/

namespace LevelDbSurf

variable {α : Type} [LinearOrder α]

/-! ## Ranges -/

/-- Both ends of the range of `GetRange` are ends of files. -/
theorem getRange_mem {files : List (FileMetaData α)} {smallest largest : InternalKey α}
    (h : getRange files = some (smallest, largest)) :
    (∃ f ∈ files, f.smallest = smallest) ∧ ∃ f ∈ files, f.largest = largest := by
  cases files with
  | nil => cases h
  | cons a files =>
    rw [getRange, Option.some.injEq] at h
    -- each end of the loop's range is the old one, or an end of a file
    have hloop : ∀ (files : List (FileMetaData α)) (range : InternalKey α × InternalKey α),
        let r := files.foldl (fun (range : InternalKey α × InternalKey α) f =>
          (if f.smallest < range.1 then f.smallest else range.1,
            if f.largest > range.2 then f.largest else range.2)) range
        (r.1 = range.1 ∨ ∃ f ∈ files, f.smallest = r.1) ∧ (r.2 = range.2 ∨ ∃ f ∈ files, f.largest = r.2) := by
      intro files
      induction files with
      | nil => exact fun range => ⟨Or.inl rfl, Or.inl rfl⟩
      | cons b files ih =>
        intro range
        obtain ⟨hlow, hhigh⟩ := ih (if b.smallest < range.1 then b.smallest else range.1,
          if b.largest > range.2 then b.largest else range.2)
        constructor
        · rcases hlow with heq | ⟨f, hf, heq⟩
          · rcases ite_eq_or_eq (b.smallest < range.1) b.smallest range.1 with hif | hif
            · exact Or.inr ⟨b, List.mem_cons_self, (heq.trans hif).symm⟩
            · exact Or.inl (heq.trans hif)
          · exact Or.inr ⟨f, List.mem_cons_of_mem b hf, heq⟩
        · rcases hhigh with heq | ⟨f, hf, heq⟩
          · rcases ite_eq_or_eq (b.largest > range.2) b.largest range.2 with hif | hif
            · exact Or.inr ⟨b, List.mem_cons_self, (heq.trans hif).symm⟩
            · exact Or.inl (heq.trans hif)
          · exact Or.inr ⟨f, List.mem_cons_of_mem b hf, heq⟩
    obtain ⟨hlow, hhigh⟩ := hloop files (a.smallest, a.largest)
    rw [h] at hlow hhigh
    constructor
    · rcases hlow with rfl | ⟨f, hf, rfl⟩
      · exact ⟨a, List.mem_cons_self, rfl⟩
      · exact ⟨f, List.mem_cons_of_mem a hf, rfl⟩
    · rcases hhigh with rfl | ⟨f, hf, rfl⟩
      · exact ⟨a, List.mem_cons_self, rfl⟩
      · exact ⟨f, List.mem_cons_of_mem a hf, rfl⟩

theorem getRange_isSome {files : List (FileMetaData α)} (h : files ≠ []) :
    ∃ smallest largest, getRange files = some (smallest, largest) := by
  cases files with
  | nil => exact absurd rfl h
  | cons f files => exact ⟨_, _, rfl⟩

theorem Version.getOverlappingInputs_of_lt (v : Version α) {level : Nat} (h : level < kNumLevels)
    (begin_ end_ : Option (InternalKey α)) : v.getOverlappingInputs level begin_ end_ =
      some (overlappingInputsLoop level (v.files level) (begin_.map (·.userKey)) (end_.map (·.userKey))) :=
  if_pos h

/-- `GetOverlappingInputs` takes every file that overlaps the range, at any level. -/
theorem mem_overlappingInputsLoop {level : Nat} {files : List (FileMetaData α)} {userBegin userEnd : Option α}
    {f : FileMetaData α} (hf : f ∈ files) (h : f.OverlapsRange userBegin userEnd) :
    f ∈ overlappingInputsLoop level files userBegin userEnd := by
  by_cases hlevel : level = 0
  · subst hlevel
    exact (overlappingInputsLoop_isLeast files userBegin userEnd).1.range f hf h
  · rw [overlappingInputsLoop_deeper (Nat.pos_of_ne_zero hlevel)]
    exact List.mem_filter.2 ⟨hf, overlapsRange_iff.1 h⟩

/-- A wider range. -/
theorem FileMetaData.OverlapsRange.widen {smallest largest smallest' largest' : InternalKey α}
    (hlow : smallest' ≤ smallest) (hhigh : largest ≤ largest') {f : FileMetaData α}
    (h : f.OverlapsRange (some smallest.userKey) (some largest.userKey)) :
    f.OverlapsRange (some smallest'.userKey) (some largest'.userKey) := by
  have hlow' := InternalKey.userKey_le hlow
  have hhigh' := InternalKey.userKey_le hhigh
  constructor
  · rintro b ⟨⟩
    exact hlow'.trans (h.1 _ rfl)
  · rintro e ⟨⟩
    exact (h.2 _ rfl).trans hhigh'

/-- A file overlaps every range that it lies in. -/
theorem FileMetaData.overlapsRange_self {smallest largest : InternalKey α} {f : FileMetaData α}
    (hlow : smallest ≤ f.smallest) (hhigh : f.largest ≤ largest) :
    f.OverlapsRange (some smallest.userKey) (some largest.userKey) := by
  constructor
  · rintro b ⟨⟩
    exact InternalKey.userKey_le (hlow.trans f.ordered)
  · rintro e ⟨⟩
    exact InternalKey.userKey_le (f.ordered.trans hhigh)

/-- A sorted level lists no file twice. -/
theorem LevelSorted.nodup {files : List (FileMetaData α)} (h : LevelSorted files) : files.Nodup := by
  refine h.imp fun {f g} hlt heq => ?_
  subst heq
  exact absurd f.ordered (not_le.2 hlt)

/-! ## Boundary files -/

theorem subset_addBoundaryInputs (levelFiles inputs : List (FileMetaData α)) :
    ∀ f ∈ inputs, f ∈ addBoundaryInputs levelFiles inputs := by
  intro f hf
  unfold addBoundaryInputs
  cases hk : findLargestKey inputs with
  | none => exact hf
  | some k => exact addBoundaryLoop_subset hf

/-- A closed set that has the inputs has the boundary files that are added to them. -/
theorem ClosedInputs.addBoundary_subset {level : Nat} {levelFiles inputs closed : List (FileMetaData α)}
    (h : ClosedInputs level levelFiles closed) (hl : 1 ≤ level) (hsub : ∀ f ∈ inputs, f ∈ closed) :
    ∀ f ∈ addBoundaryInputs levelFiles inputs, f ∈ closed := by
  unfold addBoundaryInputs
  cases hk : findLargestKey inputs with
  | none => exact hsub
  | some k =>
    have hmem := findLargestKey_mem hk
    clear hk
    dsimp only
    fun_induction addBoundaryLoop levelFiles k inputs with
    | case1 k inputs b hfound ih =>
      obtain ⟨hb, hlt, huser⟩ := findSmallestBoundaryFile_some hfound
      have hclosed : b ∈ closed := by
        by_contra hnot
        obtain ⟨m, hm, rfl⟩ := hmem
        rcases h.deeper hl b hb hnot with hbefore | hafter
        · exact absurd (hbefore m (hsub m hm)) (not_lt.2 (m.ordered.trans (hlt.le.trans b.ordered)))
        · exact absurd huser (hafter m (hsub m hm)).ne'
      refine ih (fun f hf => ?_) ⟨b, by simp, rfl⟩
      rcases List.mem_append.1 hf with hf | hf
      · exact hsub f hf
      · rw [List.mem_singleton.1 hf]
        exact hclosed
    | case2 k inputs _ => exact hsub

/-! ## What a compaction starts from -/

namespace VersionSet

variable {vset vset' : VersionSet α} {c c' : Compaction α}

/-- The compactions that `SetupOtherInputs` is called with. -/
inductive Starts (vset : VersionSet α) : Compaction α → Prop
  | pick {level : Nat} {f : FileMetaData α} {inputs0 : List (FileMetaData α)}
      (start : vset.compactionStart = some (some (level, f))) (picked : vset.pickedInputs level f = some inputs0) :
      Starts vset { level, inputs0 }
  | range {level : Nat} {begin_ end_ : Option (InternalKey α)} {inputs : List (FileMetaData α)}
      (overlapping : vset.current.getOverlappingInputs level begin_ end_ = some inputs) (nonempty : inputs ≠ []) :
      Starts vset { level, inputs0 :=
        if level > 0 then limitInputs (maxFileSizeForLevel vset.options level) 0 inputs else inputs }

theorem pickCompaction_starts (h : vset.pickCompaction = some (some (c', vset'))) :
    ∃ c, vset.Starts c ∧ vset.setupOtherInputs c = some (c', vset') := by
  obtain ⟨level, f, inputs0, hstart, hpicked, hsetup⟩ := pickCompaction_cases h
  exact ⟨_, .pick hstart hpicked, hsetup⟩

theorem compactRange_starts {level : Nat} {begin_ end_ : Option (InternalKey α)}
    (h : vset.compactRange level begin_ end_ = some (some (c', vset'))) :
    ∃ c, vset.Starts c ∧ vset.setupOtherInputs c = some (c', vset') := by
  obtain ⟨inputs, hoverlap, hne, hsetup⟩ := compactRange_cases h
  exact ⟨_, .range hoverlap hne, hsetup⟩

theorem limitInputs_ne_nil {limit total : UInt64} {files : List (FileMetaData α)} (h : files ≠ []) :
    limitInputs limit total files ≠ [] := by
  cases files with
  | nil => exact absurd rfl h
  | cons f files =>
    rw [limitInputs]
    split <;> exact List.cons_ne_nil _ _

/-- The starting set has a file, and is made of files of its level with none between them. -/
theorem Starts.inputs (h : vset.Starts c) (hs : vset.current.SortedLevels) (hseek : SeekFileKnown vset.current) :
    c.inputs0 ≠ [] ∧ InputsOf c.level (vset.current.files c.level) c.inputs0 ∧
      ConvexInputs c.level (vset.current.files c.level) c.inputs0 := by
  cases h with
  | @pick level f inputs0 start picked =>
    have hf := compactionStart_mem hseek start
    refine ⟨?_, pickedInputs_some hs hf picked, pickedInputs_convex hs hf picked⟩
    by_cases hlevel : level = 0
    · subst hlevel
      exact List.ne_nil_of_mem (pickedInputs_isLeast hf picked).1.1
    · rw [pickedInputs, if_neg hlevel, Option.some.injEq] at picked
      subst picked
      exact List.cons_ne_nil _ _
  | @range level begin_ end_ inputs overlapping nonempty =>
    have hsub := Version.getOverlappingInputs_some overlapping
    obtain ⟨-, rfl⟩ := Version.getOverlappingInputs_eq overlapping
    have hconvex : ConvexInputs level (vset.current.files level) _ :=
      ConvexInputs.overlapping (hs level) (begin_.map (·.userKey)) (end_.map (·.userKey))
    dsimp only
    by_cases hlevel : level > 0
    · rw [if_pos hlevel]
      have hinitial := limitInputs_initial (maxFileSizeForLevel vset.options level) 0
        (overlappingInputsLoop level (vset.current.files level) (begin_.map (·.userKey)) (end_.map (·.userKey)))
      exact ⟨limitInputs_ne_nil nonempty, InputsOf.of_sublist (hs level) (hinitial.sublist.trans hsub),
        hconvex.initial hlevel (hs level hlevel) hsub hinitial⟩
    · rw [if_neg hlevel]
      exact ⟨nonempty, InputsOf.of_sublist (hs level) hsub, hconvex⟩

/-! ## Growing the inputs -/

/-- The ranges of the locals of `SetupOtherInputs`: `inputs1` are the files of the lower level that the
range of `inputs0` overlaps, with boundary files, and the whole range takes in all inputs. -/
structure Ranged (v : Version α) (level : Nat) (i : OtherInputs α) : Prop where
  within0 : ∀ f ∈ i.inputs0, i.allStart ≤ f.smallest ∧ f.largest ≤ i.allLimit
  inputs1 : ∃ smallest largest, getRange i.inputs0 = some (smallest, largest) ∧
    i.inputs1 = addBoundaryInputs (v.files (level + 1)) (overlappingInputsLoop (level + 1) (v.files (level + 1))
      (some smallest.userKey) (some largest.userKey))

theorem getRange2_within {inputs0 inputs1 : List (FileMetaData α)} {all : InternalKey α × InternalKey α}
    (h : getRange2 inputs0 inputs1 = some all) : ∀ f ∈ inputs0, all.1 ≤ f.smallest ∧ f.largest ≤ all.2 :=
  fun f hf => (getRange_some h).2 f (List.mem_append_left _ hf)

theorem firstInputs_ranged {i : OtherInputs α} (h : vset.firstInputs c = some i) :
    Ranged vset.current c.level i := by
  simp only [firstInputs, Option.bind_eq_bind, Option.bind_eq_some_iff] at h
  obtain ⟨⟨smallest, largest⟩, hrange, overlapping, hoverlap, all, hall, hi⟩ := h
  cases hi
  obtain ⟨-, rfl⟩ := Version.getOverlappingInputs_eq hoverlap
  exact ⟨getRange2_within hall, smallest, largest, hrange, rfl⟩

/-- `SetupOtherInputs` gets through to its end. -/
theorem firstInputs_isSome (vset : VersionSet α) {c : Compaction α} (hl : c.level + 1 < kNumLevels)
    (h0 : c.inputs0 ≠ []) : ∃ i, vset.firstInputs c = some i := by
  obtain ⟨f, hf⟩ := List.exists_mem_of_ne_nil _ h0
  have hne := List.ne_nil_of_mem (subset_addBoundaryInputs (vset.current.files c.level) c.inputs0 f hf)
  obtain ⟨smallest, largest, hrange⟩ := getRange_isSome hne
  obtain ⟨allStart, allLimit, hall⟩ := getRange_isSome (List.append_ne_nil_of_left_ne_nil hne
    (addBoundaryInputs (vset.current.files (c.level + 1)) (overlappingInputsLoop (c.level + 1)
      (vset.current.files (c.level + 1)) (some smallest.userKey) (some largest.userKey))))
  simp only [firstInputs, Option.bind_eq_bind, hrange, Option.bind_some, Version.getOverlappingInputs_of_lt _ hl,
    Option.map_some, getRange2, hall]
  exact ⟨_, rfl⟩

theorem growInputs_isSome (vset : VersionSet α) {level : Nat} (hl : level + 1 < kNumLevels) {i : OtherInputs α} :
    ∃ i', vset.growInputs level i = some i' := by
  unfold growInputs
  simp only [Option.bind_eq_bind, Option.pure_def, Version.getOverlappingInputs_of_lt _ hl,
    Version.getOverlappingInputs_of_lt vset.current (Nat.lt_of_succ_lt hl), Option.bind_some, Option.map_some]
  split
  · exact ⟨i, rfl⟩
  · split
    · rename_i hsize
      have hne := List.ne_nil_of_length_pos (Nat.zero_lt_of_lt hsize.1)
      obtain ⟨newStart, newLimit, hrange⟩ := getRange_isSome hne
      rw [hrange]
      simp only [Option.bind_some]
      split
      · obtain ⟨allStart, allLimit, hall⟩ := getRange_isSome (List.append_ne_nil_of_left_ne_nil hne
          (addBoundaryInputs (vset.current.files (level + 1)) (overlappingInputsLoop (level + 1)
            (vset.current.files (level + 1)) (some newStart.userKey) (some newLimit.userKey))))
        simp only [getRange2, hall, Option.bind_some]
        exact ⟨_, rfl⟩
      · exact ⟨i, rfl⟩
    · exact ⟨i, rfl⟩

/-- **Growing keeps the upper inputs, and the lower ones are the same files.** -/
theorem growInputs_perm (hs : vset.current.SortedLevels) {level : Nat} {i i' : OtherInputs α}
    (h : vset.growInputs level i = some i') (hi : InputsOfVersion vset.current level i.inputs0 i.inputs1)
    (hr : Ranged vset.current level i) :
    (∀ f ∈ i.inputs0, f ∈ i'.inputs0) ∧ i.inputs1.Perm i'.inputs1 := by
  obtain rfl | ⟨overlapping0, overlapping1, newStart, newLimit, hgrown⟩ := growInputs_cases h
  · exact ⟨fun f hf => hf, List.Perm.refl _⟩
  · obtain ⟨-, rfl⟩ := Version.getOverlappingInputs_eq hgrown.selected0
    obtain ⟨-, rfl⟩ := Version.getOverlappingInputs_eq hgrown.selected1
    -- the old inputs lie in the whole range, so they are found again
    have hupper : ∀ f ∈ i.inputs0, f ∈ i'.inputs0 := by
      intro f hf
      obtain ⟨hlow, hhigh⟩ := hr.within0 f hf
      rw [hgrown.inputs0]
      exact subset_addBoundaryInputs _ _ f (mem_overlappingInputsLoop (hi.inputs0.mem hf)
        (FileMetaData.overlapsRange_self hlow hhigh))
    refine ⟨hupper, ?_⟩
    -- so the new range takes in the old one, and what that overlaps
    obtain ⟨smallest, largest, hold, hinputs1⟩ := hr.inputs1
    obtain ⟨⟨f, hf, hsmallest⟩, g, hg, hlargest⟩ := getRange_mem hold
    have hlow : newStart ≤ smallest := hsmallest ▸ ((getRange_some hgrown.range).2 f (hupper f hf)).1
    have hhigh : largest ≤ newLimit := hlargest ▸ ((getRange_some hgrown.range).2 g (hupper g hg)).2
    have hclosed : ClosedInputs (level + 1) (vset.current.files (level + 1)) i'.inputs1 := by
      rw [hgrown.inputs1]
      exact (ConvexInputs.overlapping (hs (level + 1)) (some newStart.userKey) (some newLimit.userKey)).addBoundary
        (hs (level + 1))
    have hsub : ∀ f ∈ i.inputs1, f ∈ i'.inputs1 := by
      rw [hinputs1]
      refine hclosed.addBoundary_subset (Nat.succ_pos _) fun f hf => ?_
      rw [overlappingInputsLoop_deeper (Nat.succ_pos _), List.mem_filter] at hf
      rw [hgrown.inputs1]
      exact subset_addBoundaryInputs _ _ f
        (mem_overlappingInputsLoop hf.1 ((overlapsRange_iff.2 hf.2).widen hlow hhigh))
    have hnodup : i.inputs1.Nodup := (hi.inputs1.sorted (Nat.succ_pos _)).nodup
    exact (List.subperm_of_subset hnodup hsub).perm_of_length_le (le_of_eq hgrown.length)

/-! ## The inputs -/

/-- From the smallest to the largest user key of the files. -/
def UserKeyRange (files : List (FileMetaData α)) (low high : α) : Prop :=
  IsLeast {k | ∃ f ∈ files, f.smallest.userKey = k} low ∧ IsGreatest {k | ∃ f ∈ files, f.largest.userKey = k} high

/-- No other file of the level starts after the largest key of the inputs, with the same user key. -/
def NoBoundary (levelFiles inputs : List (FileMetaData α)) : Prop :=
  ∀ k, IsGreatest {k | ∃ f ∈ inputs, f.largest = k} k → ∀ g ∈ levelFiles, g ∉ inputs →
    ¬ (k < g.smallest ∧ g.smallest.userKey = k.userKey)

/-- `c'` is what `SetupOtherInputs` is to make of `c`. -/
structure SetsUp (vset : VersionSet α) (c c' : Compaction α) : Prop where
  level : c'.level = c.level
  start : ∀ f ∈ c.inputs0, f ∈ c'.inputs0
  boundary0 : NoBoundary (vset.current.files c.level) c'.inputs0
  boundary1 : NoBoundary (vset.current.files (c.level + 1)) c'.inputs1
  zero : c.level = 0 → ∀ g ∈ vset.current.files 0, g ∉ c'.inputs0 → ∀ f ∈ c'.inputs0, ¬ f.Overlaps g
  overlapping : ∀ low high, UserKeyRange c'.inputs0 low high → ∀ g ∈ vset.current.files (c.level + 1),
    g.OverlapsRange (some low) (some high) → g ∈ c'.inputs1
  once : (c'.inputs0 ++ c'.inputs1).Nodup
  /-- The lower inputs are, up to their order, those from before the inputs are grown. -/
  grown : ∃ i, vset.firstInputs c = some i ∧ i.inputs1.Perm c'.inputs1

/-- Closed inputs have no boundary file outside. -/
theorem noBoundary_of_closed {level : Nat} {levelFiles inputs : List (FileMetaData α)}
    (h : ClosedInputs level levelFiles inputs) : NoBoundary levelFiles inputs := by
  rintro k ⟨⟨f, hf, rfl⟩, -⟩ g hg hnot ⟨hlt, huser⟩
  by_cases hlevel : level = 0
  · rcases h.zero hlevel g hg hnot f hf with hapart | hapart
    · exact absurd huser hapart.ne'
    · have hgf : g.smallest.userKey < f.largest.userKey :=
        g.userKey_ordered.trans_lt (hapart.trans_le f.userKey_ordered)
      exact absurd huser hgf.ne
  · rcases h.deeper (Nat.pos_of_ne_zero hlevel) g hg hnot with hbefore | hafter
    · exact absurd (hlt.le.trans g.ordered) (not_le.2 ((hbefore f hf).trans_le f.ordered))
    · exact absurd huser (hafter f hf).ne'

theorem setupOtherInputs_isSome (vset : VersionSet α) {c : Compaction α} (hl : c.level + 1 < kNumLevels)
    (h0 : c.inputs0 ≠ []) : ∃ c' vset', vset.setupOtherInputs c = some (c', vset') := by
  obtain ⟨i, hfirst⟩ := vset.firstInputs_isSome hl h0
  obtain ⟨i', hgrow⟩ := vset.growInputs_isSome hl (i := i)
  have hgrand : ∃ grandparents, vset.grandparents c i' = some grandparents := by
    unfold grandparents
    split
    · rename_i hlt
      exact ⟨_, Version.getOverlappingInputs_of_lt _ hlt _ _⟩
    · exact ⟨_, rfl⟩
  obtain ⟨grandparents, hgrand⟩ := hgrand
  simp only [setupOtherInputs, hfirst, hgrow, hgrand, Option.bind_eq_bind, Option.bind_some]
  exact ⟨_, _, rfl⟩

end VersionSet

/-- **Compaction inputs are closed.** On sorted levels, and from whatever `PickCompaction` or `CompactRange`
start with on a level that has a next one, `SetupOtherInputs` comes to an end and leaves inputs that have
the starting set; no boundary file is left out on either level, nor a file of level 0 that overlaps an
input, nor one of the lower level that the range of the upper inputs overlaps; no file is an input twice;
and growing the upper inputs leaves the lower ones what they were. -/
theorem setupOtherInputs_closes (vset : VersionSet α) (hs : vset.current.SortedLevels)
    (hseek : VersionSet.SeekFileKnown vset.current) (c : Compaction α) (hc : vset.Starts c)
    (hl : c.level + 1 < kNumLevels)
    (honce : (vset.current.files c.level ++ vset.current.files (c.level + 1)).Nodup) :
    ∃ c' vset', vset.setupOtherInputs c = some (c', vset') ∧ vset.SetsUp c c' := by
  obtain ⟨hne, hinputs0, hconvex⟩ := hc.inputs hs hseek
  obtain ⟨c', vset', hsetup⟩ := vset.setupOtherInputs_isSome hl hne
  refine ⟨c', vset', hsetup, ?_⟩
  have hclosed := VersionSet.setupOtherInputs_closed hs hsetup hconvex
  have hinputs := (VersionSet.setupOtherInputs_some hs hsetup hinputs0).1
  have hparts := hsetup
  simp only [VersionSet.setupOtherInputs, Option.bind_eq_bind, Option.bind_eq_some_iff] at hparts
  obtain ⟨i, hfirst, i', hgrow, grandparents, -, heq⟩ := hparts
  obtain ⟨hkeep, hperm⟩ := VersionSet.growInputs_perm hs hgrow (VersionSet.firstInputs_some hs hfirst hinputs0)
    (VersionSet.firstInputs_ranged hfirst)
  have hstart : ∀ f ∈ c.inputs0, f ∈ i.inputs0 := by
    simp only [VersionSet.firstInputs, Option.bind_eq_bind, Option.bind_eq_some_iff] at hfirst
    obtain ⟨range, -, overlapping, -, all, -, hi⟩ := hfirst
    cases hi
    exact subset_addBoundaryInputs _ _
  cases heq
  refine ⟨rfl, fun f hf => hkeep f (hstart f hf), VersionSet.noBoundary_of_closed hclosed.upper, ?_, ?_, ?_, ?_,
    i, hfirst, hperm⟩
  · -- a file of the lower level that is left out lies before or after all inputs
    rintro k ⟨⟨f, hf, rfl⟩, -⟩ g hg hnot ⟨hlt, huser⟩
    rcases hclosed.lower g hg hnot with ⟨-, hbefore⟩ | ⟨-, hafter⟩
    · exact absurd (hlt.le.trans g.ordered) (not_le.2 ((hbefore f hf).trans_le f.ordered))
    · exact absurd huser (hafter f hf).ne'
  · intro h0 g hg hnot f hf
    exact not_overlaps_iff_apart.2 (hclosed.upper.zero h0 g (h0 ▸ hg) hnot f hf)
  · rintro low high ⟨⟨⟨f, hf, rfl⟩, -⟩, ⟨f', hf', rfl⟩, -⟩ g hg hover
    by_contra hnot
    rcases hclosed.lower g hg hnot with ⟨hbefore, -⟩ | ⟨hafter, -⟩
    · exact absurd (hover.1 _ rfl) (not_le.2 (hbefore f hf))
    · exact absurd (hover.2 _ rfl) (not_le.2 (hafter f' hf'))
  · obtain ⟨inputs, hp, hsub⟩ := hinputs.inputs0.subperm.append hinputs.inputs1.subperm
    exact hp.nodup_iff.1 (honce.sublist hsub)

/-- `CompactRange` starts with the first of the two files, for its size. -/
theorem SampleCompaction.starts : vset.Starts { level := 1, inputs0 := [file1] } := by
  have hlimit : VersionSet.limitInputs (maxFileSizeForLevel vset.options 1) 0 [file1, file2] = [file1] := by
    decide
  have h := VersionSet.Starts.range getOverlappingInputs_one (List.cons_ne_nil _ _)
  simpa only [gt_iff_lt, Nat.zero_lt_one, if_true, hlimit] using h

theorem setupOtherInputs_closes_sample : ∃ c' vset',
    SampleCompaction.vset.setupOtherInputs { level := 1, inputs0 := [SampleCompaction.file1] } = some (c', vset') ∧
      SampleCompaction.vset.SetsUp { level := 1, inputs0 := [SampleCompaction.file1] } c' :=
  setupOtherInputs_closes SampleCompaction.vset SampleCompaction.sortedLevels (by rintro f ⟨⟩) _
    SampleCompaction.starts (by decide) (by decide)

end LevelDbSurf
