import LevelDbSurf.CompactionInputs

/-!
# What a compaction leaves behind

A compaction moves entries one level down, so it must take along whatever older entries of the same
user keys its level still has. `ClosedInputs` says that of the inputs at the upper level, where boundary
files make the difference, and `Outer` of the files of the lower level that are not inputs: each lies
wholly before or wholly after everything the compaction reads. `SetupOtherInputs` gets both from any
inputs it can be called with.
-/

namespace LevelDbSurf

open Cursors

variable {α : Type} [LinearOrder α]

theorem LevelSorted.before_or_after {files : List (FileMetaData α)} (h : LevelSorted files)
    {f g : FileMetaData α} (hf : f ∈ files) (hg : g ∈ files) :
    f = g ∨ f.largest < g.smallest ∨ g.largest < f.smallest := by
  induction files with
  | nil => cases hf
  | cons a files ih =>
    obtain ⟨ha, hfiles⟩ := List.pairwise_cons.1 h
    rcases List.mem_cons.1 hf with rfl | hf'
    · rcases List.mem_cons.1 hg with rfl | hg'
      · exact Or.inl rfl
      · exact Or.inr (Or.inl (ha g hg'))
    · rcases List.mem_cons.1 hg with rfl | hg'
      · exact Or.inr (Or.inr (ha f hf'))
      · exact ih hfiles hf' hg'

theorem FileMetaData.userKey_ordered (f : FileMetaData α) : f.smallest.userKey ≤ f.largest.userKey :=
  InternalKey.userKey_le f.ordered

/-! ## `GetOverlappingInputs` -/

/-- Neither "completely before" nor "completely after" the range. -/
def meetsRange (userBegin userEnd : Option α) (f : FileMetaData α) : Bool :=
  !(userBegin.any fun b => decide (f.largest.userKey < b)) && !(userEnd.any fun e => decide (e < f.smallest.userKey))

theorem meetsRange_iff {userBegin userEnd : Option α} {f : FileMetaData α} :
    meetsRange userBegin userEnd f = true ↔
      (∀ b ∈ userBegin, b ≤ f.largest.userKey) ∧ ∀ e ∈ userEnd, f.smallest.userKey ≤ e := by
  cases userBegin <;> cases userEnd <;> simp [meetsRange]

theorem not_meetsRange {userBegin userEnd : Option α} {f : FileMetaData α}
    (h : ¬ meetsRange userBegin userEnd f = true) :
    (∃ b ∈ userBegin, f.largest.userKey < b) ∨ ∃ e ∈ userEnd, e < f.smallest.userKey := by
  rw [meetsRange_iff] at h
  by_contra hno
  push Not at hno
  exact h ⟨hno.1, hno.2⟩

/-- A pass that does not start over takes the files that meet the range; on level 0 none of them reaches
out of it. -/
theorem scanFiles_done_eq {level : Nat} {userBegin userEnd : Option α} {files inputs r : List (FileMetaData α)}
    (h : scanFiles level userBegin userEnd files inputs = .done r) :
    r = inputs ++ files.filter (meetsRange userBegin userEnd) ∧
      (level = 0 → ∀ f ∈ files, meetsRange userBegin userEnd f = true →
        (∀ b ∈ userBegin, b ≤ f.smallest.userKey) ∧ ∀ e ∈ userEnd, f.largest.userKey ≤ e) := by
  induction files generalizing inputs with
  | nil =>
    cases h
    simp
  | cons f files ih =>
    rw [scanFiles] at h
    split at h
    · rename_i hbefore
      have hf : meetsRange userBegin userEnd f = false := by simp only [meetsRange, hbefore]; rfl
      obtain ⟨hr, hin⟩ := ih h
      simpa [hf, hr] using hin
    · split at h
      · rename_i hafter
        have hf : meetsRange userBegin userEnd f = false := by
          simp only [meetsRange, hafter, Bool.not_true, Bool.and_false]
        obtain ⟨hr, hin⟩ := ih h
        simpa [hf, hr] using hin
      · rename_i hbefore hafter
        have hf : meetsRange userBegin userEnd f = true := by
          simp only [meetsRange, hbefore, hafter, Bool.not_false, Bool.and_true]
        split at h
        · cases h
        · rename_i hlow
          split at h
          · cases h
          · rename_i hhigh
            obtain ⟨hr, hin⟩ := ih h
            refine ⟨by simp [hr, hf], fun hlevel g hg hmeets => ?_⟩
            rcases List.mem_cons.1 hg with rfl | hg
            · subst hlevel
              constructor
              · rintro b rfl
                simpa using hlow
              · rintro e rfl
                simpa using hhigh
            · exact hin hlevel g hg hmeets

/-- Only a pass over level 0 starts over. -/
theorem scanFiles_restart_level {level : Nat} {userBegin userEnd b e : Option α}
    {files inputs : List (FileMetaData α)}
    (h : scanFiles level userBegin userEnd files inputs = .restart b e) : level = 0 := by
  induction files generalizing inputs with
  | nil => cases h
  | cons f files ih =>
    rw [scanFiles] at h
    split at h
    · exact ih h
    · split at h
      · exact ih h
      · split at h
        · rename_i hlow
          exact hlow.1
        · split at h
          · rename_i hhigh
            exact hhigh.1
          · exact ih h

/-- Below level 0 the range stays what it was. -/
theorem overlappingInputsLoop_deeper {level : Nat} (hl : 1 ≤ level) (files : List (FileMetaData α))
    (userBegin userEnd : Option α) :
    overlappingInputsLoop level files userBegin userEnd = files.filter (meetsRange userBegin userEnd) := by
  fun_induction overlappingInputsLoop level files userBegin userEnd with
  | case1 userBegin userEnd inputs h =>
    rw [(scanFiles_done_eq h).1, List.nil_append]
  | case2 userBegin userEnd b e h ih =>
    have := scanFiles_restart_level h
    omega

/-- On level 0 the range grows until every file that meets it lies inside. -/
theorem overlappingInputsLoop_zero (files : List (FileMetaData α)) (userBegin userEnd : Option α) :
    ∃ b e, overlappingInputsLoop 0 files userBegin userEnd = files.filter (meetsRange b e) ∧
      ∀ f ∈ files, meetsRange b e f = true →
        (∀ x ∈ b, x ≤ f.smallest.userKey) ∧ ∀ x ∈ e, f.largest.userKey ≤ x := by
  fun_induction overlappingInputsLoop 0 files userBegin userEnd with
  | case1 userBegin userEnd inputs h =>
    obtain ⟨hr, hin⟩ := scanFiles_done_eq h
    exact ⟨userBegin, userEnd, by rw [hr, List.nil_append], hin rfl⟩
  | case2 userBegin userEnd b e h ih => exact ih

/-! ## Closed sets of inputs -/

/-- The files share no user key. -/
def Apart (f g : FileMetaData α) : Prop :=
  f.largest.userKey < g.smallest.userKey ∨ g.largest.userKey < f.smallest.userKey

/-- No file of the level lies between the inputs. On level 0: none that is left out shares a user key
with an input. -/
structure ConvexInputs (level : Nat) (levelFiles inputs : List (FileMetaData α)) : Prop where
  zero : level = 0 → ∀ g ∈ levelFiles, g ∉ inputs → ∀ f ∈ inputs, Apart f g
  deeper : 1 ≤ level → ∀ g ∈ levelFiles, g ∉ inputs →
    (∀ f ∈ inputs, g.largest < f.smallest) ∨ ∀ f ∈ inputs, f.largest < g.smallest

/-- And no file after them goes on with the user key they end in. -/
structure ClosedInputs (level : Nat) (levelFiles inputs : List (FileMetaData α)) : Prop where
  zero : level = 0 → ∀ g ∈ levelFiles, g ∉ inputs → ∀ f ∈ inputs, Apart f g
  deeper : 1 ≤ level → ∀ g ∈ levelFiles, g ∉ inputs →
    (∀ f ∈ inputs, g.largest < f.smallest) ∨ ∀ f ∈ inputs, f.largest.userKey < g.smallest.userKey

section Convex
variable {level : Nat} {levelFiles inputs : List (FileMetaData α)}

/-- One file is convex by itself. -/
theorem ConvexInputs.singleton (hl : 1 ≤ level) (hs : LevelSorted levelFiles) {f : FileMetaData α}
    (hf : f ∈ levelFiles) : ConvexInputs level levelFiles [f] where
  zero h0 := by omega
  deeper _ g hg hnot := by
    rw [List.mem_singleton] at hnot
    rcases hs.before_or_after hg hf with rfl | hlt | hlt
    · exact absurd rfl hnot
    · exact Or.inl (by simpa using hlt)
    · exact Or.inr (by simpa using hlt)

/-- What `GetOverlappingInputs` selects. -/
theorem ConvexInputs.overlapping (hs : 1 ≤ level → LevelSorted levelFiles) (userBegin userEnd : Option α) :
    ConvexInputs level levelFiles (overlappingInputsLoop level levelFiles userBegin userEnd) where
  zero h0 g hg hnot f hf := by
    subst h0
    obtain ⟨b, e, hr, hin⟩ := overlappingInputsLoop_zero levelFiles userBegin userEnd
    rw [hr, List.mem_filter] at hf hnot
    obtain ⟨hlow, hhigh⟩ := hin f hf.1 hf.2
    rcases not_meetsRange fun h => hnot ⟨hg, h⟩ with ⟨x, hx, hlt⟩ | ⟨x, hx, hlt⟩
    · exact Or.inr (lt_of_lt_of_le hlt (hlow x hx))
    · exact Or.inl (lt_of_le_of_lt (hhigh x hx) hlt)
  deeper hl g hg hnot := by
    rw [overlappingInputsLoop_deeper hl] at hnot ⊢
    have hmeets : ∀ f ∈ levelFiles.filter (meetsRange userBegin userEnd), f ∈ levelFiles ∧ f ≠ g ∧
        (∀ b ∈ userBegin, b ≤ f.largest.userKey) ∧ ∀ e ∈ userEnd, f.smallest.userKey ≤ e := by
      intro f hf
      refine ⟨(List.mem_filter.1 hf).1, ?_, meetsRange_iff.1 (List.mem_filter.1 hf).2⟩
      rintro rfl
      exact hnot hf
    rcases not_meetsRange fun h => hnot (List.mem_filter.2 ⟨hg, h⟩) with ⟨x, hx, hlt⟩ | ⟨x, hx, hlt⟩
    · refine Or.inl fun f hf => ?_
      obtain ⟨hfmem, hne, hlow, -⟩ := hmeets f hf
      refine ((hs hl).before_or_after hg hfmem).resolve_left hne.symm |>.resolve_right fun hfg => ?_
      exact absurd (lt_of_lt_of_le hlt (hlow x hx))
        (not_lt.2 ((InternalKey.userKey_le hfg.le).trans g.userKey_ordered))
    · refine Or.inr fun f hf => ?_
      obtain ⟨hfmem, hne, -, hhigh⟩ := hmeets f hf
      refine ((hs hl).before_or_after hfmem hg).resolve_left hne |>.resolve_right fun hgf => ?_
      exact absurd (lt_of_le_of_lt (hhigh x hx) hlt)
        (not_lt.2 (g.userKey_ordered.trans (InternalKey.userKey_le hgf.le)))

/-- The files of a level from 1 on that `CompactRange` keeps when it cuts its inputs at a size. -/
theorem ConvexInputs.initial (hl : 1 ≤ level) (hs : LevelSorted levelFiles) {files : List (FileMetaData α)}
    (h : ConvexInputs level levelFiles files) (hsub : files.Sublist levelFiles) (hinitial : inputs <+: files) :
    ConvexInputs level levelFiles inputs where
  zero h0 := by omega
  deeper _ g hg hnot := by
    obtain ⟨rest, rfl⟩ := hinitial
    by_cases hrest : g ∈ rest
    · refine Or.inr fun f hf => ?_
      exact (List.pairwise_append.1 (hs.sublist hsub)).2.2 f hf g hrest
    · have hg' : g ∉ inputs ++ rest := by simp [hnot, hrest]
      refine (h.deeper hl g hg hg').imp ?_ ?_ <;>
        exact fun h f hf => h f (List.mem_append_left _ hf)

end Convex

/-! ## Boundary files -/

/-- A boundary file for this key. -/
def IsBoundary (largestKey : InternalKey α) (f : FileMetaData α) : Prop :=
  largestKey < f.smallest ∧ f.smallest.userKey = largestKey.userKey

/-- The loop keeps the smallest one. -/
theorem foldl_smallerBoundaryFile {largestKey : InternalKey α} (files : List (FileMetaData α))
    (found : Option (FileMetaData α)) :
    (∀ f, files.foldl (smallerBoundaryFile largestKey) found = some f →
      (∀ g ∈ found, f.smallest ≤ g.smallest) ∧ ∀ g ∈ files, IsBoundary largestKey g → f.smallest ≤ g.smallest) ∧
    (files.foldl (smallerBoundaryFile largestKey) found = none →
      found = none ∧ ∀ g ∈ files, ¬ IsBoundary largestKey g) := by
  induction files generalizing found with
  | nil =>
    refine ⟨fun f hf => ⟨fun g hg => ?_, by simp⟩, fun h => ⟨h, by simp⟩⟩
    rw [List.foldl_nil] at hf
    cases hf.symm.trans hg
    exact le_refl _
  | cons a files ih =>
    obtain ⟨hsome, hnone⟩ := ih (smallerBoundaryFile largestKey found a)
    have hstep : (∀ h ∈ smallerBoundaryFile largestKey found a, (∀ g ∈ found, h.smallest ≤ g.smallest) ∧
          (IsBoundary largestKey a → h.smallest ≤ a.smallest)) ∧
        (smallerBoundaryFile largestKey found a = none → found = none ∧ ¬ IsBoundary largestKey a) := by
      unfold smallerBoundaryFile IsBoundary
      split
      · cases found with
        | none => simp
        | some g =>
          dsimp only
          split
          · rename_i hlt
            simpa using hlt.le
          · rename_i hle
            simpa using fun _ _ => not_lt.1 hle
      · rename_i hnot
        refine ⟨fun h hh => ⟨fun g hg => ?_, fun ha => absurd ha hnot⟩, fun h => ⟨h, hnot⟩⟩
        cases hh.symm.trans hg
        exact le_refl _
    rw [List.foldl_cons]
    constructor
    · intro f hf
      obtain ⟨hfound, hfiles⟩ := hsome f hf
      cases hmid : smallerBoundaryFile largestKey found a with
      | none =>
        obtain ⟨rfl, ha⟩ := hstep.2 hmid
        refine ⟨by simp, fun g hg hb => ?_⟩
        rcases List.mem_cons.1 hg with rfl | hg
        · exact absurd hb ha
        · exact hfiles g hg hb
      | some h =>
        have hle := hfound h hmid
        obtain ⟨hh, hha⟩ := hstep.1 h hmid
        refine ⟨fun g hg => hle.trans (hh g hg), fun g hg hb => ?_⟩
        rcases List.mem_cons.1 hg with rfl | hg
        · exact hle.trans (hha hb)
        · exact hfiles g hg hb
    · intro h
      obtain ⟨hmid, hfiles⟩ := hnone h
      obtain ⟨hfound, ha⟩ := hstep.2 hmid
      refine ⟨hfound, fun g hg => ?_⟩
      rcases List.mem_cons.1 hg with rfl | hg
      · exact ha
      · exact hfiles g hg

theorem findSmallestBoundaryFile_least {levelFiles : List (FileMetaData α)} {k : InternalKey α}
    {b : FileMetaData α} (h : findSmallestBoundaryFile levelFiles k = some b) :
    ∀ g ∈ levelFiles, IsBoundary k g → b.smallest ≤ g.smallest :=
  ((foldl_smallerBoundaryFile levelFiles none).1 b h).2

theorem findSmallestBoundaryFile_none {levelFiles : List (FileMetaData α)} {k : InternalKey α}
    (h : findSmallestBoundaryFile levelFiles k = none) : ∀ g ∈ levelFiles, ¬ IsBoundary k g :=
  ((foldl_smallerBoundaryFile levelFiles none).2 h).2

/-- The key `FindLargestKey` finds is that of a file. -/
theorem findLargestKey_mem {files : List (FileMetaData α)} {k : InternalKey α} (h : findLargestKey files = some k) :
    ∃ f ∈ files, f.largest = k := by
  cases files with
  | nil => cases h
  | cons a files =>
    rw [findLargestKey, Option.some.injEq] at h
    subst h
    have hloop : ∀ (files : List (FileMetaData α)) (k : InternalKey α),
        files.foldl (fun largestKey f => if f.largest > largestKey then f.largest else largestKey) k = k ∨
          ∃ f ∈ files, f.largest =
            files.foldl (fun largestKey f => if f.largest > largestKey then f.largest else largestKey) k := by
      intro files
      induction files with
      | nil => exact fun k => Or.inl rfl
      | cons b files ih =>
        intro k
        rw [List.foldl_cons]
        rcases ih (if b.largest > k then b.largest else k) with heq | ⟨f, hf, heq⟩
        · rw [heq]
          split
          · exact Or.inr ⟨b, List.mem_cons_self, rfl⟩
          · exact Or.inl rfl
        · exact Or.inr ⟨f, List.mem_cons_of_mem b hf, heq⟩
    rcases hloop files a.largest with heq | ⟨f, hf, heq⟩
    · exact ⟨a, List.mem_cons_self, heq.symm⟩
    · exact ⟨f, List.mem_cons_of_mem a hf, heq⟩

theorem addBoundaryLoop_subset {levelFiles inputs : List (FileMetaData α)} {k : InternalKey α}
    {f : FileMetaData α} (hf : f ∈ inputs) : f ∈ addBoundaryLoop levelFiles k inputs := by
  fun_induction addBoundaryLoop levelFiles k inputs with
  | case1 k inputs b _ ih => exact ih (List.mem_append_left _ hf)
  | case2 k inputs _ => exact hf

section Boundary
variable {level : Nat} {levelFiles inputs : List (FileMetaData α)}

/-- On level 0 a closed set has no boundary file outside. -/
theorem ConvexInputs.no_boundary (h : ConvexInputs 0 levelFiles inputs) {k : InternalKey α}
    (hmem : ∃ f ∈ inputs, f.largest = k) (hmax : ∀ f ∈ inputs, f.largest ≤ k) :
    findSmallestBoundaryFile levelFiles k = none := by
  cases hfound : findSmallestBoundaryFile levelFiles k with
  | none => rfl
  | some b =>
    exfalso
    obtain ⟨hb, hlt, huser⟩ := findSmallestBoundaryFile_some hfound
    obtain ⟨f, hf, rfl⟩ := hmem
    by_cases hin : b ∈ inputs
    · exact absurd (b.ordered.trans (hmax b hin)) (not_le.2 hlt)
    · rcases h.zero rfl b hb hin f hf with hapart | hapart
      · exact absurd huser.symm hapart.ne
      · exact absurd (huser ▸ f.userKey_ordered) (not_le.2 (lt_of_le_of_lt b.userKey_ordered hapart))

/-- The next boundary file leaves no gap. -/
theorem ConvexInputs.push (hl : 1 ≤ level) (hs : LevelSorted levelFiles) (h : ConvexInputs level levelFiles inputs)
    {k : InternalKey α} (hmem : ∃ f ∈ inputs, f.largest = k) {b : FileMetaData α}
    (hfound : findSmallestBoundaryFile levelFiles k = some b) :
    ConvexInputs level levelFiles (inputs ++ [b]) where
  zero h0 := by omega
  deeper _ g hg hnot := by
    obtain ⟨hb, hlt, huser⟩ := findSmallestBoundaryFile_some hfound
    simp only [List.mem_append, List.mem_singleton, not_or] at hnot
    simp only [List.forall_mem_append, List.forall_mem_singleton]
    obtain ⟨f, hf, hfk⟩ := hmem
    rcases h.deeper hl g hg hnot.1 with hbefore | hafter
    · refine Or.inl ⟨hbefore, ?_⟩
      calc g.largest < f.smallest := hbefore f hf
        _ ≤ f.largest := f.ordered
        _ = k := hfk
        _ < b.smallest := hlt
    · have hk : k < g.smallest := hfk ▸ hafter f hf
      refine Or.inr ⟨hafter, ?_⟩
      refine (hs.before_or_after hb hg).resolve_left (Ne.symm hnot.2) |>.resolve_right fun hgb => ?_
      -- between the inputs and `b`, `g` would be a smaller boundary file
      have hgsmall : g.smallest < b.smallest := lt_of_le_of_lt g.ordered hgb
      have hguser : g.smallest.userKey = k.userKey := le_antisymm
        (huser ▸ InternalKey.userKey_le hgsmall.le) (InternalKey.userKey_le hk.le)
      exact absurd (findSmallestBoundaryFile_least hfound g hg ⟨hk, hguser⟩) (not_le.2 hgsmall)

/-- **`AddBoundaryInputs`** closes the inputs. -/
theorem ConvexInputs.addBoundary (hs : 1 ≤ level → LevelSorted levelFiles)
    (h : ConvexInputs level levelFiles inputs) :
    ClosedInputs level levelFiles (addBoundaryInputs levelFiles inputs) := by
  unfold addBoundaryInputs
  cases hk : findLargestKey inputs with
  | none =>
    cases inputs with
    | nil => exact ⟨by simp, by simp⟩
    | cons f inputs => cases hk
  | some k =>
    have hmem := findLargestKey_mem hk
    have hmax := findLargestKey_some hk
    clear hk
    by_cases hlevel : level = 0
    · subst hlevel
      dsimp only
      rw [addBoundaryLoop]
      split
      · rename_i b hfound
        cases (h.no_boundary hmem hmax).symm.trans hfound
      · exact ⟨h.zero, fun hl => by omega⟩
    · have hl : 1 ≤ level := Nat.pos_of_ne_zero hlevel
      dsimp only
      fun_induction addBoundaryLoop levelFiles k inputs with
      | case1 k inputs b hfound ih =>
        obtain ⟨-, hlt, -⟩ := findSmallestBoundaryFile_some hfound
        refine ih (h.push hl (hs hl) hmem hfound) ⟨b, by simp, rfl⟩ fun f hf => ?_
        rcases List.mem_append.1 hf with hf | hf
        · exact (hmax f hf).trans (hlt.le.trans b.ordered)
        · rw [List.mem_singleton.1 hf]
      | case2 k inputs hfound =>
        refine ⟨fun h0 => by omega, fun _ g hg hnot => (h.deeper hl g hg hnot).imp id fun hafter f hf => ?_⟩
        obtain ⟨m, hm, rfl⟩ := hmem
        have hlt : m.largest < g.smallest := hafter m hm
        refine lt_of_le_of_lt (InternalKey.userKey_le (hmax f hf)) ?_
        refine lt_of_le_of_ne (InternalKey.userKey_le hlt.le) fun heq => ?_
        exact findSmallestBoundaryFile_none hfound g hg ⟨hlt, heq.symm⟩

end Boundary

/-! ## The inputs of a compaction -/

/-- `g` lies before, or after, everything the compaction reads. Only boundary files share a user key with
a file before them. -/
def Outer (inputs0 inputs1 : List (FileMetaData α)) (g : FileMetaData α) : Prop :=
  ((∀ f ∈ inputs0, g.largest.userKey < f.smallest.userKey) ∧ ∀ f ∈ inputs1, g.largest < f.smallest) ∨
    ((∀ f ∈ inputs0, f.largest.userKey < g.smallest.userKey) ∧ ∀ f ∈ inputs1, f.largest.userKey < g.smallest.userKey)

/-- Both levels can spare the inputs. -/
structure ClosedCompaction (v : Version α) (level : Nat) (inputs0 inputs1 : List (FileMetaData α)) : Prop where
  level_lt : level + 1 < kNumLevels
  nonempty : inputs0 ≠ []
  upper : ClosedInputs level (v.files level) inputs0
  lower : ∀ g ∈ v.files (level + 1), g ∉ inputs1 → Outer inputs0 inputs1 g

theorem getRange_some {files : List (FileMetaData α)} {smallest largest : InternalKey α}
    (h : getRange files = some (smallest, largest)) :
    files ≠ [] ∧ ∀ f ∈ files, smallest ≤ f.smallest ∧ f.largest ≤ largest := by
  cases files with
  | nil => cases h
  | cons a files =>
    rw [getRange, Option.some.injEq] at h
    -- the loop's range only widens
    have hloop : ∀ (files : List (FileMetaData α)) (range : InternalKey α × InternalKey α),
        let r := files.foldl (fun (range : InternalKey α × InternalKey α) f =>
          (if f.smallest < range.1 then f.smallest else range.1,
            if f.largest > range.2 then f.largest else range.2)) range
        (r.1 ≤ range.1 ∧ range.2 ≤ r.2) ∧ ∀ f ∈ files, r.1 ≤ f.smallest ∧ f.largest ≤ r.2 := by
      intro files
      induction files with
      | nil => exact fun range => ⟨⟨le_refl _, le_refl _⟩, by simp⟩
      | cons b files ih =>
        intro range
        have hstep : ((if b.smallest < range.1 then b.smallest else range.1) ≤ range.1 ∧
              (if b.smallest < range.1 then b.smallest else range.1) ≤ b.smallest) ∧
            range.2 ≤ (if b.largest > range.2 then b.largest else range.2) ∧
              b.largest ≤ (if b.largest > range.2 then b.largest else range.2) := by
          refine ⟨?_, ?_⟩
          · split
            · rename_i hlt
              exact ⟨hlt.le, le_refl _⟩
            · rename_i hle
              exact ⟨le_refl _, not_lt.1 hle⟩
          · split
            · rename_i hlt
              exact ⟨hlt.le, le_refl _⟩
            · rename_i hle
              exact ⟨le_refl _, not_lt.1 hle⟩
        obtain ⟨⟨hlow, hhigh⟩, hfiles⟩ := ih (if b.smallest < range.1 then b.smallest else range.1,
          if b.largest > range.2 then b.largest else range.2)
        refine ⟨⟨hlow.trans hstep.1.1, hstep.2.1.trans hhigh⟩, fun f hf => ?_⟩
        rcases List.mem_cons.1 hf with rfl | hf
        · exact ⟨hlow.trans hstep.1.2, hstep.2.2.trans hhigh⟩
        · exact hfiles f hf
    obtain ⟨⟨hlow, hhigh⟩, hfiles⟩ := hloop files (a.smallest, a.largest)
    rw [h] at hlow hhigh hfiles
    refine ⟨List.cons_ne_nil _ _, fun f hf => ?_⟩
    rcases List.mem_cons.1 hf with rfl | hf
    · exact ⟨hlow, hhigh⟩
    · exact hfiles f hf

theorem Version.getOverlappingInputs_eq {v : Version α} {level : Nat} {begin_ end_ : Option (InternalKey α)}
    {inputs : List (FileMetaData α)} (h : v.getOverlappingInputs level begin_ end_ = some inputs) :
    level < kNumLevels ∧ inputs =
      overlappingInputsLoop level (v.files level) (begin_.map (·.userKey)) (end_.map (·.userKey)) := by
  unfold Version.getOverlappingInputs at h
  split at h
  · rename_i hl
    cases h
    exact ⟨hl, rfl⟩
  · cases h

/-- **The lower level.** What `SetupOtherInputs` picks there for the range of the upper inputs. -/
theorem outer_of_overlapping {levelFiles inputs0 : List (FileMetaData α)} (hs : LevelSorted levelFiles)
    {smallest largest : InternalKey α} (hrange : getRange inputs0 = some (smallest, largest)) {level : Nat}
    (hl : 1 ≤ level) {g : FileMetaData α} (hg : g ∈ levelFiles) :
    let overlapping := overlappingInputsLoop level levelFiles (some smallest.userKey) (some largest.userKey)
    g ∉ addBoundaryInputs levelFiles overlapping → Outer inputs0 (addBoundaryInputs levelFiles overlapping) g := by
  intro overlapping hnot
  have hin := (getRange_some hrange).2
  have hclosed : ClosedInputs level levelFiles (addBoundaryInputs levelFiles overlapping) :=
    (ConvexInputs.overlapping (fun _ => hs) _ _).addBoundary fun _ => hs
  have hsub : ∀ f ∈ overlapping, f ∈ addBoundaryInputs levelFiles overlapping := by
    intro f hf
    unfold addBoundaryInputs
    split
    · exact hf
    · exact addBoundaryLoop_subset hf
  have hmeets : ∀ f ∈ overlapping, smallest.userKey ≤ f.largest.userKey ∧ f.smallest.userKey ≤ largest.userKey := by
    intro f hf
    rw [show overlapping = _ from overlappingInputsLoop_deeper hl _ _ _] at hf
    simpa using meetsRange_iff.1 (List.mem_filter.1 hf).2
  have hout : g.largest.userKey < smallest.userKey ∨ largest.userKey < g.smallest.userKey := by
    have hnot' : ¬ meetsRange (some smallest.userKey) (some largest.userKey) g = true := by
      intro hg'
      refine hnot (hsub g ?_)
      rw [show overlapping = _ from overlappingInputsLoop_deeper hl _ _ _]
      exact List.mem_filter.2 ⟨hg, hg'⟩
    simpa using not_meetsRange hnot'
  have hside := hclosed.deeper hl g hg hnot
  by_cases hempty : overlapping = []
  · -- then there are no inputs at this level
    have hnone : addBoundaryInputs levelFiles overlapping = [] := by rw [hempty]; rfl
    rw [hnone]
    refine hout.imp (fun hlt => ⟨fun f hf => ?_, by simp⟩) fun hlt => ⟨fun f hf => ?_, by simp⟩
    · exact lt_of_lt_of_le hlt (InternalKey.userKey_le (hin f hf).1)
    · exact lt_of_le_of_lt (InternalKey.userKey_le (hin f hf).2) hlt
  · obtain ⟨h, hh⟩ := List.exists_mem_of_ne_nil _ hempty
    obtain ⟨hlow, hhigh⟩ := hmeets h hh
    rcases hout with hlt | hlt
    · refine Or.inl ⟨fun f hf => lt_of_lt_of_le hlt (InternalKey.userKey_le (hin f hf).1), ?_⟩
      refine hside.resolve_right fun hafter => ?_
      -- `h` meets the range, so it does not lie before `g`
      exact absurd (lt_of_le_of_lt hlow (hafter h (hsub h hh))) (not_lt.2 (g.userKey_ordered.trans hlt.le))
    · refine Or.inr ⟨fun f hf => lt_of_le_of_lt (InternalKey.userKey_le (hin f hf).2) hlt, ?_⟩
      refine hside.resolve_left fun hbefore => ?_
      have hgh := InternalKey.userKey_le (hbefore h (hsub h hh)).le
      exact absurd (lt_of_le_of_lt hhigh hlt) (not_lt.2 (g.userKey_ordered.trans hgh))

namespace VersionSet

variable {vset : VersionSet α}

theorem firstInputs_closed (hs : vset.current.SortedLevels) {c : Compaction α} {i : OtherInputs α}
    (h : vset.firstInputs c = some i) (h0 : ConvexInputs c.level (vset.current.files c.level) c.inputs0) :
    ClosedCompaction vset.current c.level i.inputs0 i.inputs1 := by
  simp only [firstInputs, Option.bind_eq_bind, Option.bind_eq_some_iff] at h
  obtain ⟨⟨smallest, largest⟩, hrange, overlapping, hoverlap, all, -, hi⟩ := h
  cases hi
  obtain ⟨hlt, rfl⟩ := Version.getOverlappingInputs_eq hoverlap
  refine ⟨hlt, (getRange_some hrange).1, h0.addBoundary (hs c.level), fun g hg => ?_⟩
  exact outer_of_overlapping (hs _ (Nat.succ_pos _)) hrange (Nat.succ_pos _) hg

/-- Growing exchanges closed inputs for closed inputs. -/
theorem growInputs_closed (hs : vset.current.SortedLevels) {level : Nat} {i i' : OtherInputs α}
    (h : vset.growInputs level i = some i') (hi : ClosedCompaction vset.current level i.inputs0 i.inputs1) :
    ClosedCompaction vset.current level i'.inputs0 i'.inputs1 := by
  obtain rfl | ⟨overlapping0, overlapping1, newStart, newLimit, hgrown⟩ := growInputs_cases h
  · exact hi
  · have hrange := hgrown.range
    rw [hgrown.inputs0, hgrown.inputs1]
    rw [hgrown.inputs0] at hrange
    obtain ⟨-, rfl⟩ := Version.getOverlappingInputs_eq hgrown.selected0
    obtain ⟨-, rfl⟩ := Version.getOverlappingInputs_eq hgrown.selected1
    refine ⟨hi.level_lt, (getRange_some hrange).1,
      (ConvexInputs.overlapping (hs level) _ _).addBoundary (hs level), fun g hg => ?_⟩
    exact outer_of_overlapping (hs _ (Nat.succ_pos _)) hrange (Nat.succ_pos _) hg

/-- **`SetupOtherInputs`** closes the inputs. -/
theorem setupOtherInputs_closed (hs : vset.current.SortedLevels) {c c' : Compaction α} {vset' : VersionSet α}
    (h : vset.setupOtherInputs c = some (c', vset'))
    (h0 : ConvexInputs c.level (vset.current.files c.level) c.inputs0) :
    ClosedCompaction vset.current c'.level c'.inputs0 c'.inputs1 := by
  simp only [setupOtherInputs, Option.bind_eq_bind, Option.bind_eq_some_iff] at h
  obtain ⟨i, hfirst, i', hgrow, grandparents, -, h⟩ := h
  have hclosed := growInputs_closed hs hgrow (firstInputs_closed hs hfirst h0)
  cases h
  exact hclosed

theorem pickedInputs_convex (hs : vset.current.SortedLevels) {level : Nat} {f : FileMetaData α}
    (hf : f ∈ vset.current.files level) {inputs0 : List (FileMetaData α)}
    (h : vset.pickedInputs level f = some inputs0) : ConvexInputs level (vset.current.files level) inputs0 := by
  unfold pickedInputs at h
  split at h
  · rename_i hlevel
    subst hlevel
    simp only [Option.bind_eq_bind, Option.bind_eq_some_iff] at h
    obtain ⟨range, -, overlapping, hoverlap, -, -, h⟩ := h
    cases h
    obtain ⟨-, rfl⟩ := Version.getOverlappingInputs_eq hoverlap
    exact ConvexInputs.overlapping (hs 0) _ _
  · rename_i hlevel
    cases h
    have hl : 1 ≤ level := Nat.pos_of_ne_zero hlevel
    exact ConvexInputs.singleton hl (hs level hl) hf

theorem pickCompaction_closed (hs : vset.current.SortedLevels) (hseek : SeekFileKnown vset.current)
    {c : Compaction α} {vset' : VersionSet α} (h : vset.pickCompaction = some (some (c, vset'))) :
    ClosedCompaction vset.current c.level c.inputs0 c.inputs1 := by
  obtain ⟨level, f, inputs0, hstart, hpicked, hsetup⟩ := pickCompaction_cases h
  exact setupOtherInputs_closed hs hsetup (pickedInputs_convex hs (compactionStart_mem hseek hstart) hpicked)

theorem compactRange_closed (hs : vset.current.SortedLevels) {level : Nat}
    {begin_ end_ : Option (InternalKey α)} {c : Compaction α} {vset' : VersionSet α}
    (h : vset.compactRange level begin_ end_ = some (some (c, vset'))) :
    ClosedCompaction vset.current c.level c.inputs0 c.inputs1 := by
  obtain ⟨inputs, hoverlap, -, hsetup⟩ := compactRange_cases h
  have hsub := Version.getOverlappingInputs_some hoverlap
  obtain ⟨-, rfl⟩ := Version.getOverlappingInputs_eq hoverlap
  have hconvex : ConvexInputs level (vset.current.files level) _ :=
    ConvexInputs.overlapping (hs level) (begin_.map (·.userKey)) (end_.map (·.userKey))
  refine setupOtherInputs_closed hs hsetup ?_
  dsimp only
  split
  · rename_i hlevel
    exact hconvex.initial hlevel (hs level hlevel) hsub (limitInputs_initial _ _ _)
  · exact hconvex

end VersionSet

/-! ## Entries and inputs -/

/-- Of every user key, the entries of `f` are newer than those of `g`. -/
def NewerBy (entries : FileMetaData α → List (InternalKey α × Bytes)) (f g : FileMetaData α) : Prop :=
  ∀ x ∈ entries f, ∀ y ∈ entries g, x.1.userKey = y.1.userKey → x.1 < y.1

/-- Sorted files, within their bounds, on sorted levels; lower levels are newer, and so is, of any two files
of level 0, one of them. -/
structure Layers (entries : FileMetaData α → List (InternalKey α × Bytes)) (v : Version α) : Prop where
  sorted : ∀ level, ∀ f ∈ v.files level, (entries f).Pairwise fun x y => x.1 < y.1
  within : ∀ level, ∀ f ∈ v.files level, ∀ x ∈ entries f, f.smallest ≤ x.1 ∧ x.1 ≤ f.largest
  sortedLevels : v.SortedLevels
  levels : ∀ level level', level < level' → ∀ f ∈ v.files level, ∀ g ∈ v.files level', NewerBy entries f g
  level0 : (v.files 0).Pairwise fun f g => NewerBy entries f g ∨ NewerBy entries g f

section Entries
variable {entries : FileMetaData α → List (InternalKey α × Bytes)} {v : Version α}

/-- Nothing else is at the place of a file of a level. -/
theorem Layers.key_ne (hv : Layers entries v) {level level' : Nat} {f g : FileMetaData α}
    (hf : f ∈ v.files level) (hg : g ∈ v.files level') (hne : level = level' → f ≠ g)
    {x y : InternalKey α × Bytes} (hx : x ∈ entries f) (hy : y ∈ entries g) : x.1 ≠ y.1 := by
  intro hkey
  rcases lt_trichotomy level level' with hlt | rfl | hlt
  · exact (hv.levels level level' hlt f hf g hg x hx y hy (congrArg _ hkey)).ne hkey
  · by_cases hlevel : level = 0
    · subst hlevel
      have hor : NewerBy entries f g ∨ NewerBy entries g f := by
        have : Std.Symm fun f g : FileMetaData α => NewerBy entries f g ∨ NewerBy entries g f :=
          ⟨fun _ _ => Or.symm⟩
        exact hv.level0.forall hf hg (hne rfl)
      rcases hor with hnewer | hnewer
      · exact (hnewer x hx y hy (congrArg _ hkey)).ne hkey
      · exact (hnewer y hy x hx (congrArg _ hkey.symm)).ne hkey.symm
    · have hxf := hv.within _ f hf x hx
      have hyg := hv.within _ g hg y hy
      rcases (hv.sortedLevels level (Nat.pos_of_ne_zero hlevel)).before_or_after hf hg with rfl | hlt | hlt
      · exact hne rfl rfl
      · exact (lt_of_le_of_lt hxf.2 (lt_of_lt_of_le hlt hyg.1)).ne hkey
      · exact (lt_of_le_of_lt hyg.2 (lt_of_lt_of_le hlt hxf.1)).ne hkey.symm
  · exact (hv.levels level' level hlt g hg f hf y hy x hx (congrArg _ hkey.symm)).ne hkey.symm

/-- The file, of this level, is an input. -/
def Compaction.IsInput (c : Compaction α) (level : Nat) (f : FileMetaData α) : Prop :=
  (level = c.level ∧ f ∈ c.inputs0) ∨ (level = c.level + 1 ∧ f ∈ c.inputs1)

variable {c : Compaction α}

/-- What `SetupOtherInputs` leaves: files of the version, closed at both levels. -/
structure Compaction.SetUp (c : Compaction α) (v : Version α) : Prop where
  inputs : InputsOfVersion v c.level c.inputs0 c.inputs1
  closed : ClosedCompaction v c.level c.inputs0 c.inputs1

theorem Compaction.SetUp.mem (h : c.SetUp v) {level : Nat} {f : FileMetaData α} (hf : c.IsInput level f) :
    f ∈ v.files level := by
  rcases hf with ⟨rfl, hf⟩ | ⟨rfl, hf⟩
  · exact h.inputs.inputs0.mem hf
  · exact h.inputs.inputs1.mem hf

namespace VersionSet

variable {vset vset' : VersionSet α}

theorem setupOtherInputs_current {c' : Compaction α} (h : vset.setupOtherInputs c = some (c', vset')) :
    vset'.current = vset.current := by
  simp only [setupOtherInputs, Option.bind_eq_bind, Option.bind_eq_some_iff] at h
  obtain ⟨_, -, _, -, _, -, h⟩ := h
  cases h
  rfl

/-- The compactions there are, of any kind, are set up, and the current version stays. -/
theorem setUp_of_some (hs : vset.current.SortedLevels) (hseek : SeekFileKnown vset.current)
    (hc : vset.pickCompaction = some (some (c, vset')) ∨
      ∃ level begin_ end_, vset.compactRange level begin_ end_ = some (some (c, vset'))) :
    c.SetUp vset.current ∧ vset'.current = vset.current := by
  rcases hc with hc | ⟨level, begin_, end_, hc⟩
  · obtain ⟨_, _, _, -, -, hsetup⟩ := pickCompaction_cases hc
    exact ⟨⟨(pickCompaction_some hs hseek hc).1, pickCompaction_closed hs hseek hc⟩, setupOtherInputs_current hsetup⟩
  · obtain ⟨_, -, -, hsetup⟩ := compactRange_cases hc
    exact ⟨⟨(compactRange_some hs hc).1, compactRange_closed hs hc⟩, setupOtherInputs_current hsetup⟩

end VersionSet

/-- **Whatever is older than an entry of an input is an input too**, or lies below the outputs. -/
theorem Compaction.SetUp.older_below (h : c.SetUp v) (hv : Layers entries v) {level level' : Nat}
    {f g : FileMetaData α} (hf : c.IsInput level f) (hg : g ∈ v.files level') (hnot : ¬ c.IsInput level' g)
    {d y : InternalKey α × Bytes} (hd : d ∈ entries f) (hy : y ∈ entries g)
    (hu : d.1.userKey = y.1.userKey) (hlt : d.1 < y.1) : c.level + 2 ≤ level' := by
  have hdf := hv.within _ f (h.mem hf) d hd
  have hyg := hv.within _ g hg y hy
  -- `g` does not end before `f` starts, nor does it start after the user keys of `f`
  have hbefore : ¬ g.largest < f.smallest := fun hgf =>
    absurd (hyg.2.trans_lt (hgf.trans_le hdf.1)) hlt.asymm
  have huserBefore : ¬ g.largest.userKey < f.smallest.userKey := fun hgf =>
    hbefore (InternalKey.lt_iff.2 (Or.inl hgf))
  have hafter : ¬ f.largest.userKey < g.smallest.userKey := fun hfg =>
    absurd hu ((InternalKey.userKey_le hdf.2).trans_lt (hfg.trans_le (InternalKey.userKey_le hyg.1))).ne
  -- nor is it newer
  have hnewer : ¬ NewerBy entries g f := fun hgf => absurd (hgf y hy d hd hu.symm) hlt.asymm
  by_contra hlevel
  rcases hf with ⟨rfl, hf⟩ | ⟨rfl, hf⟩
  · rcases lt_trichotomy level' c.level with hl | rfl | hl
    · exact hnewer (hv.levels level' c.level hl g hg f (h.inputs.inputs0.mem hf))
    · have hout : g ∉ c.inputs0 := fun hin => hnot (Or.inl ⟨rfl, hin⟩)
      by_cases hzero : c.level = 0
      · rcases h.closed.upper.zero hzero g hg hout f hf with hapart | hapart
        · exact hafter hapart
        · exact huserBefore hapart
      · rcases h.closed.upper.deeper (Nat.pos_of_ne_zero hzero) g hg hout with hside | hside
        · exact hbefore (hside f hf)
        · exact hafter (hside f hf)
    · obtain rfl : level' = c.level + 1 := by omega
      have hout : g ∉ c.inputs1 := fun hin => hnot (Or.inr ⟨rfl, hin⟩)
      rcases h.closed.lower g hg hout with ⟨hside, -⟩ | ⟨hside, -⟩
      · exact huserBefore (hside f hf)
      · exact hafter (hside f hf)
  · rcases lt_trichotomy level' (c.level + 1) with hl | rfl | hl
    · exact hnewer (hv.levels level' (c.level + 1) hl g hg f (h.inputs.inputs1.mem hf))
    · have hout : g ∉ c.inputs1 := fun hin => hnot (Or.inr ⟨rfl, hin⟩)
      rcases h.closed.lower g hg hout with ⟨-, hside⟩ | ⟨-, hside⟩
      · exact hbefore (hside f hf)
      · exact hafter (hside f hf)
    · omega

/-! ## The input -/

/-- The inputs hold nothing twice. -/
theorem Compaction.SetUp.input_sorted (h : c.SetUp v) (hv : Layers entries v)
    (hnodup : ∀ level, (v.files level).Nodup) {input : List (InternalKey α × Bytes)} (hsorted : Sorted input)
    (hperm : input.Perm ((c.inputs0 ++ c.inputs1).flatMap entries)) :
    input.Pairwise fun x y => x.1 < y.1 := by
  have hsame : ∀ {level : Nat} {inputs : List (FileMetaData α)}, inputs.Subperm (v.files level) →
      inputs.Pairwise fun f g => ∀ x ∈ entries f, ∀ y ∈ entries g, x.1 ≠ y.1 := by
    intro level inputs hsub
    obtain ⟨inputs', hp, hs⟩ := hsub
    have hnodup' : inputs.Nodup := hp.nodup_iff.1 ((hnodup level).sublist hs)
    refine List.Pairwise.imp_of_mem (fun {f g} hf hg hne x hx y hy => ?_) hnodup'
    exact hv.key_ne (hs.subset (hp.mem_iff.2 hf)) (hs.subset (hp.mem_iff.2 hg)) (fun _ => hne) hx hy
  have hdistinct : ((c.inputs0 ++ c.inputs1).flatMap entries).Pairwise fun x y => x.1 ≠ y.1 := by
    refine List.pairwise_flatMap.2 ⟨fun f hf => ?_, List.pairwise_append.2 ⟨hsame h.inputs.inputs0.subperm,
      hsame h.inputs.inputs1.subperm, fun f hf g hg x hx y hy => ?_⟩⟩
    · rcases List.mem_append.1 hf with hf | hf
      · exact (hv.sorted _ f (h.inputs.inputs0.mem hf)).imp fun hlt => hlt.ne
      · exact (hv.sorted _ f (h.inputs.inputs1.mem hf)).imp fun hlt => hlt.ne
    · exact hv.key_ne (h.inputs.inputs0.mem hf) (h.inputs.inputs1.mem hg) (fun heq => by omega) hx hy
  have hne : input.Pairwise fun x y => x.1 ≠ y.1 :=
    (hperm.pairwise_iff fun {_ _} hne => Ne.symm hne).2 hdistinct
  exact hsorted.imp₂ (fun {_ _} hle hne => lt_of_le_of_ne hle hne) hne

end Entries

end LevelDbSurf
