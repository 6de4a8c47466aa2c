import LevelDbSurf.CompactionClosure
import Mathlib.Order.Bounds.Basic

/-!
# The files of level 0 that a range drags in (`version_set.cc:516-556`)

On level 0 `GetOverlappingInputs` widens its range by every file that sticks out of it and starts over.
`OverlapClosed` says what it is after, with no range that moves: a set of files of the level that has all
files overlapping the query, and with each file all that overlap that one. The set of the final pass is
the least of these (`overlappingInputsLoop_isLeast`): a wider range meets no file that did not meet the
range before, or the file it was widened by.
-/

namespace LevelDbSurf

variable {α : Type} [LinearOrder α]

/-! ## Overlap -/

/-- The user key lies between the bounds of the file. -/
def FileMetaData.Spans (f : FileMetaData α) (k : α) : Prop := f.smallest.userKey ≤ k ∧ k ≤ f.largest.userKey

/-- Some user key lies in both files. -/
def FileMetaData.Overlaps (f g : FileMetaData α) : Prop := ∃ k, f.Spans k ∧ g.Spans k

/-- The file ends at or after `begin`, and starts at or before `end`. -/
def FileMetaData.OverlapsRange (userBegin userEnd : Option α) (f : FileMetaData α) : Prop :=
  (∀ b ∈ userBegin, b ≤ f.largest.userKey) ∧ ∀ e ∈ userEnd, f.smallest.userKey ≤ e

/-- What `GetOverlappingInputs` is to return on level 0. -/
structure OverlapClosed (files : List (FileMetaData α)) (userBegin userEnd : Option α)
    (S : Set (FileMetaData α)) : Prop where
  subset : ∀ f ∈ S, f ∈ files
  range : ∀ f ∈ files, f.OverlapsRange userBegin userEnd → f ∈ S
  overlap : ∀ f ∈ S, ∀ g ∈ files, f.Overlaps g → g ∈ S

section Overlap
variable {f g : FileMetaData α}

theorem FileMetaData.overlaps_iff :
    f.Overlaps g ↔ f.smallest.userKey ≤ g.largest.userKey ∧ g.smallest.userKey ≤ f.largest.userKey := by
  constructor
  · rintro ⟨k, hf, hg⟩
    exact ⟨hf.1.trans hg.2, hg.1.trans hf.2⟩
  · rintro ⟨hfg, hgf⟩
    have hf := f.userKey_ordered
    have hg := g.userKey_ordered
    refine ⟨max f.smallest.userKey g.smallest.userKey, ?_, ?_⟩ <;> simp [Spans, *]

theorem FileMetaData.Overlaps.symm (h : f.Overlaps g) : g.Overlaps f := by
  obtain ⟨k, hf, hg⟩ := h
  exact ⟨k, hg, hf⟩

theorem not_overlaps_iff_apart : ¬ f.Overlaps g ↔ Apart f g := by
  rw [FileMetaData.overlaps_iff, Apart]
  constructor
  · intro h
    by_contra hno
    simp only [not_or, not_lt] at hno
    exact h ⟨hno.2, hno.1⟩
  · rintro (hlt | hlt) ⟨hfg, hgf⟩
    · exact absurd hgf (not_le.2 hlt)
    · exact absurd hfg (not_le.2 hlt)

theorem overlapsRange_iff {b e : Option α} : f.OverlapsRange b e ↔ meetsRange b e f = true :=
  meetsRange_iff.symm

/-- Unless `end` lies before `begin`, to overlap the range is to have a user key in it. -/
theorem FileMetaData.overlapsRange_iff_spans {userBegin userEnd : Option α}
    (h : ∀ b ∈ userBegin, ∀ e ∈ userEnd, b ≤ e) :
    f.OverlapsRange userBegin userEnd ↔ ∃ k, f.Spans k ∧ (∀ b ∈ userBegin, b ≤ k) ∧ ∀ e ∈ userEnd, k ≤ e := by
  have hf := f.userKey_ordered
  constructor
  · rintro ⟨hb, he⟩
    cases userBegin with
    | none => exact ⟨f.smallest.userKey, ⟨le_refl _, hf⟩, by simp, he⟩
    | some b =>
      have hb := hb b rfl
      refine ⟨max b f.smallest.userKey, ⟨le_max_right _ _, max_le hb hf⟩, by simp, fun e hmem => ?_⟩
      exact max_le (h b rfl e hmem) (he e hmem)
  · rintro ⟨k, hk, hb, he⟩
    exact ⟨fun b hmem => (hb b hmem).trans hk.2, fun e hmem => hk.1.trans (he e hmem)⟩

/-- The range of one file overlaps what the file overlaps. -/
theorem overlapsRange_file :
    g.OverlapsRange (some f.smallest.userKey) (some f.largest.userKey) ↔ f.Overlaps g := by
  rw [FileMetaData.overlaps_iff]
  simp [FileMetaData.OverlapsRange]

end Overlap

/-! ## One restart -/

section Scan
variable {level : Nat} {files inputs : List (FileMetaData α)} {userBegin userEnd b e : Option α}

/-- A pass starts over because of a file that it would otherwise have taken. -/
theorem scanFiles_restart_meets (h : scanFiles level userBegin userEnd files inputs = .restart b e) :
    ∃ f ∈ files, meetsRange userBegin userEnd f = true ∧ ReachesOut userBegin userEnd b e f := by
  induction files generalizing inputs with
  | nil => cases h
  | cons f files ih =>
    have hrest : ∀ {inputs}, scanFiles level userBegin userEnd files inputs = .restart b e →
        ∃ g ∈ f :: files, meetsRange userBegin userEnd g = true ∧ ReachesOut userBegin userEnd b e g := by
      intro inputs h
      obtain ⟨g, hg, hout⟩ := ih h
      exact ⟨g, List.mem_cons_of_mem f hg, hout⟩
    rw [scanFiles] at h
    by_cases hbefore : userBegin.any (fun b => decide (f.largest.userKey < b)) = true
    · rw [if_pos hbefore] at h
      exact hrest h
    rw [if_neg hbefore] at h
    by_cases hafter : userEnd.any (fun e => decide (e < f.smallest.userKey)) = true
    · rw [if_pos hafter] at h
      exact hrest h
    rw [if_neg hafter] at h
    have hmeets : meetsRange userBegin userEnd f = true := by simp [meetsRange, hbefore, hafter]
    split at h
    · rename_i hout
      obtain ⟨x, hx, hlt⟩ := (Option.any_eq_true _ _).1 hout.2
      cases h
      exact ⟨f, List.mem_cons_self, hmeets, Or.inl ⟨x, hx, by simpa using hlt, rfl, rfl⟩⟩
    · split at h
      · rename_i hout
        obtain ⟨x, hx, hlt⟩ := (Option.any_eq_true _ _).1 hout.2
        cases h
        exact ⟨f, List.mem_cons_self, hmeets, Or.inr ⟨x, hx, by simpa using hlt, rfl, rfl⟩⟩
      · exact hrest h

/-- The wider range overlaps what the old one overlaps, and of other files only those that overlap the file
it was widened by. -/
theorem ReachesOut.overlapsRange {f : FileMetaData α} (hout : ReachesOut userBegin userEnd b e f)
    (hf : f.OverlapsRange userBegin userEnd) (g : FileMetaData α) :
    (g.OverlapsRange userBegin userEnd → g.OverlapsRange b e) ∧
      (g.OverlapsRange b e → g.OverlapsRange userBegin userEnd ∨ f.Overlaps g) := by
  have hg := g.userKey_ordered
  obtain ⟨x, rfl, hlt, rfl, rfl⟩ | ⟨x, rfl, hlt, rfl, rfl⟩ := hout
  · -- the lower bound falls from `x` to where `f` starts
    refine ⟨fun h => ⟨?_, h.2⟩, fun h => ?_⟩
    · have hx := h.1 x rfl
      simpa using hlt.le.trans hx
    · by_cases hx : x ≤ g.largest.userKey
      · exact Or.inl ⟨by simpa using hx, h.2⟩
      · refine Or.inr (FileMetaData.overlaps_iff.2 ⟨h.1 _ rfl, ?_⟩)
        exact hg.trans ((not_le.1 hx).le.trans (hf.1 x rfl))
  · refine ⟨fun h => ⟨h.1, ?_⟩, fun h => ?_⟩
    · have hx := h.2 x rfl
      simpa using hx.trans hlt.le
    · by_cases hx : g.smallest.userKey ≤ x
      · exact Or.inl ⟨h.1, by simpa using hx⟩
      · refine Or.inr (FileMetaData.overlaps_iff.2 ⟨?_, h.2 _ rfl⟩)
        exact (hf.2 x rfl).trans ((not_le.1 hx).le.trans hg)

/-- A restart asks for the same set: what is closed for the wider range is closed for the old one, and
conversely. -/
theorem overlapClosed_restart (h : scanFiles level userBegin userEnd files inputs = .restart b e)
    (S : Set (FileMetaData α)) : OverlapClosed files b e S ↔ OverlapClosed files userBegin userEnd S := by
  obtain ⟨f, hf, hmeets, hout⟩ := scanFiles_restart_meets h
  have hrange := overlapsRange_iff.2 hmeets
  constructor
  · intro hS
    exact ⟨hS.subset, fun g hg hover => hS.range g hg ((hout.overlapsRange hrange g).1 hover), hS.overlap⟩
  · intro hS
    refine ⟨hS.subset, fun g hg hover => ?_, hS.overlap⟩
    rcases (hout.overlapsRange hrange g).2 hover with hold | hfg
    · exact hS.range g hg hold
    · exact hS.overlap f (hS.range f hf hrange) g hg hfg

/-- The final pass sees a range that no file it takes reaches out of, so what it takes is closed. -/
theorem scanFiles_done_isLeast {r : List (FileMetaData α)}
    (h : scanFiles 0 userBegin userEnd files [] = .done r) :
    IsLeast {S | OverlapClosed files userBegin userEnd S} {f | f ∈ r} := by
  obtain ⟨hr, hin⟩ := scanFiles_done_eq h
  have hmem : ∀ f, f ∈ r ↔ f ∈ files ∧ f.OverlapsRange userBegin userEnd := by
    intro f
    rw [hr, List.nil_append, List.mem_filter, overlapsRange_iff]
  constructor
  · refine ⟨fun f hf => ((hmem f).1 hf).1, fun f hf hover => (hmem f).2 ⟨hf, hover⟩, fun f hf g hg hfg => ?_⟩
    obtain ⟨hf, hover⟩ := (hmem f).1 hf
    obtain ⟨hlow, hhigh⟩ := hin rfl f hf (overlapsRange_iff.1 hover)
    obtain ⟨hfg, hgf⟩ := FileMetaData.overlaps_iff.1 hfg
    exact (hmem g).2 ⟨hg, fun b hb => (hlow b hb).trans hfg, fun e he => hgf.trans (hhigh e he)⟩
  · intro S hS f hf
    obtain ⟨hf, hover⟩ := (hmem f).1 hf
    exact hS.range f hf hover

end Scan

/-! ## The whole search -/

section Loop
variable (files : List (FileMetaData α)) (userBegin userEnd : Option α)

/-- **The least closed set** is what the loop returns on level 0. -/
theorem overlappingInputsLoop_isLeast :
    IsLeast {S | OverlapClosed files userBegin userEnd S}
      {f | f ∈ overlappingInputsLoop 0 files userBegin userEnd} := by
  fun_induction overlappingInputsLoop 0 files userBegin userEnd with
  | case1 userBegin userEnd inputs h => exact scanFiles_done_isLeast h
  | case2 userBegin userEnd b e h ih =>
    rwa [Set.ext fun S => overlapClosed_restart h S] at ih

/-- Each file of the set is taken where the list has it. -/
theorem overlappingInputsLoop_filter :
    overlappingInputsLoop 0 files userBegin userEnd =
      files.filter fun f => decide (f ∈ overlappingInputsLoop 0 files userBegin userEnd) := by
  obtain ⟨b, e, hr, -⟩ := overlappingInputsLoop_zero files userBegin userEnd
  rw [hr]
  refine List.filter_congr fun f hf => ?_
  simp [hf]

/-- The loop, given up after `n` passes. -/
def overlappingInputsPasses (level : Nat) (files : List (FileMetaData α)) :
    Nat → Option α → Option α → Option (List (FileMetaData α))
  | 0, _, _ => none
  | n + 1, userBegin, userEnd =>
    match scanFiles level userBegin userEnd files [] with
    | .done inputs => some inputs
    | .restart b e => overlappingInputsPasses level files n b e

theorem overlappingInputsPasses_eq (level : Nat) {n : Nat} (hn : reachOut files userBegin userEnd < n) :
    overlappingInputsPasses level files n userBegin userEnd =
      some (overlappingInputsLoop level files userBegin userEnd) := by
  induction n generalizing userBegin userEnd with
  | zero => omega
  | succ n ih =>
    rw [overlappingInputsPasses, overlappingInputsLoop]
    split
    · rename_i inputs h
      split
      · rename_i inputs' h'
        cases h.symm.trans h'
        rfl
      · rename_i b e h'
        cases h.symm.trans h'
    · rename_i b e h
      have hlt := reachOut_lt h
      split
      · rename_i inputs' h'
        cases h.symm.trans h'
      · rename_i b' e' h'
        cases h.symm.trans h'
        exact ih b e (by omega)

theorem reachOut_le : reachOut files userBegin userEnd ≤ 2 * files.length := by
  have hcount : ∀ p : FileMetaData α → Bool, files.countP p ≤ files.length := fun p => List.countP_le_length
  have hlow := hcount fun f => userBegin.any fun b => decide (f.smallest.userKey < b)
  have hhigh := hcount fun f => userEnd.any fun e => decide (e < f.largest.userKey)
  unfold reachOut
  omega

end Loop

/-- **Level-0 overlap search.** For all files of level 0 and every `begin` and `end`, either possibly null,
`GetOverlappingInputs` ends, after at most two restarts for each file, and returns exactly the files of
the least set that has every file overlapping the range and is closed under overlap, each as often and in
the order the level lists it. -/
theorem getOverlappingInputs_least (v : Version α) (begin_ end_ : Option (InternalKey α)) :
    ∃ inputs, v.getOverlappingInputs 0 begin_ end_ = some inputs ∧
      overlappingInputsPasses 0 (v.files 0) (2 * (v.files 0).length + 1) (begin_.map (·.userKey))
        (end_.map (·.userKey)) = some inputs ∧
      IsLeast {S | OverlapClosed (v.files 0) (begin_.map (·.userKey)) (end_.map (·.userKey)) S} {f | f ∈ inputs} ∧
      inputs = (v.files 0).filter fun f => decide (f ∈ inputs) := by
  have hlt := Nat.lt_succ_of_le (reachOut_le (v.files 0) (begin_.map (·.userKey)) (end_.map (·.userKey)))
  exact ⟨_, if_pos (by decide), overlappingInputsPasses_eq _ _ _ 0 hlt, overlappingInputsLoop_isLeast _ _ _,
    overlappingInputsLoop_filter _ _ _⟩

/-- On level 0 a picked file brings along the least set that has it and is closed under overlap. -/
theorem VersionSet.pickedInputs_isLeast {vset : VersionSet α} {f : FileMetaData α} (hf : f ∈ vset.current.files 0)
    {inputs0 : List (FileMetaData α)} (h : vset.pickedInputs 0 f = some inputs0) :
    IsLeast {S : Set (FileMetaData α) | f ∈ S ∧ (∀ g ∈ S, g ∈ vset.current.files 0) ∧
      ∀ g ∈ S, ∀ g' ∈ vset.current.files 0, g.Overlaps g' → g' ∈ S} {g | g ∈ inputs0} := by
  have hrange : getRange [f] = some (f.smallest, f.largest) := rfl
  unfold pickedInputs at h
  simp only [if_true, hrange, Option.bind_eq_bind, Option.bind_some, Option.bind_eq_some_iff] at h
  obtain ⟨overlapping, hoverlap, -, -, h⟩ := h
  cases h
  obtain ⟨inputs, hinputs, -, hleast, -⟩ := getOverlappingInputs_least vset.current (some f.smallest) (some f.largest)
  cases hinputs.symm.trans hoverlap
  have hff : f.Overlaps f := FileMetaData.overlaps_iff.2 ⟨f.userKey_ordered, f.userKey_ordered⟩
  have hclosed := hleast.1
  refine ⟨⟨hclosed.range f hf (overlapsRange_file.2 hff), hclosed.subset, hclosed.overlap⟩, fun S hS => ?_⟩
  exact hleast.2 ⟨hS.2.1, fun g hg hover => hS.2.2 f hS.1 g hg (overlapsRange_file.1 hover), hS.2.2⟩

end LevelDbSurf
