import LevelDbSurf.Version

/-!
# Setting up a compaction (`version_set.cc:24-65`, `515-557`, `1203-1501`)

| here | there |
| --- | --- |
| `totalFileSize`        | `TotalFileSize` (`:59`) |
| `Version.getOverlappingInputs` | `Version::GetOverlappingInputs` (`:516`) |
| `getRange`, `getRange2` | `VersionSet::GetRange` (`:1205`), `GetRange2` (`:1229`) |
| `findLargestKey`, `findSmallestBoundaryFile`, `addBoundaryInputs` | the functions of that name (`:1331`, `:1349`, `:1383`) |
| `VersionSet.setupOtherInputs` | `VersionSet::SetupOtherInputs` (`:1408`) |
| `VersionSet.pickCompaction`, `VersionSet.compactRange` | `VersionSet::PickCompaction` (`:1275`), `CompactRange` (`:1471`) |
| `VersionSet.inputIterators` | the `list` of `VersionSet::MakeInputIterator` (`:1237`) |

A failing `assert` is `none`, and so is reading past the end of a vector. File sizes are summed as the
source does it, in 64 bits. `begin_` and `end_` are the pointers `begin` and `end`, `none` where null.
-/

namespace LevelDbSurf

open Cursors

variable {α : Type} [LinearOrder α]

/-! ## Sizes -/

/-- `TotalFileSize`. -/
def totalFileSize (files : List (FileMetaData α)) : Int64 :=
  files.foldl (fun sum f => (sum.toUInt64 + f.fileSize).toInt64) 0

/-- `TargetFileSize`. -/
def targetFileSize (options : Options) : UInt64 := options.maxFileSize

/-- `ExpandedCompactionByteSizeLimit`. -/
def expandedCompactionByteSizeLimit (options : Options) : Int64 := (25 * targetFileSize options).toInt64

/-- `MaxFileSizeForLevel`: the same for every level. -/
def maxFileSizeForLevel (options : Options) (_level : Nat) : UInt64 := targetFileSize options

/-! ## `GetOverlappingInputs` -/

/-- How a pass over the files of a level ends: with the inputs, or with a range to start over with. -/
inductive Scan (α : Type) [LinearOrder α] where
  | done (inputs : List (FileMetaData α))
  | restart (userBegin userEnd : Option α)

/-- The body of the loop, over the files that are left. -/
def scanFiles (level : Nat) (userBegin userEnd : Option α) :
    List (FileMetaData α) → List (FileMetaData α) → Scan α
  | [], inputs => .done inputs
  | f :: files, inputs =>
    if userBegin.any fun b => decide (f.largest.userKey < b) then
      scanFiles level userBegin userEnd files inputs  -- "completely before specified range"
    else if userEnd.any fun e => decide (e < f.smallest.userKey) then
      scanFiles level userBegin userEnd files inputs  -- "completely after specified range"
    else if level = 0 ∧ userBegin.any (fun b => decide (f.smallest.userKey < b)) then
      .restart (some f.smallest.userKey) userEnd
    else if level = 0 ∧ userEnd.any (fun e => decide (e < f.largest.userKey)) then
      .restart userBegin (some f.largest.userKey)
    else scanFiles level userBegin userEnd files (inputs ++ [f])

/-- Files that reach below the range, and files that reach above it: fewer after each restart. -/
def reachOut (files : List (FileMetaData α)) (userBegin userEnd : Option α) : Nat :=
  files.countP (fun f => userBegin.any fun b => decide (f.smallest.userKey < b)) +
    files.countP fun f => userEnd.any fun e => decide (e < f.largest.userKey)

theorem countP_lt {τ : Type} {p q : τ → Bool} {l : List τ} {a : τ} (h : ∀ x ∈ l, p x = true → q x = true)
    (ha : a ∈ l) (hp : p a = false) (hq : q a = true) : l.countP p < l.countP q := by
  induction l with
  | nil => cases ha
  | cons b l ih =>
    have hl : ∀ x ∈ l, p x = true → q x = true := fun x hx => h x (List.mem_cons_of_mem _ hx)
    have hle := List.countP_mono_left hl
    rw [List.countP_cons, List.countP_cons]
    rcases List.mem_cons.1 ha with rfl | ha
    · rw [hp, hq]
      simp only [Bool.false_eq_true, if_false, if_true]
      omega
    · have hlt := ih hl ha
      have hb := h b List.mem_cons_self
      cases hpb : p b with
      | false =>
        simp only [Bool.false_eq_true, if_false]
        omega
      | true =>
        simp only [hb hpb, if_true]
        omega

/-- `f` reaches out of the range, and the next range takes it in on that side. -/
def ReachesOut (userBegin userEnd b e : Option α) (f : FileMetaData α) : Prop :=
  (∃ x, userBegin = some x ∧ f.smallest.userKey < x ∧ b = some f.smallest.userKey ∧ e = userEnd) ∨
    ∃ x, userEnd = some x ∧ x < f.largest.userKey ∧ b = userBegin ∧ e = some f.largest.userKey

/-- A pass starts over only because of a file that reaches out of the range. -/
theorem scanFiles_restart {level : Nat} {userBegin userEnd b e : Option α}
    {files inputs : List (FileMetaData α)}
    (h : scanFiles level userBegin userEnd files inputs = .restart b e) :
    ∃ f ∈ files, ReachesOut userBegin userEnd b e f := by
  induction files generalizing inputs with
  | nil => cases h
  | cons f files ih =>
    have hrest : ∀ {inputs}, scanFiles level userBegin userEnd files inputs = .restart b e →
        ∃ g ∈ f :: files, ReachesOut userBegin userEnd b e g := by
      intro inputs h
      obtain ⟨g, hg, hout⟩ := ih h
      exact ⟨g, List.mem_cons_of_mem f hg, hout⟩
    rw [scanFiles] at h
    split at h
    · exact hrest h
    · split at h
      · exact hrest h
      · split at h
        · rename_i hout
          obtain ⟨x, hx, hlt⟩ := (Option.any_eq_true _ _).1 hout.2
          cases h
          exact ⟨f, List.mem_cons_self, Or.inl ⟨x, hx, by simpa using hlt, rfl, rfl⟩⟩
        · split at h
          · rename_i hout
            obtain ⟨x, hx, hlt⟩ := (Option.any_eq_true _ _).1 hout.2
            cases h
            exact ⟨f, List.mem_cons_self, Or.inr ⟨x, hx, by simpa using hlt, rfl, rfl⟩⟩
          · exact hrest h

theorem reachOut_lt {level : Nat} {userBegin userEnd b e : Option α} {files inputs : List (FileMetaData α)}
    (h : scanFiles level userBegin userEnd files inputs = .restart b e) :
    reachOut files b e < reachOut files userBegin userEnd := by
  obtain ⟨f, hf, ⟨x, rfl, hlt, rfl, rfl⟩ | ⟨x, rfl, hlt, rfl, rfl⟩⟩ := scanFiles_restart h
  · refine Nat.add_lt_add_right (countP_lt (a := f) (fun g _ hg => ?_) hf ?_ ?_) _
    · simp only [Option.any_some, decide_eq_true_eq] at hg ⊢
      exact lt_trans hg hlt
    · simp
    · simpa using hlt
  · refine Nat.add_lt_add_left (countP_lt (a := f) (fun g _ hg => ?_) hf ?_ ?_) _
    · simp only [Option.any_some, decide_eq_true_eq] at hg ⊢
      exact lt_trans hlt hg
    · simp
    · simpa using hlt

/-- The loop of `GetOverlappingInputs`, with its restarts. -/
def overlappingInputsLoop (level : Nat) (files : List (FileMetaData α)) (userBegin userEnd : Option α) :
    List (FileMetaData α) :=
  match _h : scanFiles level userBegin userEnd files [] with
  | .done inputs => inputs
  | .restart b e => overlappingInputsLoop level files b e
termination_by reachOut files userBegin userEnd
decreasing_by exact reachOut_lt _h

/-- `GetOverlappingInputs`. -/
def Version.getOverlappingInputs (v : Version α) (level : Nat) (begin_ end_ : Option (InternalKey α)) :
    Option (List (FileMetaData α)) :=
  if level < kNumLevels then
    some (overlappingInputsLoop level (v.files level) (begin_.map (·.userKey)) (end_.map (·.userKey)))
  else none

/-! ## Ranges and boundary files -/

/-- `GetRange`: `*smallest` and `*largest`. -/
def getRange : List (FileMetaData α) → Option (InternalKey α × InternalKey α)
  | [] => none
  | f :: files => some (files.foldl (fun (smallest, largest) f =>
      (if f.smallest < smallest then f.smallest else smallest,
        if f.largest > largest then f.largest else largest)) (f.smallest, f.largest))

/-- `GetRange2`. -/
def getRange2 (inputs1 inputs2 : List (FileMetaData α)) : Option (InternalKey α × InternalKey α) :=
  getRange (inputs1 ++ inputs2)

/-- `FindLargestKey`. -/
def findLargestKey : List (FileMetaData α) → Option (InternalKey α)
  | [] => none
  | f :: files => some (files.foldl (fun largestKey f =>
      if f.largest > largestKey then f.largest else largestKey) f.largest)

/-- The body of the loop of `FindSmallestBoundaryFile`. -/
def smallerBoundaryFile (largestKey : InternalKey α) (smallestBoundaryFile : Option (FileMetaData α))
    (f : FileMetaData α) : Option (FileMetaData α) :=
  if f.smallest > largestKey ∧ f.smallest.userKey = largestKey.userKey then
    match smallestBoundaryFile with
    | none => some f
    | some g => if f.smallest < g.smallest then some f else some g
  else smallestBoundaryFile

/-- `FindSmallestBoundaryFile`. -/
def findSmallestBoundaryFile (levelFiles : List (FileMetaData α)) (largestKey : InternalKey α) :
    Option (FileMetaData α) :=
  levelFiles.foldl (smallerBoundaryFile largestKey) none

/-- What `FindSmallestBoundaryFile` returns is one of the files, and a boundary file. -/
theorem findSmallestBoundaryFile_some {levelFiles : List (FileMetaData α)} {largestKey : InternalKey α}
    {f : FileMetaData α} (h : findSmallestBoundaryFile levelFiles largestKey = some f) :
    f ∈ levelFiles ∧ largestKey < f.smallest ∧ f.smallest.userKey = largestKey.userKey := by
  -- the loop keeps what it has found so far
  have hloop : ∀ (files : List (FileMetaData α)) (found : Option (FileMetaData α)),
      (∀ g, found = some g → g ∈ levelFiles ∧ largestKey < g.smallest ∧ g.smallest.userKey = largestKey.userKey) →
      (∀ g ∈ files, g ∈ levelFiles) →
      files.foldl (smallerBoundaryFile largestKey) found = some f →
      f ∈ levelFiles ∧ largestKey < f.smallest ∧ f.smallest.userKey = largestKey.userKey := by
    intro files
    induction files with
    | nil =>
      intro found hfound _ h
      exact hfound f h
    | cons a files ih =>
      intro found hfound hfiles h
      refine ih (smallerBoundaryFile largestKey found a) ?_ (fun g hg => hfiles g (List.mem_cons_of_mem _ hg)) h
      intro g hg
      unfold smallerBoundaryFile at hg
      split at hg
      · rename_i ha
        cases found with
        | none =>
          cases hg
          exact ⟨hfiles a List.mem_cons_self, ha.1, ha.2⟩
        | some b =>
          dsimp only at hg
          split at hg
          · cases hg
            exact ⟨hfiles a List.mem_cons_self, ha.1, ha.2⟩
          · exact hfound g hg
      · exact hfound g hg
  exact hloop levelFiles none (by rintro g ⟨⟩) (fun _ h => h) h

/-- The loop of `AddBoundaryInputs`. -/
def addBoundaryLoop (levelFiles : List (FileMetaData α)) (largestKey : InternalKey α)
    (compactionFiles : List (FileMetaData α)) : List (FileMetaData α) :=
  match _h : findSmallestBoundaryFile levelFiles largestKey with
  | some smallestBoundaryFile =>
    addBoundaryLoop levelFiles smallestBoundaryFile.largest (compactionFiles ++ [smallestBoundaryFile])
  | none => compactionFiles
termination_by levelFiles.countP fun f => decide (largestKey < f.smallest)
decreasing_by
  -- the file found lies above the old key and not above its own
  obtain ⟨hf, hlt, -⟩ := findSmallestBoundaryFile_some _h
  refine countP_lt (a := smallestBoundaryFile) (fun g _ hg => ?_) hf ?_ ?_
  · simp only [decide_eq_true_eq] at hg ⊢
    exact lt_trans hlt (lt_of_le_of_lt smallestBoundaryFile.ordered hg)
  · simpa using smallestBoundaryFile.ordered
  · simpa using hlt

/-- `AddBoundaryInputs`. -/
def addBoundaryInputs (levelFiles compactionFiles : List (FileMetaData α)) : List (FileMetaData α) :=
  match findLargestKey compactionFiles with
  | none => compactionFiles
  | some largestKey => addBoundaryLoop levelFiles largestKey compactionFiles

/-! ## Compactions -/

/-- `Compaction`, as far as setting it up goes; `editPointers` are the `SetCompactPointer` calls on
its edit. -/
structure Compaction (α : Type) [LinearOrder α] where
  level : Nat
  inputs0 : List (FileMetaData α)
  inputs1 : List (FileMetaData α) := []
  grandparents : List (FileMetaData α) := []
  editPointers : List (Nat × InternalKey α) := []

/-- `inputs_[which]`. -/
def Compaction.inputs (c : Compaction α) (which : Nat) : List (FileMetaData α) :=
  if which = 0 then c.inputs0 else c.inputs1

/-- The parts of `VersionSet` that compactions use. `compactPointer` is `none` for an empty string. -/
structure VersionSet (α : Type) [LinearOrder α] where
  options : Options
  tableCache : TableCache α
  current : Version α
  compactPointer : Nat → Option (InternalKey α) := fun _ => none

/-- The locals of `SetupOtherInputs` once both input lists are known; `largest` is the new compact
pointer. -/
structure OtherInputs (α : Type) [LinearOrder α] where
  inputs0 : List (FileMetaData α)
  inputs1 : List (FileMetaData α)
  largest : InternalKey α
  allStart : InternalKey α
  allLimit : InternalKey α

namespace VersionSet

/-- The `if (!c->inputs_[1].empty())` of `SetupOtherInputs`: "See if we can grow the number of inputs in
"level" without changing the number of "level+1" files we pick up". -/
def growInputs (vset : VersionSet α) (level : Nat) (i : OtherInputs α) : Option (OtherInputs α) := do
  if i.inputs1.isEmpty then return i
  let expanded0 ← vset.current.getOverlappingInputs level (some i.allStart) (some i.allLimit)
  let expanded0 := addBoundaryInputs (vset.current.files level) expanded0
  let inputs1Size := totalFileSize i.inputs1
  let expanded0Size := totalFileSize expanded0
  if expanded0.length > i.inputs0.length ∧
      inputs1Size + expanded0Size < expandedCompactionByteSizeLimit vset.options then
    let (newStart, newLimit) ← getRange expanded0
    let expanded1 ← vset.current.getOverlappingInputs (level + 1) (some newStart) (some newLimit)
    let expanded1 := addBoundaryInputs (vset.current.files (level + 1)) expanded1
    if expanded1.length = i.inputs1.length then
      let (allStart, allLimit) ← getRange2 expanded0 expanded1
      return { inputs0 := expanded0, inputs1 := expanded1, largest := newLimit, allStart, allLimit }
    else return i
  else return i

/-- `SetupOtherInputs` up to "Get entire range covered by compaction". -/
def firstInputs (vset : VersionSet α) (c : Compaction α) : Option (OtherInputs α) := do
  let level := c.level
  let inputs0 := addBoundaryInputs (vset.current.files level) c.inputs0
  let (smallest, largest) ← getRange inputs0
  let inputs1 ← vset.current.getOverlappingInputs (level + 1) (some smallest) (some largest)
  let inputs1 := addBoundaryInputs (vset.current.files (level + 1)) inputs1
  let (allStart, allLimit) ← getRange2 inputs0 inputs1
  return { inputs0, inputs1, largest, allStart, allLimit }

/-- "Compute the set of grandparent files that overlap this compaction". -/
def grandparents (vset : VersionSet α) (c : Compaction α) (i : OtherInputs α) : Option (List (FileMetaData α)) :=
  if c.level + 2 < kNumLevels then
    vset.current.getOverlappingInputs (c.level + 2) (some i.allStart) (some i.allLimit)
  else some c.grandparents

/-- `SetupOtherInputs`: the compaction, and the version set with the level's compact pointer moved. -/
def setupOtherInputs (vset : VersionSet α) (c : Compaction α) : Option (Compaction α × VersionSet α) := do
  let level := c.level
  let i ← vset.firstInputs c
  let i ← vset.growInputs level i
  let grandparents ← vset.grandparents c i
  return ({ c with
      inputs0 := i.inputs0, inputs1 := i.inputs1, grandparents
      editPointers := c.editPointers ++ [(level, i.largest)] },
    { vset with compactPointer := fun l => if l = level then some i.largest else vset.compactPointer l })

/-- The first file of a size compaction: "the first file that comes after compact_pointer_[level]", or
"wrap-around to the beginning of the key space". -/
def firstFileAfter (vset : VersionSet α) (level : Nat) : Option (FileMetaData α) :=
  match (vset.current.files level).find? fun f =>
      (vset.compactPointer level).all fun pointer => decide (pointer < f.largest) with
  | some f => some f
  | none => (vset.current.files level)[0]?

/-- The level and the file `PickCompaction` starts from; nothing if there is no cause. -/
def compactionStart (vset : VersionSet α) : Option (Option (Nat × FileMetaData α)) :=
  if vset.current.compactionScore ≥ 1 then do
    let level := vset.current.compactionLevel
    guard (level + 1 < kNumLevels)
    let f ← vset.firstFileAfter level
    return some (level, f)
  else
    match vset.current.fileToCompact with
    | some f => some (some (vset.current.fileToCompactLevel, f))
    | none => some none

/-- `inputs_[0]` for the picked file: "Files in level 0 may overlap each other, so pick up all overlapping
ones". -/
def pickedInputs (vset : VersionSet α) (level : Nat) (f : FileMetaData α) : Option (List (FileMetaData α)) :=
  if level = 0 then do
    let (smallest, largest) ← getRange [f]
    let inputs0 ← vset.current.getOverlappingInputs 0 (some smallest) (some largest)
    guard (!inputs0.isEmpty)
    return inputs0
  else some [f]

/-- `PickCompaction`. -/
def pickCompaction (vset : VersionSet α) : Option (Option (Compaction α × VersionSet α)) := do
  match ← vset.compactionStart with
  | none => return none
  | some (level, f) =>
    let inputs0 ← vset.pickedInputs level f
    let r ← vset.setupOtherInputs { level, inputs0 }
    return some r

/-- The loop of `CompactRange` that cuts the inputs at `limit` bytes. -/
def limitInputs (limit : UInt64) : UInt64 → List (FileMetaData α) → List (FileMetaData α)
  | _, [] => []
  | total, f :: files =>
    let total := total + f.fileSize
    if total ≥ limit then [f] else f :: limitInputs limit total files

/-- `CompactRange`. -/
def compactRange (vset : VersionSet α) (level : Nat) (begin_ end_ : Option (InternalKey α)) :
    Option (Option (Compaction α × VersionSet α)) := do
  let inputs ← vset.current.getOverlappingInputs level begin_ end_
  if inputs.isEmpty then return none
  else
    let inputs0 := if level > 0 then limitInputs (maxFileSizeForLevel vset.options level) 0 inputs else inputs
    let r ← vset.setupOtherInputs { level, inputs0 }
    return some r

/-! ## `MakeInputIterator` -/

section Iterators
variable [Slice α] [Coding] [TableFormat]

/-- The read options of a compaction. -/
def inputOptions (vset : VersionSet α) : ReadOptions α :=
  { verifyChecksums := vset.options.paranoidChecks, fillCache := false }

/-- The number of child iterators there is room for. -/
def space (c : Compaction α) : Nat := if c.level = 0 then (c.inputs 0).length + 1 else 2

/-- The iterators over the inputs of one level: one for each level-0 file, a concatenating one for any
other level, all without bounds. -/
def levelIterators (vset : VersionSet α) (level : Nat) (files : List (FileMetaData α)) :
    List (VersionIterator α) :=
  if files.isEmpty then []
  else if level = 0 then
    files.map fun f => .inl
      (vset.tableCache.newIterator vset.inputOptions f.number f.fileSize Slice.nil Slice.nil none).iter
  else [.inr (newLevelIterator vset.tableCache vset.inputOptions files Slice.nil Slice.nil)]

/-- The `list`. -/
def inputIterators (vset : VersionSet α) (c : Compaction α) : List (VersionIterator α) :=
  [0, 1].flatMap fun which => vset.levelIterators (c.level + which) (c.inputs which)

/-- `MakeInputIterator`. -/
def makeInputIterator (M : Merger (InternalKey α) Bytes) (vset : VersionSet α) (c : Compaction α) :
    Behaviour (InternalKey α) Bytes :=
  M.merge ((vset.inputIterators c).map behaviour)

end Iterators

end VersionSet

end LevelDbSurf
