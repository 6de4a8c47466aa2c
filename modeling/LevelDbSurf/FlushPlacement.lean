import LevelDbSurf.CompactionWork
import LevelDbSurf.FileSearch
import LevelDbSurf.OverlapClosure

/-!
# Where a flushed memtable goes (`version_set.cc:105-157`, `482-513`)

| here | there |
| --- | --- |
| `afterFile`, `beforeFile` | `AfterFile` (`:105`), `BeforeFile` (`:112`) |
| `someFileOverlapsRange` | `SomeFileOverlapsRange` (`:121`), in numbers |
| `someFileOverlapsRange32` | the same, with the words of `FindFile` |
| `Version.overlapInLevel` | `Version::OverlapInLevel` (`:482`) |
| `Version.pickLevelForMemTableOutput` | `Version::PickLevelForMemTableOutput` (`:488`) |

Below level 0 the check is one binary search, which looks at one file only: the first that does not end before the
range. On sorted levels the files before it end too early and those after it start later (`searchIndex_splits`), so the
search answers as the full scan does (`someFileOverlapsRange_disjoint`), if `FindFile` can count the files; and a table
that is not put on level 0 shares no user key with any file of its level or above (`pickLevelForMemTableOutput_apart`).
-/

namespace LevelDbSurf

variable {α : Type} [LinearOrder α]

/-- `config::kMaxMemCompactLevel` (`db/dbformat.h`). -/
def kMaxMemCompactLevel : Nat := 2

/-- `AfterFile`; "null user_key occurs before all keys". -/
def afterFile (userKey : Option α) (f : FileMetaData α) : Bool :=
  userKey.any fun k => decide (f.largest.userKey < k)

/-- `BeforeFile`; "null user_key occurs after all keys". -/
def beforeFile (userKey : Option α) (f : FileMetaData α) : Bool :=
  userKey.any fun k => decide (k < f.smallest.userKey)

/-- `SomeFileOverlapsRange`. -/
def someFileOverlapsRange (disjointSortedFiles : Bool) (files : List (FileMetaData α))
    (smallestUserKey largestUserKey : Option α) : Bool :=
  if !disjointSortedFiles then
    files.any fun f => !(afterFile smallestUserKey f || beforeFile largestUserKey f)
  else
    let index := match smallestUserKey with
      -- "Find the earliest possible internal key for smallest_user_key"
      | some k => findFile files (lookupKey k kMaxSequenceNumber)
      | none => 0
    match files[index]? with
    | none => false  -- "beginning of range is after all files, so no overlap"
    | some f => !beforeFile largestUserKey f

/-- `SomeFileOverlapsRange`, with the `uint32_t index` that `FindFile` returns, if it does. -/
def someFileOverlapsRange32 (disjointSortedFiles : Bool) (files : List (FileMetaData α))
    (smallestUserKey largestUserKey : Option α) : Option Bool :=
  if !disjointSortedFiles then
    some (files.any fun f => !(afterFile smallestUserKey f || beforeFile largestUserKey f))
  else
    let index := match smallestUserKey with
      | some k => findFile32 files (lookupKey k kMaxSequenceNumber)
      | none => some 0
    index.map fun index =>
      match files[index.toNat]? with
      | none => false
      | some f => !beforeFile largestUserKey f

namespace Version

/-- `OverlapInLevel`. -/
def overlapInLevel (v : Version α) (level : Nat) (smallestUserKey largestUserKey : Option α) : Bool :=
  someFileOverlapsRange (decide (level > 0)) (v.files level) smallestUserKey largestUserKey

/-- The `while` of `PickLevelForMemTableOutput`, for so many more rounds at most. -/
def pickLevelLoop (v : Version α) (options : Options) (smallestUserKey largestUserKey : α) : Nat → Nat → Nat
  | 0, level => level
  | rounds + 1, level =>
    if v.overlapInLevel (level + 1) (some smallestUserKey) (some largestUserKey) then level
    else if level + 2 < kNumLevels ∧ (v.getOverlappingInputs (level + 2)
        (some (lookupKey smallestUserKey kMaxSequenceNumber))
        (some ⟨largestUserKey, packSequenceAndType 0 .deletion⟩)).any
          (fun overlaps => decide (totalFileSize overlaps > maxGrandParentOverlapBytes options)) then level
    else v.pickLevelLoop options smallestUserKey largestUserKey rounds (level + 1)

/-- `PickLevelForMemTableOutput`. -/
def pickLevelForMemTableOutput (v : Version α) (options : Options) (smallestUserKey largestUserKey : α) : Nat :=
  if !v.overlapInLevel 0 (some smallestUserKey) (some largestUserKey) then
    v.pickLevelLoop options smallestUserKey largestUserKey kMaxMemCompactLevel 0
  else 0

end Version

/-! ## The overlap test -/

/-- The tag has a sequence number and a type that the format can hold. -/
def InternalKey.InFormat (k : InternalKey α) : Prop :=
  k.tag ≤ packSequenceAndType kMaxSequenceNumber kValueTypeForSeek

instance (k : InternalKey α) : Decidable k.InFormat := inferInstanceAs (Decidable (_ ≤ _))

section Overlap
variable {files : List (FileMetaData α)} {smallestUserKey largestUserKey : Option α} {f : FileMetaData α}

theorem afterFile_eq_false : afterFile smallestUserKey f = false ↔ ∀ b ∈ smallestUserKey, b ≤ f.largest.userKey := by
  cases smallestUserKey <;> simp [afterFile]

theorem beforeFile_eq_false : beforeFile largestUserKey f = false ↔ ∀ e ∈ largestUserKey, f.smallest.userKey ≤ e := by
  cases largestUserKey <;> simp [beforeFile]

/-- No file from a place on starts before the one there. -/
theorem LevelSorted.first_smallest (hs : LevelSorted files) {i : Nat} {g : FileMetaData α} (hg : files[i]? = some g)
    (hf : f ∈ files.drop i) : g.smallest.userKey ≤ f.smallest.userKey := by
  obtain ⟨hlt, hget⟩ := List.getElem?_eq_some_iff.1 hg
  rw [List.drop_eq_getElem_cons hlt, hget] at hf
  rcases List.mem_cons.1 hf with rfl | hf
  · exact le_refl _
  · have hgf := Cursors.pairwise_drop hs hg f hf
    exact g.userKey_ordered.trans (InternalKey.userKey_le hgf.le)

/-- **The full scan.** -/
theorem someFileOverlapsRange_scan :
    someFileOverlapsRange false files smallestUserKey largestUserKey = true ↔
      ∃ f ∈ files, f.OverlapsRange smallestUserKey largestUserKey := by
  unfold someFileOverlapsRange
  rw [Bool.not_false, if_pos rfl, List.any_eq_true]
  refine exists_congr fun f => and_congr_right fun _ => ?_
  rw [Bool.not_eq_true', Bool.or_eq_false_iff, afterFile_eq_false, beforeFile_eq_false]
  rfl

/-- Where the binary search starts to look. -/
def searchIndex (files : List (FileMetaData α)) : Option α → Nat
  | some k => findFile files (lookupKey k kMaxSequenceNumber)
  | none => 0

/-- **The place of the search**: the files before it end before the range, and none from it on does. The search key has
the largest sequence number, so it sorts before every entry of its user key. -/
theorem searchIndex_splits (hs : LevelSorted files) (hformat : ∀ f ∈ files, f.largest.InFormat)
    (smallestUserKey : Option α) :
    (∀ f ∈ files.take (searchIndex files smallestUserKey), afterFile smallestUserKey f = true) ∧
      ∀ f ∈ files.drop (searchIndex files smallestUserKey), afterFile smallestUserKey f = false := by
  cases smallestUserKey with
  | none => exact ⟨by simp [searchIndex], fun f _ => rfl⟩
  | some k =>
    obtain ⟨-, hbefore, hfrom⟩ := findFile_brackets hs (lookupKey k kMaxSequenceNumber)
    refine ⟨fun f hf => ?_, fun f hf => ?_⟩
    · rcases InternalKey.lt_iff.1 (hbefore f hf) with hlt | ⟨-, htag⟩
      · exact decide_eq_true (show f.largest.userKey < k from hlt)
      · exact absurd (hformat f (List.mem_of_mem_take hf)) (not_le.2 htag)
    · rw [afterFile_eq_false]
      rintro b ⟨⟩
      exact InternalKey.userKey_le (hfrom f hf)

/-- **The binary search.** -/
theorem someFileOverlapsRange_search (hs : LevelSorted files) (hformat : ∀ f ∈ files, f.largest.InFormat) :
    someFileOverlapsRange true files smallestUserKey largestUserKey = true ↔
      ∃ f ∈ files, f.OverlapsRange smallestUserKey largestUserKey := by
  obtain ⟨hbefore, hfrom⟩ := searchIndex_splits hs hformat smallestUserKey
  have hsearch : someFileOverlapsRange true files smallestUserKey largestUserKey =
      match files[searchIndex files smallestUserKey]? with
      | none => false
      | some f => !beforeFile largestUserKey f := by
    unfold someFileOverlapsRange searchIndex
    cases smallestUserKey <;> rfl
  rw [hsearch]
  constructor
  · intro h
    cases hg : files[searchIndex files smallestUserKey]? with
    | none => simp [hg] at h
    | some g =>
      rw [hg, Bool.not_eq_true', beforeFile_eq_false] at h
      have hdrop : g ∈ files.drop (searchIndex files smallestUserKey) := by
        obtain ⟨hlt, hget⟩ := List.getElem?_eq_some_iff.1 hg
        rw [List.drop_eq_getElem_cons hlt, hget]
        exact List.mem_cons_self
      exact ⟨g, List.mem_of_getElem? hg, afterFile_eq_false.1 (hfrom g hdrop), h⟩
  · rintro ⟨f, hf, hlow, hhigh⟩
    have hdrop : f ∈ files.drop (searchIndex files smallestUserKey) := by
      rw [← List.take_append_drop (searchIndex files smallestUserKey) files, List.mem_append] at hf
      refine hf.resolve_left fun htake => ?_
      have hafter := hbefore f htake
      rw [afterFile_eq_false.2 hlow] at hafter
      cases hafter
    cases hg : files[searchIndex files smallestUserKey]? with
    | none =>
      rw [List.drop_eq_nil_of_le (List.getElem?_eq_none_iff.1 hg)] at hdrop
      cases hdrop
    | some g =>
      rw [Bool.not_eq_true', beforeFile_eq_false]
      exact fun e he => (hs.first_smallest hg hdrop).trans (hhigh e he)

/-- In words, if there are not too many files. -/
theorem someFileOverlapsRange32_eq (hcount : files.length ≤ 2 ^ 31) (disjointSortedFiles : Bool)
    (smallestUserKey largestUserKey : Option α) :
    someFileOverlapsRange32 disjointSortedFiles files smallestUserKey largestUserKey =
      some (someFileOverlapsRange disjointSortedFiles files smallestUserKey largestUserKey) := by
  unfold someFileOverlapsRange32 someFileOverlapsRange
  cases disjointSortedFiles with
  | false => rfl
  | true =>
    cases smallestUserKey with
    | none => rfl
    | some k =>
      obtain ⟨index, hindex, hto⟩ := findFile32_eq hcount (lookupKey k kMaxSequenceNumber)
      simp only [hindex, hto, Bool.not_true, Bool.false_eq_true, if_false, Option.map_some]

/-- **On sorted files the binary search answers as the full scan does**, up to `2^31` of them: whether a file meets the
range. Unless the bounds are inverted that is to have a user key in it. -/
theorem someFileOverlapsRange_disjoint (hs : LevelSorted files) (hformat : ∀ f ∈ files, f.largest.InFormat)
    (hcount : files.length ≤ 2 ^ 31) (smallestUserKey largestUserKey : Option α) :
    ∃ overlaps, someFileOverlapsRange32 true files smallestUserKey largestUserKey = some overlaps ∧
      someFileOverlapsRange32 false files smallestUserKey largestUserKey = some overlaps ∧
      (overlaps = true ↔ ∃ f ∈ files, f.OverlapsRange smallestUserKey largestUserKey) ∧
      ((∀ b ∈ smallestUserKey, ∀ e ∈ largestUserKey, b ≤ e) → ∀ f : FileMetaData α,
        f.OverlapsRange smallestUserKey largestUserKey ↔
          ∃ k, f.Spans k ∧ (∀ b ∈ smallestUserKey, b ≤ k) ∧ ∀ e ∈ largestUserKey, k ≤ e) := by
  have hscan : someFileOverlapsRange true files smallestUserKey largestUserKey =
      someFileOverlapsRange false files smallestUserKey largestUserKey := by
    rw [Bool.eq_iff_iff, someFileOverlapsRange_search hs hformat, someFileOverlapsRange_scan]
  refine ⟨_, someFileOverlapsRange32_eq hcount true smallestUserKey largestUserKey, ?_,
    someFileOverlapsRange_search hs hformat, fun hbounds f => f.overlapsRange_iff_spans hbounds⟩
  rw [someFileOverlapsRange32_eq hcount, hscan]

/-- Two files that share the user key `b`: the first ends with its version 7, the second starts with version 3. -/
def sharedKeyFiles : List (FileMetaData Bytes) :=
  [⟨1, 500, lookupKey [97] 5, lookupKey [98] 7, by decide⟩, ⟨2, 500, lookupKey [98] 3, lookupKey [99] 2, by decide⟩]

/-- The bounds are inverted. -/
theorem someFileOverlapsRange_disjoint_shared :
    someFileOverlapsRange32 true sharedKeyFiles (some [98]) (some [97]) =
      someFileOverlapsRange32 false sharedKeyFiles (some [98]) (some [97]) := by
  have hs : LevelSorted sharedKeyFiles := by
    refine List.pairwise_cons.2 ⟨fun f hf => ?_, List.pairwise_singleton _ _⟩
    rw [List.mem_singleton.1 hf]
    decide
  obtain ⟨overlaps, hsearch, hscan, -⟩ := someFileOverlapsRange_disjoint hs (by decide) (by decide) (some [98])
    (some [97])
  rw [hsearch, hscan]

/-- With `2^31 + 1` files that end before the range, the search never ends. -/
theorem someFileOverlapsRange_too_many :
    ¬ ∀ files : List (FileMetaData Bytes), LevelSorted files → (∀ f ∈ files, f.largest.InFormat) →
      ∀ smallestUserKey largestUserKey, someFileOverlapsRange32 true files smallestUserKey largestUserKey =
        someFileOverlapsRange32 false files smallestUserKey largestUserKey := by
  intro h
  have hformat : ∀ f ∈ SampleCount.files, f.largest.InFormat := by
    intro f hf
    obtain ⟨number, -, rfl⟩ := List.mem_map.1 hf
    show packSequenceAndType _ _ ≤ packSequenceAndType _ _
    unfold packSequenceAndType kMaxSequenceNumber
    omega
  have heq := h SampleCount.files SampleCount.sorted hformat (some [99]) none
  have hsearch : someFileOverlapsRange32 true SampleCount.files (some [99]) none = none := by
    unfold someFileOverlapsRange32
    simp only [SampleCount.past_all, Bool.not_true, Bool.false_eq_true, if_false, Option.map_none]
  rw [hsearch] at heq
  cases heq

/-! ## No overlap found -/

/-- The file shares no user key with the range. -/
def OutOfRange (smallest largest : α) (f : FileMetaData α) : Prop :=
  f.largest.userKey < smallest ∨ largest < f.smallest.userKey

theorem outOfRange_iff {smallest largest : α} :
    OutOfRange smallest largest f ↔ ¬ f.OverlapsRange (some smallest) (some largest) := by
  simp [OutOfRange, FileMetaData.OverlapsRange, or_iff_not_imp_left]

/-- Neither search misses a file. -/
theorem someFileOverlapsRange_false {disjointSortedFiles : Bool} (hs : disjointSortedFiles = true → LevelSorted files)
    (hformat : ∀ f ∈ files, f.largest.InFormat) {smallest largest : α}
    (h : someFileOverlapsRange disjointSortedFiles files (some smallest) (some largest) = false) :
    ∀ f ∈ files, OutOfRange smallest largest f := by
  intro f hf
  rw [outOfRange_iff]
  intro hoverlap
  cases disjointSortedFiles with
  | false => exact absurd (someFileOverlapsRange_scan.2 ⟨f, hf, hoverlap⟩) (by simp [h])
  | true => exact absurd ((someFileOverlapsRange_search (hs rfl) hformat).2 ⟨f, hf, hoverlap⟩) (by simp [h])

end Overlap

namespace Version

variable {v : Version α}

theorem overlapInLevel_false (hs : v.SortedLevels) (hformat : ∀ level, ∀ f ∈ v.files level, f.largest.InFormat)
    {level : Nat} {smallest largest : α} (h : v.overlapInLevel level (some smallest) (some largest) = false) :
    ∀ f ∈ v.files level, OutOfRange smallest largest f := by
  refine someFileOverlapsRange_false (fun hl => ?_) (hformat level) h
  exact hs level (of_decide_eq_true hl)

/-- The loop goes down past levels without overlap only. -/
theorem pickLevelLoop_apart (hs : v.SortedLevels) (hformat : ∀ level, ∀ f ∈ v.files level, f.largest.InFormat)
    (options : Options) (smallest largest : α) (rounds level : Nat) :
    level ≤ v.pickLevelLoop options smallest largest rounds level ∧
      v.pickLevelLoop options smallest largest rounds level ≤ level + rounds ∧
      ∀ level', level < level' → level' ≤ v.pickLevelLoop options smallest largest rounds level →
        ∀ f ∈ v.files level', OutOfRange smallest largest f := by
  induction rounds generalizing level with
  | zero =>
    refine ⟨le_refl _, le_refl _, fun level' hlt hle => ?_⟩
    rw [pickLevelLoop] at hle
    omega
  | succ rounds ih =>
    rw [pickLevelLoop]
    split
    · exact ⟨le_refl _, by omega, fun level' hlt hle => by omega⟩
    · rename_i hover
      split
      · exact ⟨le_refl _, by omega, fun level' hlt hle => by omega⟩
      · obtain ⟨hle, hge, hapart⟩ := ih (level + 1)
        refine ⟨by omega, by omega, fun level' hlt hle' => ?_⟩
        by_cases hnext : level' = level + 1
        · subst hnext
          exact overlapInLevel_false hs hformat (by simpa using hover)
        · exact hapart level' (by omega) hle'

/-- **`PickLevelForMemTableOutput`.** A table that does not go to level 0 shares no user key with a file of
its level or of a level above. -/
theorem pickLevelForMemTableOutput_apart (hs : v.SortedLevels)
    (hformat : ∀ level, ∀ f ∈ v.files level, f.largest.InFormat) (options : Options) (smallest largest : α) :
    v.pickLevelForMemTableOutput options smallest largest ≤ kMaxMemCompactLevel ∧
      (v.pickLevelForMemTableOutput options smallest largest ≠ 0 →
        ∀ level ≤ v.pickLevelForMemTableOutput options smallest largest, ∀ f ∈ v.files level,
          OutOfRange smallest largest f) := by
  unfold pickLevelForMemTableOutput
  split
  · rename_i hover
    obtain ⟨-, hge, hapart⟩ := pickLevelLoop_apart hs hformat options smallest largest
      kMaxMemCompactLevel 0
    refine ⟨by omega, fun _ level hle => ?_⟩
    by_cases hzero : level = 0
    · subst hzero
      exact overlapInLevel_false hs hformat (by simpa using hover)
    · exact hapart level (Nat.pos_of_ne_zero hzero) hle
  · exact ⟨Nat.zero_le _, fun h => absurd rfl h⟩

end Version

end LevelDbSurf
