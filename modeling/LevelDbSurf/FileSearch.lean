import LevelDbSurf.VersionGet
import LevelDbSurf.VersionIterators

/-!
# The searches of a version, in the words they are made in (`version_set.cc:87-103`, `299-418`)

| here | there |
| --- | --- |
| `findFile32`                   | `FindFile` (`:87`): `left`, `right` and `mid` are `uint32_t` |
| `Version.forEachOverlapping32` | `Version::ForEachOverlapping` (`:299`): so are `i` and `index` |
| `Version.get32`                | `Version::Get` (`:342`) |

`left + right` is a sum of 32 bits. With `2^31` files at most the words are the numbers `findFile` counts with
(`findFile32_eq`). With one file more a search for a key past all files never ends (`findFile32_past_all`).
-/

namespace LevelDbSurf

open Cursors

variable {α : Type} [LinearOrder α]

/-! ## `FindFile` -/

theorem toNat_mid (left right : UInt32) :
    ((left + right) / 2).toNat = (left.toNat + right.toNat) % 2 ^ 32 / 2 := by
  simp only [UInt32.toNat_div, UInt32.toNat_add, UInt32.reduceToNat]

theorem mid_lt_right {left right : UInt32} (h : left < right) : ((left + right) / 2).toNat < right.toNat := by
  rw [UInt32.lt_iff_toNat_lt] at h
  rw [toNat_mid]
  omega

/-- The loop of `FindFile`; `none` when it is still running after so many rounds. -/
def findFileLoop32 (files : List (FileMetaData α)) (key : InternalKey α) :
    Nat → (left right : UInt32) → right.toNat ≤ files.length → Option UInt32
  | 0, _, _, _ => none
  | rounds + 1, left, right, h =>
    if hlt : left < right then
      let mid := (left + right) / 2
      if (files.get ⟨mid.toNat, (mid_lt_right hlt).trans_le h⟩).largest < key then
        findFileLoop32 files key rounds (mid + 1) right h
      else findFileLoop32 files key rounds left mid ((mid_lt_right hlt).le.trans h)
    else some right

/-- `FindFile`. The two words have `2 ^ 64` values together: a loop that has not left by then never does (`none`). -/
def findFile32 (files : List (FileMetaData α)) (key : InternalKey α) : Option UInt32 :=
  findFileLoop32 files key (2 ^ 64) 0 (UInt32.ofNat files.length) (by
    rw [UInt32.toNat_ofNat']
    exact Nat.mod_le _ _)

section Words
variable {files : List (FileMetaData α)} {key : InternalKey α}

/-- The sum of the bounds is a word. -/
theorem findFileLoop32_eq (hcount : files.length ≤ 2 ^ 31) (key : InternalKey α) {rounds : Nat} {left right : UInt32}
    (h : right.toNat ≤ files.length) (hrounds : right.toNat - left.toNat < rounds) :
    ∃ i, findFileLoop32 files key rounds left right h = some i ∧
      i.toNat = findFileLoop files key left.toNat right.toNat h := by
  induction rounds generalizing left right with
  | zero => omega
  | succ rounds ih =>
    rw [findFileLoop32, findFileLoop]
    by_cases hlt : left < right
    · have hlt' : left.toNat < right.toNat := UInt32.lt_iff_toNat_lt.1 hlt
      have hmid : ((left + right) / 2).toNat = (left.toNat + right.toNat) / 2 := by
        rw [toNat_mid]
        omega
      have hnext : ((left + right) / 2 + 1).toNat = (left.toNat + right.toNat) / 2 + 1 := by
        rw [UInt32.toNat_add, hmid, UInt32.toNat_one]
        omega
      rw [dif_pos hlt, dif_pos hlt']
      simp only [hmid]
      split
      · have hshorter : right.toNat - ((left + right) / 2 + 1).toNat < rounds := by omega
        obtain ⟨i, hi, hto⟩ := ih h hshorter
        refine ⟨i, hi, ?_⟩
        simp only [hto, hnext]
      · have hbound : ((left + right) / 2).toNat ≤ files.length := by omega
        have hshorter : ((left + right) / 2).toNat - left.toNat < rounds := by omega
        obtain ⟨i, hi, hto⟩ := ih hbound hshorter
        refine ⟨i, hi, ?_⟩
        simp only [hto, hmid]
    · have hlt' : ¬ left.toNat < right.toNat := fun h' => hlt (UInt32.lt_iff_toNat_lt.2 h')
      rw [dif_neg hlt, dif_neg hlt']
      exact ⟨right, rfl, rfl⟩

/-- **Up to `2^31` files** the search ends where the one in numbers does. -/
theorem findFile32_eq (hcount : files.length ≤ 2 ^ 31) (key : InternalKey α) :
    ∃ i, findFile32 files key = some i ∧ i.toNat = findFile files key := by
  have hright : (UInt32.ofNat files.length).toNat = files.length := by
    rw [UInt32.toNat_ofNat', Nat.mod_eq_of_lt (by omega)]
  have hrounds : (UInt32.ofNat files.length).toNat - (0 : UInt32).toNat < 2 ^ 64 := by
    rw [hright]
    omega
  obtain ⟨i, hi, hto⟩ := findFileLoop32_eq hcount key hright.le hrounds
  refine ⟨i, hi, ?_⟩
  simp only [hto, hright, findFile]
  rfl

/-- Past all files `left` never gets to `right`: close to it the sum wraps, and the loop starts again from below. -/
theorem findFileLoop32_past_all (hmore : 2 ^ 31 < files.length) (hall : ∀ f ∈ files, f.largest < key) {rounds : Nat}
    {left right : UInt32} (h : right.toNat = files.length) (hlt : left.toNat < right.toNat) :
    findFileLoop32 files key rounds left right h.le = none := by
  induction rounds generalizing left with
  | zero => rfl
  | succ rounds ih =>
    have hright := right.toNat_lt
    have hnext : ((left + right) / 2 + 1).toNat < right.toNat := by
      rw [UInt32.toNat_add, toNat_mid, UInt32.toNat_one]
      omega
    rw [findFileLoop32, dif_pos (UInt32.lt_iff_toNat_lt.2 hlt)]
    dsimp only
    rw [if_pos (hall _ (List.get_mem _ _))]
    exact ih hnext

/-- **From `2^31 + 1` files on** the search for a key past all of them never ends. -/
theorem findFile32_past_all (hmore : 2 ^ 31 < files.length) (hless : files.length < 2 ^ 32)
    (hall : ∀ f ∈ files, f.largest < key) : findFile32 files key = none := by
  have hright : (UInt32.ofNat files.length).toNat = files.length := by
    rw [UInt32.toNat_ofNat', Nat.mod_eq_of_lt hless]
  refine findFileLoop32_past_all hmore hall hright ?_
  rw [hright]
  exact (Nat.zero_le _).trans_lt hmore

end Words

/-! ## `ForEachOverlapping` and `Get` -/

namespace Version

/-- The one file of a deeper level that may hold the key, if the search for it ends. -/
def overlappingFile32 (v : Version α) (userKey : α) (internalKey : InternalKey α) (level : Nat) :
    Option (Option (FileMetaData α)) :=
  (findFile32 (v.files level) internalKey).map fun index =>
    match (v.files level)[index.toNat]? with
    | none => none
    | some f => if userKey < f.smallest.userKey then none else some f

/-- "Search other levels": these, in order. -/
def visitLevels32 {S : Type} (v : Version α) (userKey : α) (internalKey : InternalKey α)
    (func : S → Nat → FileMetaData α → S × Bool) : S → List Nat → Option S
  | arg, [] => some arg
  | arg, level :: levels =>
    match v.overlappingFile32 userKey internalKey level with
    | none => none
    | some none => visitLevels32 v userKey internalKey func arg levels
    | some (some f) =>
      if (func arg level f).2 then visitLevels32 v userKey internalKey func (func arg level f).1 levels
      else some (func arg level f).1

/-- `ForEachOverlapping`. A loop over a `uint32_t` that has not left after `2 ^ 32` rounds never does. -/
def forEachOverlapping32 {S : Type} (v : Version α) (userKey : α) (internalKey : InternalKey α) (arg : S)
    (func : S → Nat → FileMetaData α → S × Bool) : Option S := do
  let (tmp, _) ← visitWords (fun tmp f =>
    (if f.smallest.userKey ≤ userKey ∧ userKey ≤ f.largest.userKey then tmp ++ [f] else tmp, true))
    (v.files 0) (2 ^ 32 + 1) 0 []
  let (arg, go) ← visitWords (fun arg f => func arg 0 f) (tmp.insertionSort fun a b => ¬ newestFirst b a)
    (2 ^ 32 + 1) 0 arg
  if go then v.visitLevels32 userKey internalKey func arg (List.range' 1 (kNumLevels - 1)) else some arg

/-- `Get`, for the lookup key of `userKey` at `sequence`; `none` when it does not return. -/
def get32 [Slice α] [Coding] [TableFormat] (v : Version α) (cache : TableCache α) (options : ReadOptions α)
    (userKey : α) (sequence : Nat) (value : Bytes) (metrics : Option MetricsCounters) : Option (GetResult α) :=
  let ikey := lookupKey userKey sequence
  (v.forEachOverlapping32 userKey ikey { saver := { userKey, value }, metrics }
    (GetState.matchFile cache options ikey)).map fun state =>
      { status := if state.found then state.s else .notFound ""
        value := state.saver.value, stats := state.stats, metrics := state.metrics }

/-- No level has more files than the words can count. -/
structure FitsWords (v : Version α) : Prop where
  level0 : (v.files 0).length < 2 ^ 32
  deeper : ∀ level, 1 ≤ level → (v.files level).length ≤ 2 ^ 31

section Words
variable {S : Type} {v : Version α}

theorem overlappingFile32_eq {level : Nat} (hcount : (v.files level).length ≤ 2 ^ 31) (userKey : α)
    (internalKey : InternalKey α) :
    v.overlappingFile32 userKey internalKey level = some (v.overlappingFile userKey internalKey level) := by
  obtain ⟨index, hindex, hto⟩ := findFile32_eq hcount internalKey
  rw [overlappingFile32, hindex, Option.map_some, hto]
  rfl

theorem visitLevels32_eq (userKey : α) (internalKey : InternalKey α) (func : S → Nat → FileMetaData α → S × Bool)
    (arg : S) {levels : List Nat} (hcount : ∀ level ∈ levels, (v.files level).length ≤ 2 ^ 31) :
    v.visitLevels32 userKey internalKey func arg levels =
      some (visit (v.visitLevel userKey internalKey func) arg levels).1 := by
  induction levels generalizing arg with
  | nil => rfl
  | cons level levels ih =>
    have hrest := fun arg => ih arg fun level hl => hcount level (List.mem_cons_of_mem _ hl)
    rw [visitLevels32, overlappingFile32_eq (hcount level List.mem_cons_self), visit, visitLevel]
    cases v.overlappingFile userKey internalKey level with
    | none => exact hrest arg
    | some f =>
      dsimp only
      split
      · exact hrest _
      · rfl

/-- **`ForEachOverlapping`** in words is the one in numbers. -/
theorem FitsWords.forEachOverlapping32_eq (h : v.FitsWords) (userKey : α) (internalKey : InternalKey α) (arg : S)
    (func : S → Nat → FileMetaData α → S × Bool) :
    v.forEachOverlapping32 userKey internalKey arg func =
      some (v.forEachOverlapping userKey internalKey arg func) := by
  have hlevel0 := h.level0
  have htmp := visit_filter (fun f : FileMetaData α => f.smallest.userKey ≤ userKey ∧ userKey ≤ f.largest.userKey) []
    (v.files 0)
  have hrounds : (v.files 0).length - (0 : UInt32).toNat < 2 ^ 32 + 1 := by omega
  have hcollect := visitWords_eq (fun (tmp : List (FileMetaData α)) f =>
    (if f.smallest.userKey ≤ userKey ∧ userKey ≤ f.largest.userKey then tmp ++ [f] else tmp, true)) hlevel0 hrounds []
  rw [UInt32.toNat_zero, List.drop_zero, htmp, List.nil_append] at hcollect
  have hsorted : ((v.files 0).filter fun f =>
      decide (f.smallest.userKey ≤ userKey ∧ userKey ≤ f.largest.userKey)).insertionSort
        (fun a b => ¬ newestFirst b a) = v.overlappingLevel0 userKey := by
    simp only [overlappingLevel0, Bool.decide_and]
  have hlength : (v.overlappingLevel0 userKey).length ≤ (v.files 0).length := by
    rw [← hsorted, List.length_insertionSort]
    exact List.length_filter_le _ _
  have hsearch : (v.overlappingLevel0 userKey).length - (0 : UInt32).toNat < 2 ^ 32 + 1 := by omega
  have hvisit := visitWords_eq (fun arg f => func arg 0 f) (hlength.trans_lt hlevel0) hsearch arg
  rw [UInt32.toNat_zero, List.drop_zero] at hvisit
  rw [forEachOverlapping32, hcollect]
  dsimp only [bind, Option.bind]
  rw [hsorted, hvisit, forEachOverlapping]
  dsimp only
  split
  · refine visitLevels32_eq userKey internalKey func _ fun level hl => h.deeper level ?_
    exact (List.mem_range'_1.1 hl).1
  · rfl

/-- Nothing on level 0. -/
theorem forEachOverlapping32_level0 (hlevel0 : v.files 0 = []) (userKey : α) (internalKey : InternalKey α) (arg : S)
    (func : S → Nat → FileMetaData α → S × Bool) :
    v.forEachOverlapping32 userKey internalKey arg func =
      v.visitLevels32 userKey internalKey func arg (List.range' 1 (kNumLevels - 1)) := by
  rw [forEachOverlapping32, hlevel0, visitWords_nil]
  dsimp only [bind, Option.bind]
  rw [List.insertionSort_nil, visitWords_nil]
  exact if_pos rfl

/-- **`Get`** in words is the one in numbers. -/
theorem FitsWords.get32_eq [Slice α] [Coding] [TableFormat] (h : v.FitsWords) (cache : TableCache α)
    (options : ReadOptions α) (userKey : α) (sequence : Nat) (value : Bytes) (metrics : Option MetricsCounters) :
    v.get32 cache options userKey sequence value metrics =
      some (v.get cache options userKey sequence value metrics) := by
  rw [get32, h.forEachOverlapping32_eq]
  rfl

end Words

end Version

/-! ## One file too many -/

namespace SampleCount

/-- A version of `b`: the higher the file number, the older. -/
def keyOf (number : UInt64) : InternalKey Bytes := lookupKey [98] (2 ^ 32 - number.toNat)

def file (number : UInt64) : FileMetaData Bytes := ⟨number, 500, keyOf number, keyOf number, le_refl _⟩

def files : List (FileMetaData Bytes) := (List.range (2 ^ 31 + 1)).map fun number => file (UInt64.ofNat number)

theorem length_files : files.length = 2 ^ 31 + 1 := by
  rw [files, List.length_map, List.length_range]

theorem sorted : LevelSorted files := by
  rw [LevelSorted, files, List.pairwise_map]
  refine List.Pairwise.imp_of_mem (fun {i j} hi hj hlt => ?_) List.pairwise_lt_range
  have hi := List.mem_range.1 hi
  have hj := List.mem_range.1 hj
  refine InternalKey.lt_iff.2 (Or.inr ⟨rfl, ?_⟩)
  show packSequenceAndType (2 ^ 32 - (UInt64.ofNat j).toNat) _ < packSequenceAndType (2 ^ 32 - (UInt64.ofNat i).toNat) _
  rw [UInt64.toNat_ofNat', UInt64.toNat_ofNat', Nat.mod_eq_of_lt (by omega), Nat.mod_eq_of_lt (by omega)]
  unfold packSequenceAndType
  omega

/-- All of them end before the user key `c`. -/
theorem past_all (s : Nat) : findFile32 files (lookupKey [99] s) = none := by
  refine findFile32_past_all (by rw [length_files]; omega) (by rw [length_files]; omega) fun f hf => ?_
  obtain ⟨number, -, rfl⟩ := List.mem_map.1 hf
  exact InternalKey.lt_iff.2 (Or.inl (show ([98] : Bytes) < [99] by decide))

end SampleCount

end LevelDbSurf
