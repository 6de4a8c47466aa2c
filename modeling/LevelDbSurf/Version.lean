import LevelDbSurf.TableCache

/-!
# Versions and their iterators (`version_set.cc:87-263`)

| here | there |
| --- | --- |
| `FileMetaData`         | `FileMetaData` (`version_edit.h`), less its reference count and `allowed_seeks` |
| `findFile`             | `FindFile` (`:87`) |
| `LevelFileNumIterator` | `Version::LevelFileNumIterator` (`:163`) |
| `getFileIterator`      | `GetFileIterator` (`:225`), with the three fields of `TableCacheArg` |
| `newConcatenatingIterator`, `addIterators` | `Version::NewConcatenatingIterator` (`:236`), `Version::AddIterators` (`:247`) |

Bounds act twice: on the level-0 tables when the iterators are made, and on a table of a deeper level
when the two-level iterator first opens it. `addIterators_behaviour` gives the children the merging
iterator gets, each a cursor over what the bounds keep.
-/

namespace LevelDbSurf

open Cursors TwoLevelIterator

/-- `config::kNumLevels` (`db/dbformat.h`). -/
def kNumLevels : Nat := 7

/-- `FileMetaData`. -/
structure FileMetaData (α : Type) [LinearOrder α] where
  number : UInt64
  fileSize : UInt64
  smallest : InternalKey α
  largest : InternalKey α
  ordered : smallest ≤ largest
deriving DecidableEq

instance {α : Type} [LinearOrder α] : LawfulBEq (FileMetaData α) := inferInstance

/-- The fields of `Version` the modelled functions look at. Levels from `kNumLevels` on do not
exist. -/
structure Version (α : Type) [LinearOrder α] where
  files : Nat → List (FileMetaData α)
  fileToCompact : Option (FileMetaData α) := none
  fileToCompactLevel : Nat := 0
  compactionScore : Rat := -1
  compactionLevel : Nat := 0

variable {α : Type} [LinearOrder α]

/-- The loop of `FindFile`. -/
def findFileLoop (files : List (FileMetaData α)) (key : InternalKey α) (left right : Nat)
    (h : right ≤ files.length) : Nat :=
  if _hlt : left < right then
    let mid := (left + right) / 2
    if (files.get ⟨mid, by omega⟩).largest < key then
      -- "all files at or before mid are uninteresting"
      findFileLoop files key (mid + 1) right h
    else findFileLoop files key left mid (by omega)
  else right
termination_by right - left

/-- `FindFile`, on numbers: `findFile32` has its words. -/
def findFile (files : List (FileMetaData α)) (key : InternalKey α) : Nat :=
  findFileLoop files key 0 files.length (le_refl _)

/-- `LevelFileNumIterator`. -/
structure LevelFileNumIterator (α : Type) [LinearOrder α] where
  flist : List (FileMetaData α)
  index : Nat := flist.length  -- "Marks as invalid"

/-- `value()`: the file's number and size. -/
def fileValue [Coding] (f : FileMetaData α) : Bytes := encodeFixed64 f.number ++ encodeFixed64 f.fileSize

instance [Coding] : IndexIterator (LevelFileNumIterator α) (InternalKey α) Bytes where
  current it := it.flist[it.index]?.map fun f => (f.largest, fileValue f)
  seek it target := { it with index := findFile it.flist target }
  seekToFirst it := { it with index := 0 }
  seekToLast it := { it with index := if it.flist.isEmpty then 0 else it.flist.length - 1 }
  next it := { it with index := it.index + 1 }
  prev it := { it with index := if it.index = 0 then it.flist.length else it.index - 1 }
  status _ := .ok
  ahead it := it.flist.length - it.index
  behind it := if it.index < it.flist.length then it.index + 1 else 0
  ahead_next it h := by
    have : it.index < it.flist.length := by simpa using h
    dsimp only
    omega
  behind_prev it h := by
    have hi : it.index < it.flist.length := by simpa using h
    by_cases h0 : it.index = 0
    · rw [h0] at hi ⊢
      simp [hi]
    · have : it.index - 1 < it.flist.length := by omega
      simp only [h0, if_false, this, if_true, hi]
      omega

/-- The iterator over the files of one level. -/
abbrev ConcatenatingIterator (α : Type) [LinearOrder α] :=
  TwoLevelIterator (LevelFileNumIterator α) (FileIterator α) Bytes

/-- What `AddIterators` appends: an iterator over one file, or over the files of a level. -/
abbrev VersionIterator (α : Type) [LinearOrder α] := FileIterator α ⊕ ConcatenatingIterator α

variable [Slice α] [Coding] [TableFormat]

/-- `GetFileIterator`, for the `TableCacheArg` with these three fields. -/
def getFileIterator (cache : TableCache α) (lo hi : α) (options : ReadOptions α) (fileValue : Bytes)
    (metrics : Option MetricsCounters) : OpenedIterator α :=
  if fileValue.length ≠ 16 then
    { iter := .inr (BlockIter.newErrorIterator
        (.corruption "FileReader invoked with unexpected value")),
      tableptr := none, metrics }
  else
    cache.newIterator options (decodeFixed64 (fileValue.take 8))
      (decodeFixed64 ((fileValue.drop 8).take 8)) lo hi metrics

/-- `NewTwoLevelIterator(new LevelFileNumIterator(..), &GetFileIterator, arg, options)`. Which
counters the callback moves follows from `requests`. -/
def newLevelIterator (cache : TableCache α) (options : ReadOptions α) (files : List (FileMetaData α))
    (lo hi : α) : ConcatenatingIterator α :=
  { blockFunction := fun v => (getFileIterator cache lo hi options v none).iter
    indexIter := { flist := files } }

namespace Version

/-- `NewConcatenatingIterator`. -/
def newConcatenatingIterator (v : Version α) (cache : TableCache α) (options : ReadOptions α)
    (level : Nat) (lo hi : α) : ConcatenatingIterator α :=
  newLevelIterator cache options (v.files level) lo hi

/-- The loop over level 0: every table is opened, and checked against the bounds, right here. -/
def addLevel0 (cache : TableCache α) (options : ReadOptions α) (lo hi : α) :
    List (FileMetaData α) → Option MetricsCounters → List (VersionIterator α) × Option MetricsCounters
  | [], metrics => ([], metrics)
  | f :: files, metrics =>
    let r := cache.newIterator options f.number f.fileSize lo hi metrics
    let (iters, metrics) := addLevel0 cache options lo hi files r.metrics
    (.inl r.iter :: iters, metrics)

/-- `AddIterators`: what is appended to `*iters`, and the counters. -/
def addIterators (v : Version α) (cache : TableCache α) (options : ReadOptions α) (lo hi : α)
    (metrics : Option MetricsCounters) : List (VersionIterator α) × Option MetricsCounters :=
  let (level0, metrics) := addLevel0 cache options lo hi (v.files 0) metrics
  let levels := (List.range' 1 (kNumLevels - 1)).filter fun level => !(v.files level).isEmpty
  (level0 ++ levels.map fun level => .inr (v.newConcatenatingIterator cache options level lo hi), metrics)

end Version

end LevelDbSurf
