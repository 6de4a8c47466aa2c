import LevelDbSurf.Compaction
import LevelDbSurf.Lib.Lending
import LevelDbSurf.OwningIterator

/-!
# Cache handles and callback arguments (`table_cache.cc:19-134`, `version_set.cc:214-263`, `1237-1273`)

| here | there |
| --- | --- |
| `Disk`              | what `cache_->Lookup` and opening a file give, at each call of `FindTable` |
| `World`             | the handles `cache_` has given out, and the `TableCacheArg`s on the heap |
| `Registered`        | an iterator with its cleanups (`Iterator::RegisterCleanup`, `~Iterator`) |
| `newIterator`, `get`| `TableCache::NewIterator`, `TableCache::Get` |
| `LevelIterator`     | the two-level iterator of `NewConcatenatingIterator` and `MakeInputIterator` |
| `Iterators.step`    | a request of the rest of the program |

`Lookup` and `Insert` each add a reference to an entry, `Release` takes one away: a handle here is one such reference.
Releasing one twice, deleting an argument twice, and reading a deleted one are undefined. The counters are those of
`TableCache.newIterator`; nothing here depends on them.
-/

namespace LevelDbSurf

open Cursors Lending

/-- `TableCacheArg`, less `cache`, which is the same in all. -/
structure TableCacheArg (α : Type) where
  lo : α
  hi : α

/-- What happens outside, at the `n`-th call of `FindTable`: which tables are in the cache, and what the files are. -/
structure Disk (α : Type) where
  lookup : Nat → UInt64 → Option (Table α)
  tableCache : Nat → TableCache α

structure World (α : Type) where
  /-- The calls of `FindTable` so far. -/
  finds : Nat := 0
  handles : Lender := {}
  args : Lender := {}
  /-- The arguments, by address. -/
  argFields : List (TableCacheArg α) := []

namespace World
variable {α : Type}

/-- `cache_->Release(handle)`. -/
def release (w : World α) (handle : Nat) : Option (World α) :=
  (w.handles.takeBack handle).map fun handles => { w with handles }

/-- `new TableCacheArg{..}`. -/
def newArg (w : World α) (fields : TableCacheArg α) : Nat × World α :=
  (w.args.next, { w with args := w.args.lend, argFields := w.argFields ++ [fields] })

/-- `*reinterpret_cast<TableCacheArg*>(arg)`. -/
def readArg (w : World α) (arg : Nat) : Option (TableCacheArg α) :=
  if w.args.isOut arg then w.argFields[arg]? else none

/-- `DeleteTableCacheArg`. -/
def deleteArg (w : World α) (arg : Nat) : Option (World α) := (w.args.takeBack arg).map fun args => { w with args }

end World

/-- A registered cleanup: `UnrefEntry` or `DeleteTableCacheArg`, with its argument. -/
inductive Cleanup where
  | unrefEntry (handle : Nat)
  | deleteTableCacheArg (arg : Nat)

def Cleanup.run {α : Type} (w : World α) : Cleanup → Option (World α)
  | .unrefEntry handle => w.release handle
  | .deleteTableCacheArg arg => w.deleteArg arg

/-- An iterator and its cleanups. -/
structure Registered (σ : Type) where
  iter : σ
  cleanups : List Cleanup := []

namespace Registered
variable {σ κ ν α : Type}

/-- `RegisterCleanup`. -/
def registerCleanup (it : Registered σ) (c : Cleanup) : Registered σ := { it with cleanups := it.cleanups ++ [c] }

/-- `~Iterator`. -/
def runCleanups (it : Registered σ) (w : World α) : Option (World α) := it.cleanups.foldlM Cleanup.run w

instance [Iterator σ κ ν] : Iterator (Registered σ) κ ν where
  current it := current it.iter
  seek it t := { it with iter := seek it.iter t }
  seekToFirst it := { it with iter := seekToFirst it.iter }
  seekToLast it := { it with iter := seekToLast it.iter }
  next it := { it with iter := next it.iter }
  prev it := { it with iter := prev it.iter }
  status it := Iterator.status it.iter

end Registered

/-- What `TableCache::NewIterator` returns. -/
abbrev TableCacheIterator (α : Type) := Registered (FileIterator α)

/-- The iterator, and `*tableptr`. -/
structure OpenedTable (α : Type) where
  iter : TableCacheIterator α
  tableptr : Option (Table α) := none

variable {α : Type} [LinearOrder α] [Slice α] [Coding] [TableFormat]

/-! ## The table cache -/

namespace Disk

omit [LinearOrder α] [Slice α] in
/-- `FindTable` (`:41`). -/
def findTable (disk : Disk α) (fileNumber fileSize : UInt64) (w : World α) :
    Except Status (Table α × Nat) × World α :=
  let called := { w with finds := w.finds + 1 }
  match disk.lookup w.finds fileNumber with
  | some table => (.ok (table, w.handles.next), { called with handles := w.handles.lend })
  | none =>
    match (disk.tableCache w.finds).findTable fileNumber fileSize with
    | .error s => (.error s, called)
    | .ok table => (.ok (table, w.handles.next), { called with handles := w.handles.lend })

/-- `NewIterator` (`:79`). -/
def newIterator (disk : Disk α) (options : ReadOptions α) (fileNumber fileSize : UInt64) (lo hi : α) (w : World α) :
    Option (OpenedTable α × World α) :=
  match disk.findTable fileNumber fileSize w with
  | (.error s, w) => some ({ iter := { iter := .inr (BlockIter.newErrorIterator s) } }, w)
  | (.ok (table, handle), w) =>
    if bounded lo hi && !table.rangeMayMatch lo hi then do
      let w ← w.release handle
      return ({ iter := { iter := .inr BlockIter.newEmptyIterator } }, w)
    else
      let result : TableCacheIterator α := { iter := .inl (table.newIterator options) }
      some ({ iter := result.registerCleanup (.unrefEntry handle), tableptr := some table }, w)

/-- `Get` (`:122`). -/
def get {S : Type} (disk : Disk α) (options : ReadOptions α) (fileNumber fileSize : UInt64) (k : InternalKey α)
    (arg : S) (handleResult : S → InternalKey α → Bytes → S) (metrics : Option MetricsCounters) (w : World α) :
    Option ((Status × S × Option MetricsCounters) × World α) :=
  match disk.findTable fileNumber fileSize w with
  | (.error s, w) => some ((s, arg, metrics), w)
  | (.ok (t, handle), w) => do
    let result := t.internalGet options k arg handleResult metrics
    let w ← w.release handle
    return (result, w)

/-- `GetFileIterator` (`version_set.cc:225`). -/
def getFileIterator (disk : Disk α) (options : ReadOptions α) (arg : Nat) (fileValue : Bytes) (w : World α) :
    Option (TableCacheIterator α × World α) :=
  if fileValue.length ≠ 16 then
    some ({ iter := .inr (BlockIter.newErrorIterator (.corruption "FileReader invoked with unexpected value")) }, w)
  else do
    let tca ← w.readArg arg
    let (opened, w) ← disk.newIterator options (decodeFixed64 (fileValue.take 8))
      (decodeFixed64 ((fileValue.drop 8).take 8)) tca.lo tca.hi w
    return (opened.iter, w)

end Disk

/-! ## The iterators of a level -/

/-- The two-level iterator over the files of a level, with the `arg` and the options it was made with. -/
structure LevelIterator (α : Type) [LinearOrder α] [Slice α] where
  files : OwningIterator (LevelFileNumIterator α) (TableCacheIterator α) Bytes
  arg : Nat
  options : ReadOptions α

/-- Its data iterators. -/
def LevelIterator.dataIterators (disk : Disk α) (it : LevelIterator α) :
    DataIterators (TableCacheIterator α) Bytes (World α) where
  make := disk.getFileIterator it.options it.arg
  delete d w := d.runCleanups w

omit [Coding] [TableFormat] in
/-- `NewConcatenatingIterator` (`version_set.cc:237`), on these files. -/
def newLevelFiles (options : ReadOptions α) (files : List (FileMetaData α)) (lo hi : α) (w : World α) :
    Registered (LevelIterator α) × World α :=
  let (arg, w) := w.newArg { lo, hi }
  let iter : Registered (LevelIterator α) := { iter := { files := { indexIter := { flist := files } }, arg, options } }
  (iter.registerCleanup (.deleteTableCacheArg arg), w)

/-- A live iterator: over one table, or over the files of a level. -/
abbrev LiveIterator (α : Type) [LinearOrder α] [Slice α] := TableCacheIterator α ⊕ Registered (LevelIterator α)

namespace LiveIterator

/-- A call. -/
def apply (disk : Disk α) (it : LiveIterator α) (op : Op (InternalKey α)) (w : World α) :
    Option (LiveIterator α × World α) :=
  match it with
  | .inl it => some (.inl (Cursors.apply it op), w)
  | .inr it => do
    let (files, w) ← it.iter.files.apply (it.iter.dataIterators disk) op w
    return (.inr { it with iter := { it.iter with files } }, w)

/-- `delete`: the members of a two-level iterator go before the cleanups of its base. -/
def delete (disk : Disk α) (it : LiveIterator α) (w : World α) : Option (World α) :=
  match it with
  | .inl it => it.runCleanups w
  | .inr it => do
    let w ← it.iter.files.delete (it.iter.dataIterators disk) w
    it.runCleanups w

end LiveIterator

namespace Disk

/-- `NewIterator` for each of these files. -/
def openFiles (disk : Disk α) (options : ReadOptions α) (lo hi : α) :
    List (FileMetaData α) → World α → Option (List (LiveIterator α) × World α)
  | [], w => some ([], w)
  | f :: files, w => do
    let (opened, w) ← disk.newIterator options f.number f.fileSize lo hi w
    let (iters, w) ← disk.openFiles options lo hi files w
    return (.inl opened.iter :: iters, w)

omit [Coding] [TableFormat] in
/-- A concatenating iterator for each of these levels. -/
def openLevels (options : ReadOptions α) (lo hi : α) :
    List (List (FileMetaData α)) → World α → List (LiveIterator α) × World α
  | [], w => ([], w)
  | files :: levels, w =>
    let (iter, w) := newLevelFiles options files lo hi w
    let (iters, w) := openLevels options lo hi levels w
    (.inr iter :: iters, w)

/-- `AddIterators` (`version_set.cc:247`). -/
def addIterators (disk : Disk α) (v : Version α) (options : ReadOptions α) (lo hi : α) (w : World α) :
    Option (List (LiveIterator α) × World α) := do
  let (level0, w) ← disk.openFiles options lo hi (v.files 0) w
  let levels := (List.range' 1 (kNumLevels - 1)).filter fun level => !(v.files level).isEmpty
  let (deeper, w) := openLevels options lo hi (levels.map v.files) w
  return (level0 ++ deeper, w)

/-- The iterators over the inputs of one level (`version_set.cc:1249-1267`). -/
def inputIterators (disk : Disk α) (options : ReadOptions α) (level : Nat) (files : List (FileMetaData α))
    (w : World α) :
    Option (List (LiveIterator α) × World α) :=
  if files.isEmpty then some ([], w)
  else if level = 0 then disk.openFiles options Slice.nil Slice.nil files w
  else some (openLevels options Slice.nil Slice.nil [files] w)

/-- The `list` of `MakeInputIterator` (`version_set.cc:1237`). -/
def makeInputIterators (disk : Disk α) (options : ReadOptions α) (c : Compaction α) (w : World α) :
    Option (List (LiveIterator α) × World α) := do
  let (first, w) ← disk.inputIterators options c.level (c.inputs 0) w
  let (second, w) ← disk.inputIterators options (c.level + 1) (c.inputs 1) w
  return (first ++ second, w)

end Disk

/-! ## Runs -/

/-- What the rest of the program asks for; iterators are named by their place among the live ones. -/
inductive Request (α : Type) [LinearOrder α] [Slice α] where
  | newIterator (options : ReadOptions α) (fileNumber fileSize : UInt64) (lo hi : α)
  | get (options : ReadOptions α) (fileNumber fileSize : UInt64) (k : InternalKey α)
  | addIterators (v : Version α) (options : ReadOptions α) (lo hi : α)
  | makeInputIterator (options : ReadOptions α) (c : Compaction α)
  | apply (i : Nat) (op : Op (InternalKey α))
  | delete (i : Nat)

/-- The world, and the iterators that are not deleted. -/
structure Iterators (α : Type) [LinearOrder α] [Slice α] where
  world : World α := {}
  live : List (LiveIterator α) := []

namespace Iterators

def step (disk : Disk α) (s : Iterators α) : Request α → Option (Iterators α)
  | .newIterator options fileNumber fileSize lo hi => do
    let (opened, world) ← disk.newIterator options fileNumber fileSize lo hi s.world
    return { world, live := s.live ++ [.inl opened.iter] }
  | .get options fileNumber fileSize k => do
    let (_, world) ← disk.get options fileNumber fileSize k () (fun _ _ _ => ()) none s.world
    return { s with world }
  | .addIterators v options lo hi => do
    let (iters, world) ← disk.addIterators v options lo hi s.world
    return { world, live := s.live ++ iters }
  | .makeInputIterator options c => do
    let (iters, world) ← disk.makeInputIterators options c s.world
    return { world, live := s.live ++ iters }
  | .apply i op =>
    match s.live[i]? with
    | none => some s
    | some it => do
      let (it, world) ← it.apply disk op s.world
      return { world, live := s.live.set i it }
  | .delete i =>
    match s.live[i]? with
    | none => some s
    | some it => do
      let world ← it.delete disk s.world
      return { world, live := s.live.eraseIdx i }

def run (disk : Disk α) (s : Iterators α) (requests : List (Request α)) : Option (Iterators α) :=
  requests.foldlM (step disk) s

end Iterators

end LevelDbSurf
