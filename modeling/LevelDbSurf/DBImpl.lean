import LevelDbSurf.VersionIterators

/-!
# The database's iterators (`db_impl.cc`)

| here | there |
| --- | --- |
| `sanitizeOptions`      | `SanitizeOptions` (`:94`): the user's filter policy is wrapped, the file size clipped |
| `DBImpl.newInternalIterator` | `DBImpl::NewInternalIterator` (`:1083`) |
| `DBImpl.newIterator`   | `DBImpl::NewIterator` (`:1172`) |

The merging iterator and the DB iterator (`table/merger.cc`, `db/db_iter.cc`) are not part of the
repository; they are parameters.
-/

namespace LevelDbSurf

open Cursors

/-- `ClipToRange` of a `size_t` between two `int`s, which it is cast to for the comparisons. -/
def clipToRange (v : UInt64) (minValue maxValue : Int32) : UInt64 :=
  let v := if v.toUInt32.toInt32 > maxValue then maxValue.toInt64.toUInt64 else v
  if v.toUInt32.toInt32 < minValue then minValue.toInt64.toUInt64 else v

/-- `SanitizeOptions`, as far as the modelled options go: `ipolicy` wraps the user's policy. -/
def sanitizeOptions (src : Options) : Options :=
  { src with
    filterPolicy := src.filterPolicy.map internalFilterPolicy
    maxFileSize := clipToRange src.maxFileSize (2 ^ 20) (2 ^ 30) }

/-- The parts of `DBImpl` its iterators read. A memtable is its entries in order. -/
structure DBImpl (α : Type) [LinearOrder α] where
  mem : List (InternalKey α × Bytes)
  imm : Option (List (InternalKey α × Bytes))
  current : Version α
  lastSequence : Nat
  tableCache : TableCache α

/-- The table cache a database opened with these options works with. -/
def TableCache.ofOptions {α : Type} (rawOptions : Options)
    (openFile openOldFile : UInt64 → Except Status (RandomAccessFile α)) : TableCache α :=
  { options := sanitizeOptions rawOptions, openFile, openOldFile }

/-- A child of the merging iterator. -/
abbrev InternalIterator (α : Type) [LinearOrder α] :=
  BlockIter (InternalKey α) Bytes ⊕ VersionIterator α

namespace DBImpl

variable {α : Type} [LinearOrder α] [Slice α] [Coding] [TableFormat]

/-- The `list` of `NewInternalIterator`: memtables first, then the current version's iterators, made
with the bounds of the read options. -/
def internalIterators (db : DBImpl α) (options : ReadOptions α) (metrics : Option MetricsCounters) :
    List (InternalIterator α) :=
  [.inl (BlockIter.overEntries db.mem)] ++
    (db.imm.map fun imm => Sum.inl (BlockIter.overEntries imm)).toList ++
    (db.current.addIterators db.tableCache options options.lo options.hi metrics).1.map .inr

/-- `NewInternalIterator`, and `*latest_snapshot`. -/
def newInternalIterator (M : Merger (InternalKey α) Bytes) (db : DBImpl α) (options : ReadOptions α)
    (metrics : Option MetricsCounters) : Behaviour (InternalKey α) Bytes × Nat :=
  (M.merge ((db.internalIterators options metrics).map behaviour), db.lastSequence)

/-- `NewIterator`: the DB iterator over the internal one, at the snapshot of the options or else at
the last sequence number. -/
def newIterator (M : Merger (InternalKey α) Bytes)
    (newDBIterator : Behaviour (InternalKey α) Bytes → Nat → Behaviour α Bytes) (db : DBImpl α)
    (options : ReadOptions α) (metrics : Option MetricsCounters) : Behaviour α Bytes :=
  let (iter, latestSnapshot) := db.newInternalIterator M options metrics
  newDBIterator iter (options.snapshot.getD latestSnapshot)

/-- Memtables are skip lists: their entries are in order. -/
structure SortedMem (db : DBImpl α) : Prop where
  mem : Sorted db.mem
  imm : ∀ imm, db.imm = some imm → Sorted imm

/-- What the children show. -/
def children (db : DBImpl α) (lo hi : α) : List (List (InternalKey α × Bytes)) :=
  [db.mem] ++ db.imm.toList ++ db.current.children db.tableCache lo hi

theorem children_sorted {db : DBImpl α} (hm : db.SortedMem) (hs : db.current.SortedLevels)
    (hr : db.current.Readable db.tableCache) (lo hi : α) : ∀ L ∈ db.children lo hi, Sorted L := by
  intro L hL
  rw [children, List.mem_append, List.mem_append] at hL
  rcases hL with (hL | hL) | hL
  · rw [List.mem_singleton.1 hL]
    exact hm.mem
  · exact hm.imm L (by simpa using hL)
  · exact LevelDbSurf.children_sorted hs hr lo hi L hL

/-- **The internal iterator** is a cursor over the merge of what the children show. -/
theorem newInternalIterator_eq (M : Merger (InternalKey α) Bytes) {db : DBImpl α} (hm : db.SortedMem)
    (hs : db.current.SortedLevels) (hr : db.current.Readable db.tableCache) (options : ReadOptions α)
    (metrics : Option MetricsCounters) :
    (db.newInternalIterator M options metrics).1 =
      cursor (mergeAll (db.children options.lo options.hi)) := by
  have hmem : ∀ L : List (InternalKey α × Bytes),
      behaviour (Sum.inl (BlockIter.overEntries L) : InternalIterator α) = cursor L := fun L =>
    (bisimulates_inl.tracks rfl (ListCursor.tracks (BlockIter.overEntries L))).behaviour_eq
  have hversion : ∀ it : VersionIterator α, behaviour (Sum.inr it : InternalIterator α) = behaviour it :=
    fun it => bisimulates_inr.behaviour_eq rfl
  have hlist : (db.internalIterators options metrics).map behaviour =
      (db.children options.lo options.hi).map cursor := by
    unfold internalIterators children
    rw [List.map_append, List.map_append, List.map_append, List.map_append,
      ← addIterators_behaviour hs hr options options.lo options.hi metrics, List.map_map]
    congr 1
    · congr 1
      · rw [List.map_singleton, List.map_singleton, hmem]
      · cases db.imm with
        | none => rfl
        | some imm => exact congrArg (fun b => [b]) (hmem imm)
    · exact List.map_congr_left fun it _ => hversion it
  rw [newInternalIterator, hlist, M.merge_cursors _ (children_sorted hm hs hr _ _)]

end DBImpl

end LevelDbSurf
