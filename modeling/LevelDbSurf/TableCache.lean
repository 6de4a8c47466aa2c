import LevelDbSurf.Table

/-!
# The table cache (`table_cache.cc`)

`NewIterator` is where the range filter acts: with both bounds non-empty, a table whose
`RangeMayMatch` is false is replaced by an iterator without entries. `newIterator_tracks` says what
a caller sees of it either way.
-/

namespace LevelDbSurf

open Cursors

/-- `TableCache`. `openFile` and `openOldFile` are `env_->NewRandomAccessFile` for the current and
the old name of a table's file. -/
structure TableCache (α : Type) where
  options : Options
  openFile : UInt64 → Except Status (RandomAccessFile α)
  openOldFile : UInt64 → Except Status (RandomAccessFile α)

/-- What `TableCache::NewIterator` returns: a table iterator, or an empty or error iterator. -/
abbrev FileIterator (α : Type) := TableIterator α ⊕ BlockIter (InternalKey α) Bytes

/-- The iterator, `*tableptr` and the counters after `TableCache::NewIterator`. -/
structure OpenedIterator (α : Type) where
  iter : FileIterator α
  tableptr : Option (Table α)
  metrics : Option MetricsCounters

/-- `!lo.empty() && !hi.empty()`. -/
def bounded {α : Type} [Slice α] (lo hi : α) : Bool := !Slice.empty lo && !Slice.empty hi

theorem bounded_nil {α : Type} [Slice α] : bounded (Slice.nil : α) Slice.nil = false := by
  simp [bounded]

namespace TableCache

variable {α : Type} [LinearOrder α] [Slice α] [Coding] [TableFormat]

/-- `FindTable` (`:41`). -/
def findTable (c : TableCache α) (fileNumber fileSize : UInt64) : Except Status (Table α) :=
  match c.openFile fileNumber with
  | .ok file => Table.openTable c.options file fileSize
  | .error s =>
    match c.openOldFile fileNumber with
    | .ok file => Table.openTable c.options file fileSize
    | .error _ => .error s

omit [LinearOrder α] [Slice α] in
theorem findTable_of_openFile {c : TableCache α} {fileNumber : UInt64} {file : RandomAccessFile α}
    (h : c.openFile fileNumber = .ok file) (fileSize : UInt64) :
    c.findTable fileNumber fileSize = Table.openTable c.options file fileSize := by
  rw [findTable, h]

/-- `NewIterator` (`:79`). -/
def newIterator (c : TableCache α) (options : ReadOptions α) (fileNumber fileSize : UInt64) (lo hi : α)
    (metrics : Option MetricsCounters) : OpenedIterator α :=
  match c.findTable fileNumber fileSize with
  | .error s => { iter := .inr (BlockIter.newErrorIterator s), tableptr := none, metrics }
  | .ok table =>
    if bounded lo hi then
      if !table.rangeMayMatch lo hi then
        { iter := .inr BlockIter.newEmptyIterator, tableptr := none,
          metrics := metrics.map MetricsCounters.countPruned }
      else
        { iter := .inl (table.newIterator options), tableptr := some table,
          metrics := metrics.map MetricsCounters.countOpened }
    else { iter := .inl (table.newIterator options), tableptr := some table, metrics }

/-- `Get` (`:122`). -/
def get {S : Type} (c : TableCache α) (options : ReadOptions α) (fileNumber fileSize : UInt64)
    (k : InternalKey α) (arg : S) (handleResult : S → InternalKey α → Bytes → S)
    (metrics : Option MetricsCounters) : Status × S × Option MetricsCounters :=
  match c.findTable fileNumber fileSize with
  | .error s => (s, arg, metrics)
  | .ok t => t.internalGet options k arg handleResult metrics

end TableCache

namespace Table

variable {α : Type} [LinearOrder α] [Slice α] [Coding] [TableFormat]

/-- The entries of the table an iterator with these bounds shows. -/
def kept (t : Table α) (lo hi : α) : List (InternalKey α × Bytes) :=
  if bounded lo hi && !t.rangeMayMatch lo hi then [] else t.entries

omit [LinearOrder α] in
/-- No bounds, nothing pruned. -/
theorem kept_of_not_bounded (t : Table α) {lo hi : α} (h : bounded lo hi = false) :
    t.kept lo hi = t.entries := by
  rw [kept, h, Bool.false_and, if_neg Bool.false_ne_true]

/-- `RangeMayMatch` is false only of tables without an entry in the range. -/
def RangeSound (t : Table α) (lo hi : α) : Prop :=
  t.rangeMayMatch lo hi = false → ∀ x ∈ t.entries, ¬ (lo ≤ x.1.userKey ∧ x.1.userKey ≤ hi)

omit [LinearOrder α] in
theorem kept_sublist (t : Table α) (lo hi : α) : (t.kept lo hi).Sublist t.entries := by
  unfold kept
  split
  · exact List.nil_sublist _
  · exact List.Sublist.refl _

end Table

namespace TableCache

variable {α : Type} [LinearOrder α] [Slice α] [Coding] [TableFormat]

/-- **`NewIterator`** is a cursor over what the bounds keep of the table. -/
theorem newIterator_tracks {c : TableCache α} {fileNumber fileSize : UInt64} {t : Table α}
    (hfind : c.findTable fileNumber fileSize = .ok t) (ht : t.WellFormed) (options : ReadOptions α)
    (lo hi : α) (metrics : Option MetricsCounters) :
    Tracks (t.kept lo hi) (c.newIterator options fileNumber fileSize lo hi metrics).iter
      (t.kept lo hi).length := by
  have htable : Tracks t.entries (Sum.inl (t.newIterator options) : FileIterator α) t.entries.length :=
    bisimulates_inl.tracks rfl (Table.newIterator_tracks ht options)
  unfold newIterator Table.kept
  rw [hfind]
  dsimp only
  cases bounded lo hi with
  | false => exact htable
  | true =>
    cases t.rangeMayMatch lo hi with
    | true => exact htable
    | false => exact bisimulates_inr.tracks rfl (ListCursor.tracks BlockIter.newEmptyIterator)

end TableCache

end LevelDbSurf
