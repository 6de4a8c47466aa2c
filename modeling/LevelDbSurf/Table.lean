import LevelDbSurf.FilterBlock
import LevelDbSurf.TwoLevelIterator
import LevelDbSurf.Lib.Merge

/-!
# Tables (`table.cc`)

| here | there |
| --- | --- |
| `TableFormat`, `RandomAccessFile` | the footer, handles and blocks of `table/format.{h,cc}`, which are not part of the repository |
| `Table.openTable`    | `Table::Open` (`:38`), with `ReadMeta` (`:87`) and `ReadFilter` (`:114`) |
| `Table.blockReader`  | `Table::BlockReader` (`:160`) |
| `Table.newIterator`  | `Table::NewIterator` (`:213`) |
| `Table.internalGet`  | `Table::InternalGet` (`:219`) |
| `Table.rangeMayMatch`| `Table::RangeMayMatch` (`:284`) |

The block cache is left out: it hands back what `ReadBlock` returned for the same table and offset.
-/

namespace LevelDbSurf

open Cursors TwoLevelIterator

/-- `BlockHandle`. -/
structure BlockHandle where
  offset : UInt64
  size : UInt64
deriving DecidableEq, Repr

/-- `BlockHandle::DecodeFrom` and `Footer::kEncodedLength`. -/
class TableFormat where
  decodeFrom : Bytes → Except Status BlockHandle
  kEncodedLength : UInt64

export TableFormat (decodeFrom)

structure Footer where
  metaindexHandle : BlockHandle
  indexHandle : BlockHandle
deriving DecidableEq, Repr

/-- The contents of a block: its bytes, and the entries a `Block` over them iterates under the
internal comparator and under the bytewise one. -/
structure BlockContents (α : Type) where
  data : Bytes := []
  entries : List (InternalKey α × Bytes) := []
  metaEntries : List (Bytes × Bytes) := []

/-- A table file: what reading its footer and `ReadBlock` (with or without verifying checksums)
return. -/
structure RandomAccessFile (α : Type) where
  readFooter : UInt64 → Except Status Footer
  readBlock : Bool → BlockHandle → Except Status (BlockContents α)

/-- The options the modelled functions look at. -/
structure Options where
  filterPolicy : Option FilterPolicy := none
  paranoidChecks : Bool := false
  maxFileSize : UInt64 := 2 * 1024 * 1024

/-- `MetricsCounters` (`options.h:152`), counted without end; `IntCounters` are its `int`s. -/
structure MetricsCounters where
  considered : Int := 0
  pruned : Int := 0
  opened : Int := 0
deriving DecidableEq, Repr

namespace MetricsCounters

/-- `considered++; pruned++`. -/
def countPruned (m : MetricsCounters) : MetricsCounters :=
  { m with considered := m.considered + 1, pruned := m.pruned + 1 }

/-- `considered++; opened++`. -/
def countOpened (m : MetricsCounters) : MetricsCounters :=
  { m with considered := m.considered + 1, opened := m.opened + 1 }

end MetricsCounters

/-- `ReadOptions` (`options.h:159`). The counters `metrics_counters` points to are threaded through
the calls instead. -/
structure ReadOptions (α : Type) [Slice α] where
  verifyChecksums : Bool := false
  fillCache : Bool := true
  snapshot : Option Nat := none
  lo : α := Slice.nil
  hi : α := Slice.nil

/-- `Table::Rep`. -/
structure Table (α : Type) where
  options : Options
  file : RandomAccessFile α
  filter : Option FilterBlockReader
  metaindexHandle : BlockHandle
  indexBlock : List (InternalKey α × Bytes)

/-- The iterator over a table. -/
abbrev TableIterator (α : Type) :=
  TwoLevelIterator (BlockIter (InternalKey α) Bytes) (BlockIter (InternalKey α) Bytes) Bytes

namespace Table

variable {α : Type} [LinearOrder α] [Slice α] [Coding] [TableFormat]

/-- `"filter." + policy->Name()`. -/
def filterKey (policy : FilterPolicy) : Bytes := ("filter." ++ policy.name).toUTF8.data.toList

/-- `ReadFilter`. Errors leave the table without a filter. -/
def readFilter (options : Options) (policy : FilterPolicy) (file : RandomAccessFile α)
    (filterHandleValue : Bytes) : Option FilterBlockReader :=
  match decodeFrom filterHandleValue with
  | .error _ => none
  | .ok filterHandle =>
    match file.readBlock options.paranoidChecks filterHandle with
    | .error _ => none
    | .ok block => some (FilterBlockReader.new policy block.data)

/-- `ReadMeta`. -/
def readMeta (options : Options) (file : RandomAccessFile α) (footer : Footer) :
    Option FilterBlockReader :=
  match options.filterPolicy with
  | none => none
  | some policy =>
    match file.readBlock options.paranoidChecks footer.metaindexHandle with
    | .error _ => none  -- "meta info is not needed for operation"
    | .ok contents =>
      let iter := seek (BlockIter.overEntries contents.metaEntries) (filterKey policy)
      match current iter with
      | none => none
      | some (key, value) =>
        if key = filterKey policy then readFilter options policy file value else none

/-- `Open`. -/
def openTable (options : Options) (file : RandomAccessFile α) (size : UInt64) : Except Status (Table α) :=
  if size < TableFormat.kEncodedLength then
    .error (.corruption "file is too short to be an sstable")
  else
    match file.readFooter size with
    | .error s => .error s
    | .ok footer =>
      match file.readBlock options.paranoidChecks footer.indexHandle with
      | .error s => .error s
      | .ok contents =>
        .ok { options, file, filter := readMeta options file footer,
              metaindexHandle := footer.metaindexHandle, indexBlock := contents.entries }

/-- `BlockReader`. -/
def blockReader (t : Table α) (options : ReadOptions α) (indexValue : Bytes) :
    BlockIter (InternalKey α) Bytes :=
  match decodeFrom indexValue with
  | .error s => BlockIter.newErrorIterator s
  | .ok handle =>
    match t.file.readBlock options.verifyChecksums handle with
    | .error s => BlockIter.newErrorIterator s
    | .ok contents => BlockIter.overEntries contents.entries

/-- `NewIterator`. -/
def newIterator (t : Table α) (options : ReadOptions α) : TableIterator α :=
  { blockFunction := t.blockReader options, indexIter := BlockIter.overEntries t.indexBlock }

/-- `filter != nullptr && handle.DecodeFrom(&handle_value).ok() && !filter->KeyMayMatch(..)`. -/
def filterRejects (t : Table α) (handleValue : Bytes) (k : InternalKey α) : Bool :=
  match t.filter, decodeFrom handleValue with
  | some filter, .ok handle => !filter.keyMayMatch handle.offset k.encode
  | _, _ => false

/-- `InternalGet` from a valid index iterator on (`:227-248`). -/
def consultBlock {S : Type} (t : Table α) (options : ReadOptions α) (k : InternalKey α) (arg : S)
    (handleResult : S → InternalKey α → Bytes → S) (metrics : Option MetricsCounters)
    (handleValue : Bytes) : Status × S × Option MetricsCounters :=
  if t.filterRejects handleValue k then
    (.ok, arg, metrics.map MetricsCounters.countPruned)  -- "Not found"
  else
    let blockIter := seek (t.blockReader options handleValue) k
    let arg := match current blockIter with
      | some (key, value) => handleResult arg key value
      | none => arg
    (Iterator.status blockIter, arg, metrics.map MetricsCounters.countOpened)

/-- `InternalGet`: the status, what `handle_result` made of `arg`, and the counters. -/
def internalGet {S : Type} (t : Table α) (options : ReadOptions α) (k : InternalKey α) (arg : S)
    (handleResult : S → InternalKey α → Bytes → S) (metrics : Option MetricsCounters) :
    Status × S × Option MetricsCounters :=
  let iiter := seek (BlockIter.overEntries t.indexBlock) k
  let result := match current iiter with
    | some (_, handleValue) => t.consultBlock options k arg handleResult metrics handleValue
    | none => (.ok, arg, metrics)
  (if result.1.isOk then Iterator.status iiter else result.1, result.2)

/-- `RangeMayMatch`. A filter whose loop never ends answers nothing; it counts as `true` here. -/
def rangeMayMatch (t : Table α) (lo hi : α) : Bool :=
  match t.filter with
  | none => true
  | some filter => (filter.rangeMayMatch (Slice.data lo) (Slice.data hi)).getD true

omit [LinearOrder α] [Slice α] in
/-- **`ReadMeta`** reads the filter the metaindex names after the policy. -/
theorem readMeta_named {options : Options} {policy : FilterPolicy} {file : RandomAccessFile α}
    {footer : Footer} {contents : BlockContents α} {value : Bytes}
    (hpolicy : options.filterPolicy = some policy)
    (hmeta : file.readBlock options.paranoidChecks footer.metaindexHandle = .ok contents)
    (hseek : contents.metaEntries[seekPos contents.metaEntries (filterKey policy)]? =
      some (filterKey policy, value)) :
    readMeta options file footer = readFilter options policy file value := by
  unfold readMeta
  simp only [hpolicy, hmeta, BlockIter.current_seek, hseek, if_true]

/-! ## Well-formed tables -/

/-- The entries of the block a handle names. -/
def blockEntries (t : Table α) (indexValue : Bytes) : List (InternalKey α × Bytes) :=
  match decodeFrom indexValue with
  | .error _ => []
  | .ok handle =>
    match t.file.readBlock false handle with
    | .error _ => []
    | .ok contents => contents.entries

/-- All entries of the table, block by block. -/
def entries (t : Table α) : List (InternalKey α × Bytes) :=
  flat t.indexBlock t.blockEntries

/-- What `TableBuilder` (not part of the repository) writes: every block can be read, keys strictly
ascend, and the index key of a block lies between it and the next one; it is a key of the block, or
it was shortened, and then the next block starts with a larger user key. -/
structure WellFormed (t : Table α) : Prop where
  readable : ∀ e ∈ t.indexBlock, ∃ handle, decodeFrom e.2 = .ok handle ∧ ∀ verify, ∃ contents,
    t.file.readBlock verify handle = .ok contents ∧ contents.entries = t.blockEntries e.2
  sorted : ∀ e ∈ t.indexBlock, (t.blockEntries e.2).Pairwise fun a b => a.1 < b.1
  separates : Separates t.indexBlock t.blockEntries
  separator : t.indexBlock.Pairwise fun e f => (∃ x ∈ t.blockEntries e.2, x.1 = e.1) ∨
    ∀ x ∈ t.blockEntries f.2, e.1.userKey < x.1.userKey

omit [Coding] in
theorem blockReader_eq {t : Table α} (ht : t.WellFormed) (options : ReadOptions α)
    {e : InternalKey α × Bytes} (he : e ∈ t.indexBlock) :
    t.blockReader options e.2 = BlockIter.overEntries (t.blockEntries e.2) := by
  obtain ⟨handle, hd, hread⟩ := ht.readable e he
  obtain ⟨contents, hc, hentries⟩ := hread options.verifyChecksums
  rw [blockReader, hd]
  dsimp only
  rw [hc, ← hentries]

omit [Coding] in
theorem blockReader_opens {t : Table α} (ht : t.WellFormed) (options : ReadOptions α) :
    Opens (t.blockReader options) t.indexBlock t.blockEntries := by
  intro e he
  rw [blockReader_eq ht options he]
  exact ListCursor.tracks (BlockIter.overEntries (t.blockEntries e.2))

omit [Coding] in
/-- **The table iterator** is a cursor over the entries. -/
theorem newIterator_tracks {t : Table α} (ht : t.WellFormed) (options : ReadOptions α) :
    Tracks t.entries (t.newIterator options) t.entries.length :=
  tracks_flat (ListCursor.tracks (BlockIter.overEntries t.indexBlock)) (blockReader_opens ht options)
    ht.separates

omit [Slice α] [Coding] in
theorem entries_sorted {t : Table α} (ht : t.WellFormed) : t.entries.Pairwise fun a b => a.1 < b.1 := by
  rw [entries, flat, List.pairwise_flatMap]
  refine ⟨ht.sorted, ht.separates.lower.imp_of_mem fun he _ h => ?_⟩
  intro x hx y hy
  exact lt_of_le_of_lt (ht.separates.upper _ he x hx) (h y hy)

/-! ## Point lookups in a table -/

omit [Slice α] [Coding] in
/-- What the block under the index iterator shows for `k` is the table's first entry at or after
`k`, unless that entry belongs to another user key. -/
theorem seek_block {t : Table α} (ht : t.WellFormed) (k : InternalKey α) {e : InternalKey α × Bytes}
    (he : t.indexBlock[seekPos t.indexBlock k]? = some e) :
    t.entries[seekPos t.entries k]? = (t.blockEntries e.2)[seekPos (t.blockEntries e.2) k]? ∨
    (t.blockEntries e.2)[seekPos (t.blockEntries e.2) k]? = none ∧
      ∀ x, t.entries[seekPos t.entries k]? = some x → x.1.userKey ≠ k.userKey := by
  have hpos : seekPos t.entries k = offset t.indexBlock t.blockEntries (seekPos t.indexBlock k) +
      seekPos (t.blockEntries e.2) k := seekPos_flat ht.separates k he
  by_cases hin : seekPos (t.blockEntries e.2) k < (t.blockEntries e.2).length
  · left
    rw [hpos]
    exact flat_get he hin
  · refine Or.inr ⟨List.getElem?_eq_none (by omega), fun x hx => ?_⟩
    have hlen : seekPos (t.blockEntries e.2) k = (t.blockEntries e.2).length := by
      have := seekPos_le (t.blockEntries e.2) k
      omega
    have hall : ∀ y ∈ t.blockEntries e.2, y.1 < k := by
      intro y hy
      obtain ⟨j, hj, rfl⟩ := List.mem_iff_getElem.1 hy
      exact lt_of_seekPos (by omega) hj
    obtain ⟨hi, hget⟩ := List.getElem?_eq_some_iff.1 he
    have hle : k ≤ e.1 := by
      have := le_of_seekPos hi
      rwa [List.get_eq_getElem, hget] at this
    -- the entry lies in a later block
    have hx' : x ∈ flat (t.indexBlock.drop (seekPos t.indexBlock k + 1)) t.blockEntries := by
      rw [hpos, hlen, entries, flat_split he, List.getElem?_append_right (by simp [offset]),
        List.length_append] at hx
      exact List.mem_of_getElem? hx
    obtain ⟨f, hf, hxf⟩ := List.mem_flatMap.1 hx'
    rcases pairwise_drop ht.separator he f hf with ⟨y, hy, hye⟩ | hlt
    · exact absurd (hall y hy) (not_lt.2 (hye ▸ hle))
    · exact (lt_of_le_of_lt (InternalKey.userKey_le hle) (hlt x hxf)).ne'

/-- **`InternalGet`** hands over the first entry at or after `k`, as far as `handle_result` cares
about it: it may pass over an entry of another user key. -/
theorem internalGet_spec {S : Type} {t : Table α} (ht : t.WellFormed) (options : ReadOptions α)
    (k : InternalKey α) (arg : S) (f : S → InternalKey α → Bytes → S) (metrics : Option MetricsCounters)
    (hf : ∀ x ∈ t.entries, x.1.userKey ≠ k.userKey → f arg x.1 x.2 = arg)
    (hfilter : ∀ e, t.indexBlock[seekPos t.indexBlock k]? = some e → t.filterRejects e.2 k = true →
      ∀ x, t.entries[seekPos t.entries k]? = some x → x.1.userKey ≠ k.userKey) :
    (t.internalGet options k arg f metrics).1 = .ok ∧
    (t.internalGet options k arg f metrics).2.1 =
      match t.entries[seekPos t.entries k]? with
      | some x => f arg x.1 x.2
      | none => arg := by
  unfold internalGet
  simp only [BlockIter.current_seek, BlockIter.status_seek]
  rcases Option.eq_none_or_eq_some t.indexBlock[seekPos t.indexBlock k]? with he | ⟨e, he⟩
  · have hpos : seekPos t.entries k = t.entries.length := seekPos_flat_none ht.separates k he
    simp only [he, hpos, List.getElem?_eq_none (le_refl _)]
    exact ⟨rfl, trivial⟩
  · have hmem := List.mem_of_getElem? he
    simp only [he]
    unfold consultBlock
    by_cases hr : t.filterRejects e.2 k
    · -- the filter has ruled out the user key
      rw [if_pos hr]
      refine ⟨rfl, ?_⟩
      cases hx : t.entries[seekPos t.entries k]? with
      | none => rfl
      | some x => exact (hf x (List.mem_of_getElem? hx) (hfilter _ he hr x hx)).symm
    · rw [if_neg hr, blockReader_eq ht options hmem]
      simp only [BlockIter.current_seek, BlockIter.status_seek]
      refine ⟨rfl, ?_⟩
      rcases seek_block ht k he with heq | ⟨hnone, hother⟩
      · rw [heq]
        cases (t.blockEntries e.2)[seekPos (t.blockEntries e.2) k]? with
        | none => rfl
        | some x => rfl
      · rw [hnone]
        cases hx : t.entries[seekPos t.entries k]? with
        | none => rfl
        | some x => exact (hf x (List.mem_of_getElem? hx) (hother x hx)).symm

end Table

end LevelDbSurf
