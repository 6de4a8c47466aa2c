import LevelDbSurf.VersionIterators
import LevelDbSurf.FilterBlockProofs

/-!
# Tables of one data block

Every strictly sorted list of entries is the contents of a well-formed table with one data block. The
files here have it at offset 0, a filter block at 1, the metaindex block at 2 and the index block at 3.
-/

namespace LevelDbSurf

open Cursors TwoLevelIterator

/-- Handles below 128, whose encoding is one byte for the offset and one for the size. -/
@[reducible] def smallHandles : TableFormat where
  decodeFrom
    | offset :: size :: _ =>
      if offset < 128 ∧ size < 128 then .ok ⟨offset.toUInt64, size.toUInt64⟩
      else .error (.corruption "bad block handle")
    | _ => .error (.corruption "bad block handle")
  kEncodedLength := 48

variable {α : Type} [LinearOrder α]

/-- A table whose index has one entry. -/
theorem Table.wellFormed_of_one_block [TableFormat] {t : Table α} {k : InternalKey α} {v : Bytes}
    {handle : BlockHandle} {entries : List (InternalKey α × Bytes)} (hindex : t.indexBlock = [(k, v)])
    (hdecode : decodeFrom v = .ok handle)
    (hread : ∀ verify, ∃ contents, t.file.readBlock verify handle = .ok contents ∧ contents.entries = entries)
    (hsorted : entries.Pairwise fun a b => a.1 < b.1) (hupper : ∀ x ∈ entries, x.1 ≤ k) :
    t.WellFormed ∧ t.entries = entries := by
  have hblock : t.blockEntries v = entries := by
    obtain ⟨contents, hc, rfl⟩ := hread false
    rw [Table.blockEntries, hdecode]
    dsimp only
    rw [hc]
  refine ⟨⟨?_, ?_, ⟨?_, ?_⟩, ?_⟩, ?_⟩
  · intro e he
    rw [hindex, List.mem_singleton] at he
    subst he
    refine ⟨handle, hdecode, fun verify => ?_⟩
    rw [hblock]
    exact hread verify
  · intro e he
    rw [hindex, List.mem_singleton] at he
    subst he
    rw [hblock]
    exact hsorted
  · intro e he
    rw [hindex, List.mem_singleton] at he
    subst he
    rw [hblock]
    exact hupper
  · rw [hindex]
    exact List.pairwise_singleton _ _
  · rw [hindex]
    exact List.pairwise_singleton _ _
  · rw [Table.entries, hindex, flat, List.flatMap_singleton, hblock]

namespace OneBlock

/-- A file with these entries, index key `k`, metaindex entries and filter block. -/
def file (k : InternalKey α) (entries : List (InternalKey α × Bytes)) (metaEntries : List (Bytes × Bytes))
    (filterBlock : Bytes) : RandomAccessFile α where
  readFooter _ := .ok { metaindexHandle := ⟨2, 0⟩, indexHandle := ⟨3, 0⟩ }
  readBlock _ handle :=
    if handle.offset = 0 then .ok { entries }
    else if handle.offset = 1 then .ok { data := filterBlock }
    else if handle.offset = 2 then .ok { metaEntries }
    else .ok { entries := [(k, [0, 0])] }

/-- A cache over these files. -/
def cache (options : Options) (files : UInt64 → Option (RandomAccessFile α)) : TableCache α where
  options
  openFile number := match files number with
    | some f => .ok f
    | none => .error (.ioError "no such file")
  openOldFile _ := .error (.ioError "no such file")

/-- The table with the filter `Table::Open` finds for it. -/
def table [Coding] (options : Options) (k : InternalKey α) (entries : List (InternalKey α × Bytes))
    (metaEntries : List (Bytes × Bytes)) (filterBlock : Bytes) : Table α :=
  letI := smallHandles
  { options
    file := file k entries metaEntries filterBlock
    filter := Table.readMeta options (file k entries metaEntries filterBlock) ⟨⟨2, 0⟩, ⟨3, 0⟩⟩
    metaindexHandle := ⟨2, 0⟩
    indexBlock := [(k, [0, 0])] }

variable [Coding]

/-- The cache serves the file's table. -/
theorem serves {options : Options} {files : UInt64 → Option (RandomAccessFile α)} {f : FileMetaData α}
    {k : InternalKey α} {entries : List (InternalKey α × Bytes)} {metaEntries : List (Bytes × Bytes)}
    {filterBlock : Bytes} (hfile : files f.number = some (file k entries metaEntries filterBlock))
    (hsize : ¬ f.fileSize < 48) (hsorted : entries.Pairwise fun a b => a.1 < b.1)
    (hupper : ∀ x ∈ entries, x.1 ≤ k) (hwithin : ∀ x ∈ entries, f.smallest ≤ x.1 ∧ x.1 ≤ f.largest) :
    letI := smallHandles
    Serves (cache options files) f (table options k entries metaEntries filterBlock) ∧
      (table options k entries metaEntries filterBlock).entries = entries := by
  let _ := smallHandles
  have hdecode : decodeFrom [0, 0] = .ok ⟨0, 0⟩ := rfl
  obtain ⟨hwf, hentries⟩ := Table.wellFormed_of_one_block (t := table options k entries metaEntries filterBlock)
    rfl hdecode (fun _ => ⟨_, rfl, rfl⟩) hsorted hupper
  refine ⟨⟨?_, hwf, ?_⟩, hentries⟩
  · have hopen : (cache options files).openFile f.number = .ok (file k entries metaEntries filterBlock) := by
      show (match files f.number with | some f => Except.ok f | none => _) = _
      rw [hfile]
    rw [TableCache.findTable_of_openFile hopen]
    exact if_neg hsize
  · rw [hentries]
    exact hwithin

omit [LinearOrder α] in
/-- The one data block starts at offset 0. -/
theorem offsets {options : Options} {k : InternalKey α} {entries : List (InternalKey α × Bytes)}
    {metaEntries : List (Bytes × Bytes)} {filterBlock : Bytes} :
    letI := smallHandles
    ∀ e ∈ (table options k entries metaEntries filterBlock).indexBlock, ∀ handle,
      decodeFrom e.2 = .ok handle → handle.offset.toNat < 2 ^ 32 := by
  intro e he handle hdecode
  cases List.mem_singleton.1 he
  cases hdecode
  decide

/-- The metaindex block that names the filter block of this policy. -/
def filterEntry (P : FilterPolicy) : List (Bytes × Bytes) := [(Table.filterKey P, [1, 0])]

omit [LinearOrder α] in
/-- A table whose metaindex names its filter block is opened with it. -/
theorem table_filter {options : Options} {P : FilterPolicy} (hP : options.filterPolicy = some P)
    (k : InternalKey α) (entries : List (InternalKey α × Bytes)) (filterBlock : Bytes) :
    (table options k entries (filterEntry P) filterBlock).filter =
      some (FilterBlockReader.new P filterBlock) := by
  let _ := smallHandles
  have hmeta : (file k entries (filterEntry P) filterBlock).readBlock options.paranoidChecks ⟨2, 0⟩ =
      .ok { metaEntries := filterEntry P } := rfl
  have hseek : (filterEntry P)[seekPos (filterEntry P) (Table.filterKey P)]? =
      some (Table.filterKey P, [1, 0]) := by
    simp [seekPos, filterEntry, List.findIdx_cons]
  have hread : Table.readMeta options (file k entries (filterEntry P) filterBlock) ⟨⟨2, 0⟩, ⟨3, 0⟩⟩ = _ :=
    Table.readMeta_named hP hmeta hseek
  exact hread

omit [LinearOrder α] in
/-- Its range answer, for a block the builder wrote. -/
theorem table_rangeMayMatch [Slice α] {options : Options} {P : FilterPolicy}
    (hP : options.filterPolicy = some P) (k : InternalKey α) (entries : List (InternalKey α × Bytes))
    {F : Bytes} (hF : F ≠ []) (hlen : F.length < 2 ^ 32) (lo hi : α) :
    (table options k entries (filterEntry P) (blockOf F)).rangeMayMatch lo hi =
      (P.rangeMayMatch (Slice.data lo) (Slice.data hi) F ||
        P.rangeMayMatch (Slice.data lo) (Slice.data hi) []) := by
  rw [Table.rangeMayMatch, table_filter hP]
  show (FilterBlockReader.rangeMayMatch _ _ _).getD true = _
  rw [FilterBlockReader.rangeMayMatch_blockOf P hF hlen]
  rfl

end OneBlock

end LevelDbSurf
