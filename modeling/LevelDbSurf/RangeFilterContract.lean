import LevelDbSurf.DBImpl
import LevelDbSurf.OneBlockTable
import LevelDbSurf.FilterBlockContract

/-!
# The user's range filter on the database path

`SanitizeOptions` (`db_impl.cc:99`) installs `InternalFilterPolicy` in the user's place, and that class
inherits `RangeMayMatch` from `FilterPolicy` (`filter_policy.h:53`), whose body is `return true`. So the
tables of a database never ask the user's policy about a range: a table is skipped only when its
filter block has no entry to ask about (`range_filter_arrives_iff`).
-/

namespace LevelDbSurf

open Cursors FilterBlockBuilder

section Contract
variable {α : Type} [LinearOrder α] [Slice α] [Coding] [TableFormat]

/-- A table written under `policy`: its metaindex names, after the policy, a block that holds what the
builder made of these calls. -/
def WrittenUnder (policy : FilterPolicy) (paranoidChecks : Bool) (file : RandomAccessFile α)
    (size : UInt64) (blocks : Blocks) : Prop :=
  ¬ size < TableFormat.kEncodedLength ∧
  ∃ footer index metaindex value handle block,
    file.readFooter size = .ok footer ∧
    file.readBlock paranoidChecks footer.indexHandle = .ok index ∧
    file.readBlock paranoidChecks footer.metaindexHandle = .ok metaindex ∧
    metaindex.metaEntries[seekPos metaindex.metaEntries (Table.filterKey policy)]? =
      some (Table.filterKey policy, value) ∧
    decodeFrom value = .ok handle ∧
    file.readBlock paranoidChecks handle = .ok block ∧
    block.data = (build policy blocks).result

/-- Whenever a scan with these options opens the file, on level 0 or through the callback of the
iterator over a deeper level, it gets the empty iterator. -/
def ScanSkips (cache : TableCache α) (options : ReadOptions α) (f : FileMetaData α) : Prop :=
  ∀ metrics,
    (cache.newIterator options f.number f.fileSize options.lo options.hi metrics).iter =
      .inr BlockIter.newEmptyIterator ∧
    (getFileIterator cache options.lo options.hi options (fileValue f) metrics).iter =
      .inr BlockIter.newEmptyIterator

/-- No entry of the filter block delimits a slice of the filter area (and the entries do not outnumber
the loop's counter). -/
def NoEntryDecodes (r : FilterBlockReader) : Prop :=
  r.num < 2 ^ 32 ∧ ∀ e, ∀ h : e < r.num, e < 2 ^ 30 → r.entryOk e h = false

omit [LinearOrder α] [Slice α] in
/-- `Open` reads the filter block back. -/
theorem openTable_writtenUnder {options : Options} {policy : FilterPolicy}
    (hpolicy : options.filterPolicy = some policy) {file : RandomAccessFile α} {size : UInt64}
    {blocks : Blocks} (hw : WrittenUnder policy options.paranoidChecks file size blocks) :
    ∃ t : Table α, Table.openTable options file size = .ok t ∧
      t.filter = some (FilterBlockReader.new policy (build policy blocks).result) := by
  obtain ⟨hsize, footer, index, metaindex, value, handle, block, hfooter, hindex, hmeta, hseek, hdecode,
    hblock, hdata⟩ := hw
  unfold Table.openTable
  rw [if_neg hsize, hfooter]
  dsimp only
  rw [hindex]
  refine ⟨_, rfl, ?_⟩
  dsimp only
  rw [Table.readMeta_named hpolicy hmeta hseek, Table.readFilter, hdecode]
  dsimp only
  rw [hblock, ← hdata]

omit [TableFormat] in
/-- Under the wrapper a table lets a range through unless no entry decodes. -/
theorem rangeMayMatch_internal_eq_false (P : FilterPolicy) (contents lo hi : Bytes) :
    (FilterBlockReader.new (internalFilterPolicy P) contents).rangeMayMatch lo hi = some false ↔
      NoEntryDecodes (FilterBlockReader.new (internalFilterPolicy P) contents) := by
  rw [FilterBlockReader.rangeMayMatch_some_false, (new_fields (internalFilterPolicy P) contents).1]
  simp only [internalFilterPolicy, Bool.and_true]
  exact Iff.rfl

/-- The scan skips a table exactly when its `RangeMayMatch` is false. -/
theorem scanSkips_iff {cache : TableCache α} {f : FileMetaData α} {t : Table α}
    (hfind : cache.findTable f.number f.fileSize = .ok t) {options : ReadOptions α}
    (hb : bounded options.lo options.hi = true) :
    ScanSkips cache options f ↔ t.rangeMayMatch options.lo options.hi = false := by
  have hiter : ∀ metrics, (cache.newIterator options f.number f.fileSize options.lo options.hi metrics).iter =
      if t.rangeMayMatch options.lo options.hi then .inl (t.newIterator options)
      else .inr BlockIter.newEmptyIterator := by
    intro metrics
    rw [TableCache.newIterator, hfind]
    dsimp only
    rw [if_pos hb]
    cases t.rangeMayMatch options.lo options.hi <;> rfl
  constructor
  · intro h
    have h0 := (h none).1
    rw [hiter] at h0
    cases hr : t.rangeMayMatch options.lo options.hi with
    | false => rfl
    | true =>
      rw [hr, if_pos rfl] at h0
      cases h0
  · intro h metrics
    rw [getFileIterator_fileValue, hiter, h]
    exact ⟨rfl, rfl⟩

omit [TableFormat] in
/-- For filters that fit the offsets: only the block without a filter. -/
theorem noEntryDecodes_blockOf (P : FilterPolicy) {F : Bytes} (hlen : F.length < 2 ^ 32) :
    NoEntryDecodes (FilterBlockReader.new P (blockOf F)) ↔ F = [] := by
  constructor
  · rintro ⟨-, hno⟩
    by_contra hF
    obtain ⟨h, hnew⟩ := FilterBlockReader.new_blockOf P hF hlen
    rw [hnew] at hno
    have h0 := hno 0 Nat.two_pos (by omega)
    rw [(FilterBlockReader.entries_blockOf P hF hlen).1.1] at h0
    cases h0
  · rintro rfl
    have hnum := FilterBlockReader.new_blockOf_nil P
    exact ⟨by omega, fun e he => by omega⟩

/-- In a database opened with `P`, a scan skips a table written under it iff no entry of its filter
block decodes, whatever `P` says. -/
theorem scanSkips_writtenUnder {rawOptions : Options} {P : FilterPolicy}
    (hP : rawOptions.filterPolicy = some P)
    {openFile openOldFile : UInt64 → Except Status (RandomAccessFile α)} {f : FileMetaData α}
    {file : RandomAccessFile α} (hfile : openFile f.number = .ok file) {blocks : Blocks}
    (hw : WrittenUnder (internalFilterPolicy P) rawOptions.paranoidChecks file f.fileSize blocks)
    {options : ReadOptions α} (hb : bounded options.lo options.hi = true) :
    ScanSkips (TableCache.ofOptions rawOptions openFile openOldFile) options f ↔
      NoEntryDecodes (FilterBlockReader.new (internalFilterPolicy P)
        (build (internalFilterPolicy P) blocks).result) := by
  have hpolicy : (sanitizeOptions rawOptions).filterPolicy = some (internalFilterPolicy P) := by
    rw [sanitizeOptions, hP]
    rfl
  obtain ⟨t, ht, hfilter⟩ := openTable_writtenUnder hpolicy hw
  have hfind : (TableCache.ofOptions rawOptions openFile openOldFile).findTable f.number f.fileSize = .ok t :=
    (TableCache.findTable_of_openFile (c := TableCache.ofOptions rawOptions openFile openOldFile) hfile
      f.fileSize).trans ht
  rw [scanSkips_iff hfind hb, Table.rangeMayMatch, hfilter,
    ← rangeMayMatch_internal_eq_false P _ (Slice.data options.lo) (Slice.data options.hi)]
  dsimp only
  cases FilterBlockReader.rangeMayMatch _ (Slice.data options.lo) (Slice.data options.hi) with
  | none => simp
  | some b => simp

/-- **The user's verdict on a range.** In a database opened with the filter policy `P`, `P`'s `false`
for a table's filter makes scans skip the table iff `P` lets the range through anyway, or no entry of
the table's filter block decodes. -/
theorem range_filter_arrives_iff (rawOptions : Options) (P : FilterPolicy)
    (hP : rawOptions.filterPolicy = some P)
    (openFile openOldFile : UInt64 → Except Status (RandomAccessFile α)) (f : FileMetaData α)
    (file : RandomAccessFile α) (hfile : openFile f.number = .ok file) (blocks : Blocks)
    (hw : WrittenUnder (internalFilterPolicy P) rawOptions.paranoidChecks file f.fileSize blocks)
    (options : ReadOptions α) (hb : bounded options.lo options.hi = true) :
    (P.rangeMayMatch (Slice.data options.lo) (Slice.data options.hi)
        (filterOf (internalFilterPolicy P) (keysOf blocks)) = false →
      ScanSkips (TableCache.ofOptions rawOptions openFile openOldFile) options f) ↔
    (P.rangeMayMatch (Slice.data options.lo) (Slice.data options.hi)
        (filterOf (internalFilterPolicy P) (keysOf blocks)) = true ∨
      NoEntryDecodes (FilterBlockReader.new (internalFilterPolicy P)
        (build (internalFilterPolicy P) blocks).result)) := by
  rw [scanSkips_writtenUnder hP hfile hw hb]
  cases P.rangeMayMatch (Slice.data options.lo) (Slice.data options.hi)
    (filterOf (internalFilterPolicy P) (keysOf blocks)) with
  | false => simp
  | true => simp

end Contract

/-! ### One table under a policy that rules the range out -/

namespace SampleFilter

def key : InternalKey Bytes := ⟨[97], packSequenceAndType 5 .value⟩

def policy : FilterPolicy := bytePolicy false

def rawOptions : Options := { filterPolicy := some policy }

def metaData : FileMetaData Bytes := ⟨7, 500, key, key, le_refl _⟩

/-- `[b, c]`. -/
def readOptions : ReadOptions Bytes := { lo := [98], hi := [99] }

variable [Coding]

def blocks : Blocks := [(0, [key.encode])]

def filterBlock : Bytes := (build (internalFilterPolicy policy) blocks).result

def file : RandomAccessFile Bytes :=
  OneBlock.file key [(key, [1])] (OneBlock.filterEntry (internalFilterPolicy policy)) filterBlock

theorem writtenUnder :
    letI := smallHandles
    WrittenUnder (internalFilterPolicy policy) rawOptions.paranoidChecks file metaData.fileSize blocks := by
  let _ := smallHandles
  refine ⟨by decide, ⟨⟨2, 0⟩, ⟨3, 0⟩⟩, { entries := [(key, [0, 0])] },
    { metaEntries := OneBlock.filterEntry (internalFilterPolicy policy) }, [1, 0], ⟨1, 0⟩,
    { data := filterBlock }, rfl, rfl, rfl, ?_, rfl, rfl, ?_⟩
  · simp [seekPos, OneBlock.filterEntry, List.findIdx_cons]
  · simp only [filterBlock]

theorem filterOf_blocks : filterOf (internalFilterPolicy policy) (keysOf blocks) = [97] := by
  have hkeys : keysOf blocks = [key.encode] := rfl
  rw [hkeys, filterOf, (keysShown_eq_iff _).2 (by simp)]
  simp only [internalFilterPolicy, List.map_cons, List.map_nil, extractUserKey_encode]
  rfl

end SampleFilter

theorem range_filter_arrives_iff_sample :
    letI := littleEndian
    letI := smallHandles
    (SampleFilter.policy.rangeMayMatch [98] [99]
        (filterOf (internalFilterPolicy SampleFilter.policy) (keysOf SampleFilter.blocks)) = false →
      ScanSkips (TableCache.ofOptions SampleFilter.rawOptions (fun _ => .ok SampleFilter.file)
        (fun _ => .ok SampleFilter.file)) SampleFilter.readOptions SampleFilter.metaData) ↔
    (SampleFilter.policy.rangeMayMatch [98] [99]
        (filterOf (internalFilterPolicy SampleFilter.policy) (keysOf SampleFilter.blocks)) = true ∨
      NoEntryDecodes (FilterBlockReader.new (internalFilterPolicy SampleFilter.policy)
        (build (internalFilterPolicy SampleFilter.policy) SampleFilter.blocks).result)) :=
  letI := littleEndian
  letI := smallHandles
  range_filter_arrives_iff SampleFilter.rawOptions SampleFilter.policy rfl _ _ SampleFilter.metaData
    SampleFilter.file rfl SampleFilter.blocks SampleFilter.writtenUnder SampleFilter.readOptions (by decide)

/-- The table `a` asked for `[b, c]`: the policy rules the range out, and the scan opens the table. -/
theorem range_filter_ignored :
    ¬ ∀ [Coding] [TableFormat] (rawOptions : Options) (P : FilterPolicy), rawOptions.filterPolicy = some P →
      ∀ (openFile openOldFile : UInt64 → Except Status (RandomAccessFile Bytes)) (f : FileMetaData Bytes)
        (file : RandomAccessFile Bytes), openFile f.number = .ok file → ∀ blocks : Blocks,
      WrittenUnder (internalFilterPolicy P) rawOptions.paranoidChecks file f.fileSize blocks →
      ∀ options : ReadOptions Bytes, bounded options.lo options.hi = true → options.lo ≤ options.hi →
      P.rangeMayMatch (Slice.data options.lo) (Slice.data options.hi)
        (filterOf (internalFilterPolicy P) (keysOf blocks)) = false →
      ScanSkips (TableCache.ofOptions rawOptions openFile openOldFile) options f := by
  intro h
  let _ := littleEndian
  let _ := smallHandles
  have hskips := h SampleFilter.rawOptions SampleFilter.policy rfl (fun _ => .ok SampleFilter.file)
    (fun _ => .ok SampleFilter.file) SampleFilter.metaData SampleFilter.file rfl SampleFilter.blocks
    SampleFilter.writtenUnder SampleFilter.readOptions (by decide) (by decide)
    (by rw [SampleFilter.filterOf_blocks]; decide)
  rw [scanSkips_writtenUnder (P := SampleFilter.policy) rfl rfl SampleFilter.writtenUnder (by decide),
    (build_result _ _ (by decide)).2, SampleFilter.filterOf_blocks,
    noEntryDecodes_blockOf _ (by decide)] at hskips
  cases hskips

end LevelDbSurf
