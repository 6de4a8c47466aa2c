import LevelDbSurf.Compaction
import LevelDbSurf.OneBlockTable

/-!
# Approximate offsets (`version_set.cc:1135`, `table.cc:257`, `db_impl.cc:1473`)

| here | there |
| --- | --- |
| `Table.approximateOffsetOf`      | `Table::ApproximateOffsetOf` |
| `addOffsets`                     | the loop over the files of a level in `VersionSet::ApproximateOffsetOf` |
| `VersionSet.approximateOffsetOf` | the same |
| `VersionSet.getApproximateSizes` | `DBImpl::GetApproximateSizes` |

The early `break` leaves out files that would add nothing (`addOffsets_eq`), so the offset is a sum over all files of
what each has before the key (`fileOffset`). That grows with the key, up to the size of the file.
-/

namespace LevelDbSurf

open Cursors

variable {α : Type} [LinearOrder α]

section Definitions
variable [Coding] [TableFormat]

/-- `Table::ApproximateOffsetOf`. -/
def Table.approximateOffsetOf (t : Table α) (key : InternalKey α) : UInt64 :=
  let indexIter := seek (BlockIter.overEntries t.indexBlock) key
  match current indexIter with
  | some (_, input) =>
    match decodeFrom input with
    | .ok handle => handle.offset
    | .error _ => t.metaindexHandle.offset  -- "Strange: we can't decode the block handle in the index block"
  | none => t.metaindexHandle.offset  -- "key is past the last key in the file"

variable [Slice α]

/-- The `else` of the loop: "`ikey` falls in the range for this table". -/
def tableOffset (cache : TableCache α) (ikey : InternalKey α) (f : FileMetaData α) : UInt64 :=
  let opened := cache.newIterator {} f.number f.fileSize Slice.nil Slice.nil none
  match opened.tableptr with
  | some tableptr => tableptr.approximateOffsetOf ikey
  | none => 0

/-- The loop over the files of a level. -/
def addOffsets (cache : TableCache α) (ikey : InternalKey α) (level : Nat) :
    List (FileMetaData α) → UInt64 → UInt64
  | [], result => result
  | f :: files, result =>
    if f.largest ≤ ikey then addOffsets cache ikey level files (result + f.fileSize)  -- "before ikey"
    else if f.smallest > ikey then
      if level > 0 then result  -- "no further files in this level will contain data"
      else addOffsets cache ikey level files result
    else addOffsets cache ikey level files (result + tableOffset cache ikey f)

/-- A `Range` of user keys (`db.h`). -/
structure KeyRange (α : Type) where
  start : α
  limit : α

namespace VersionSet

/-- `ApproximateOffsetOf`. -/
def approximateOffsetOf (vset : VersionSet α) (v : Version α) (ikey : InternalKey α) : UInt64 :=
  (List.range kNumLevels).foldl (fun result level => addOffsets vset.tableCache ikey level (v.files level) result) 0

/-- `GetApproximateSizes`: the sizes of the ranges. -/
def getApproximateSizes (vset : VersionSet α) (ranges : List (KeyRange α)) : List UInt64 :=
  ranges.map fun range =>
    let k1 := lookupKey range.start kMaxSequenceNumber
    let k2 := lookupKey range.limit kMaxSequenceNumber
    let start := vset.approximateOffsetOf vset.current k1
    let limit := vset.approximateOffsetOf vset.current k2
    if limit ≥ start then limit - start else 0

end VersionSet

/-! ## Readable tables -/

/-- The index keys and the offsets of the data blocks ascend, and the metaindex block is after them, in the file. -/
structure Table.LaidOut (t : Table α) (fileSize : UInt64) : Prop where
  indexKeys : t.indexBlock.Pairwise fun e f => e.1 < f.1
  decodes : ∀ e ∈ t.indexBlock, ∃ handle, decodeFrom e.2 = .ok handle
  offsets : t.indexBlock.Pairwise fun e f => ∀ a b, decodeFrom e.2 = .ok a → decodeFrom f.2 = .ok b → a.offset < b.offset
  metaindex : ∀ e ∈ t.indexBlock, ∀ handle, decodeFrom e.2 = .ok handle → handle.offset < t.metaindexHandle.offset
  inFile : t.metaindexHandle.offset ≤ fileSize

/-- The tables of the version can be opened. -/
def Version.LaidOut (v : Version α) (cache : TableCache α) : Prop :=
  ∀ level, ∀ f ∈ v.files level, ∃ t, cache.findTable f.number f.fileSize = .ok t ∧ t.LaidOut f.fileSize

end Definitions

/-- All files of a version. -/
def Version.filesOnLevels (v : Version α) : List (FileMetaData α) := (List.range kNumLevels).flatMap v.files

/-- The size of the version's files together. -/
def Version.totalSize (v : Version α) : Nat := (v.filesOnLevels.map fun f => f.fileSize.toNat).sum

/-! ## One table -/

/-- A larger key is sought later. -/
theorem seekPos_mono {κ ν : Type} [LinearOrder κ] (L : List (κ × ν)) {k₁ k₂ : κ} (hk : k₁ ≤ k₂) :
    seekPos L k₁ ≤ seekPos L k₂ := by
  by_contra hlt
  rw [not_le] at hlt
  have hin : seekPos L k₂ < L.length := lt_of_lt_of_le hlt (seekPos_le L k₁)
  exact absurd hk (not_le.2 (lt_of_le_of_lt (le_of_seekPos hin) (lt_of_seekPos hlt hin)))

section Tables
variable [TableFormat] {t : Table α} {size : UInt64} {k k₁ k₂ : InternalKey α}

/-- The offset is that of the block the index names for the key, or else of the metaindex block. -/
theorem Table.LaidOut.offset_eq (h : t.LaidOut size) (k : InternalKey α) :
    (t.indexBlock[seekPos t.indexBlock k]? = none ∧ t.approximateOffsetOf k = t.metaindexHandle.offset) ∨
      ∃ e handle, t.indexBlock[seekPos t.indexBlock k]? = some e ∧ decodeFrom e.2 = .ok handle ∧
        t.approximateOffsetOf k = handle.offset := by
  unfold approximateOffsetOf
  simp only [BlockIter.current_seek]
  cases hentry : t.indexBlock[seekPos t.indexBlock k]? with
  | none => exact Or.inl ⟨rfl, rfl⟩
  | some e =>
    obtain ⟨handle, hdecode⟩ := h.decodes e (List.mem_of_getElem? hentry)
    refine Or.inr ⟨e, handle, rfl, hdecode, ?_⟩
    dsimp only
    rw [hdecode]

theorem Table.LaidOut.offset_le (h : t.LaidOut size) (k : InternalKey α) :
    (t.approximateOffsetOf k).toNat ≤ t.metaindexHandle.offset.toNat := by
  rcases h.offset_eq k with ⟨-, heq⟩ | ⟨e, handle, hentry, hdecode, heq⟩
  · rw [heq]
  · rw [heq]
    exact (UInt64.lt_iff_toNat_lt.1 (h.metaindex e (List.mem_of_getElem? hentry) handle hdecode)).le

/-- **In a table** the offset grows with the key. -/
theorem Table.LaidOut.offset_mono (h : t.LaidOut size) (hk : k₁ ≤ k₂) :
    (t.approximateOffsetOf k₁).toNat ≤ (t.approximateOffsetOf k₂).toNat := by
  rcases h.offset_eq k₂ with ⟨-, heq₂⟩ | ⟨e₂, handle₂, hentry₂, hdecode₂, heq₂⟩
  · rw [heq₂]
    exact h.offset_le k₁
  · obtain ⟨hin₂, hget₂⟩ := List.getElem?_eq_some_iff.1 hentry₂
    have hpos := seekPos_mono t.indexBlock hk
    rcases h.offset_eq k₁ with ⟨hnone, -⟩ | ⟨e₁, handle₁, hentry₁, hdecode₁, heq₁⟩
    · rw [List.getElem?_eq_none_iff] at hnone
      omega
    · rw [heq₁, heq₂]
      rcases hpos.lt_or_eq with hlt | hsame
      · obtain ⟨hin₁, hget₁⟩ := List.getElem?_eq_some_iff.1 hentry₁
        have hoffsets := List.pairwise_iff_getElem.1 h.offsets _ _ hin₁ hin₂ hlt
        rw [hget₁, hget₂] at hoffsets
        exact (UInt64.lt_iff_toNat_lt.1 (hoffsets handle₁ handle₂ hdecode₁ hdecode₂)).le
      · rw [hsame, hentry₂] at hentry₁
        obtain rfl := Option.some.inj hentry₁
        rw [hdecode₂] at hdecode₁
        rw [Except.ok.inj hdecode₁]

end Tables

/-! ## One file -/

section Files
variable [Slice α] [Coding] [TableFormat] {cache : TableCache α} {f : FileMetaData α} {t : Table α}
  {k k₁ k₂ : InternalKey α}

/-- **Without bounds** a table that can be opened is never turned away. -/
theorem tableptr_eq (hfind : cache.findTable f.number f.fileSize = .ok t) :
    (cache.newIterator {} f.number f.fileSize Slice.nil Slice.nil none).tableptr = some t := by
  unfold TableCache.newIterator
  rw [hfind, bounded_nil]
  rfl

/-- What the file has before the key. -/
def fileOffset (cache : TableCache α) (ikey : InternalKey α) (f : FileMetaData α) : UInt64 :=
  if f.largest ≤ ikey then f.fileSize else if f.smallest > ikey then 0 else tableOffset cache ikey f

theorem tableOffset_eq (hfind : cache.findTable f.number f.fileSize = .ok t) (k : InternalKey α) :
    tableOffset cache k f = t.approximateOffsetOf k := by
  simp only [tableOffset, tableptr_eq hfind]

theorem fileOffset_le (hfind : cache.findTable f.number f.fileSize = .ok t) (h : t.LaidOut f.fileSize)
    (k : InternalKey α) : (fileOffset cache k f).toNat ≤ f.fileSize.toNat := by
  unfold fileOffset
  split
  · exact le_refl _
  · split
    · exact Nat.zero_le _
    · rw [tableOffset_eq hfind]
      exact (h.offset_le k).trans (UInt64.le_iff_toNat_le.1 h.inFile)

/-- **In a file** the offset grows with the key, also where one case takes over from another. -/
theorem fileOffset_mono (hfind : cache.findTable f.number f.fileSize = .ok t) (h : t.LaidOut f.fileSize)
    (hk : k₁ ≤ k₂) : (fileOffset cache k₁ f).toNat ≤ (fileOffset cache k₂ f).toNat := by
  by_cases hall : f.largest ≤ k₂
  · rw [show fileOffset cache k₂ f = f.fileSize from if_pos hall]
    exact fileOffset_le hfind h k₁
  · have hall₁ : ¬ f.largest ≤ k₁ := fun hle => hall (hle.trans hk)
    unfold fileOffset
    rw [if_neg hall₁, if_neg hall]
    by_cases hnone : f.smallest > k₁
    · rw [if_pos hnone]
      exact Nat.zero_le _
    · have hnone₂ : ¬ f.smallest > k₂ := fun hlt => hnone (lt_of_le_of_lt hk hlt)
      rw [if_neg hnone, if_neg hnone₂, tableOffset_eq hfind, tableOffset_eq hfind]
      exact h.offset_mono hk

end Files

/-! ## All files -/

section Sums
variable [Slice α] [Coding] [TableFormat] {cache : TableCache α} {k k₁ k₂ : InternalKey α}

/-- **The loop over a level** adds what each file has before the key; the files behind the `break` have nothing. -/
theorem addOffsets_eq {level : Nat} {files : List (FileMetaData α)} (hs : 1 ≤ level → LevelSorted files)
    (result : UInt64) : addOffsets cache k level files result = result + (files.map (fileOffset cache k)).sum := by
  induction files generalizing result with
  | nil => simp [addOffsets]
  | cons f files ih =>
    have hrest : 1 ≤ level → LevelSorted files := fun hl => (List.pairwise_cons.1 (hs hl)).2
    rw [addOffsets, List.map_cons, List.sum_cons]
    by_cases hall : f.largest ≤ k
    · rw [if_pos hall, ih hrest, fileOffset, if_pos hall, UInt64.add_assoc]
    · rw [if_neg hall]
      by_cases hnone : f.smallest > k
      · have hzero : fileOffset cache k f = 0 := by rw [fileOffset, if_neg hall, if_pos hnone]
        rw [if_pos hnone, hzero, UInt64.zero_add]
        by_cases hl : level > 0
        · -- the rest of the level is after the key too
          have hafter : ∀ g ∈ files, fileOffset cache k g = 0 := by
            intro g hg
            have hlt : k < g.smallest :=
              hnone.trans (lt_of_le_of_lt f.ordered ((List.pairwise_cons.1 (hs hl)).1 g hg))
            rw [fileOffset, if_neg (not_le.2 (hlt.trans_le g.ordered)), if_pos hlt]
          rw [if_pos hl, List.map_congr_left hafter]
          simp
        · rw [if_neg hl, ih hrest]
      · rw [if_neg hnone, ih hrest, fileOffset, if_neg hall, if_neg hnone, UInt64.add_assoc]

/-- **`ApproximateOffsetOf`** as a sum over all files. -/
theorem approximateOffsetOf_eq (vset : VersionSet α) {v : Version α} (hs : v.SortedLevels) (k : InternalKey α) :
    vset.approximateOffsetOf v k = (v.filesOnLevels.map (fileOffset vset.tableCache k)).sum := by
  have hlevels : ∀ (levels : List Nat) (result : UInt64),
      levels.foldl (fun result level => addOffsets vset.tableCache k level (v.files level) result) result =
        result + ((levels.flatMap v.files).map (fileOffset vset.tableCache k)).sum := by
    intro levels
    induction levels with
    | nil => simp
    | cons level levels ih =>
      intro result
      rw [List.foldl_cons, ih, addOffsets_eq (hs level), List.flatMap_cons, List.map_append, List.sum_append,
        UInt64.add_assoc]
  rw [VersionSet.approximateOffsetOf, hlevels, UInt64.zero_add]
  rfl

omit [LinearOrder α] [Slice α] [Coding] [TableFormat] in
/-- A sum that does not overflow. -/
theorem toNat_sum (xs : List UInt64) (h : (xs.map UInt64.toNat).sum < 2 ^ 64) :
    xs.sum.toNat = (xs.map UInt64.toNat).sum := by
  induction xs with
  | nil => rfl
  | cons x xs ih =>
    rw [List.map_cons, List.sum_cons] at h
    rw [List.sum_cons, UInt64.toNat_add, ih (by omega), Nat.mod_eq_of_lt h, List.map_cons, List.sum_cons]

theorem toNat_approximateOffsetOf {vset : VersionSet α} {v : Version α} (hs : v.SortedLevels)
    (hv : v.LaidOut vset.tableCache) (htotal : v.totalSize < 2 ^ 64) (k : InternalKey α) :
    (vset.approximateOffsetOf v k).toNat =
        (v.filesOnLevels.map fun f => (fileOffset vset.tableCache k f).toNat).sum ∧
      (v.filesOnLevels.map fun f => (fileOffset vset.tableCache k f).toNat).sum ≤ v.totalSize := by
  have hle : (v.filesOnLevels.map fun f => (fileOffset vset.tableCache k f).toNat).sum ≤ v.totalSize := by
    refine List.sum_le_sum fun f hf => ?_
    obtain ⟨level, -, hf⟩ := List.mem_flatMap.1 hf
    obtain ⟨t, hfind, ht⟩ := hv level f hf
    exact fileOffset_le hfind ht k
  refine ⟨?_, hle⟩
  have hsum := toNat_sum (v.filesOnLevels.map (fileOffset vset.tableCache k))
  rw [List.map_map] at hsum
  rw [approximateOffsetOf_eq vset hs]
  exact hsum (lt_of_le_of_lt hle htotal)

omit [LinearOrder α] [Slice α] [Coding] [TableFormat] in
/-- A difference that is not clamped. -/
theorem toNat_clamped {start limit : UInt64} (h : start ≤ limit) :
    (((if limit ≥ start then limit - start else 0 : UInt64).toNat : Int)) = (limit.toNat : Int) - start.toNat := by
  rw [if_pos h, UInt64.toNat_sub_of_le _ _ h, Nat.cast_sub (UInt64.le_iff_toNat_le.1 h)]

/-- **Offsets grow with the key**, up to the size of all files, so a range is never clamped; every table is looked into,
for none is ever turned away. -/
theorem approximateOffsetOf_mono (vset : VersionSet α) {v : Version α} (hs : v.SortedLevels)
    (hv : v.LaidOut vset.tableCache) (htotal : v.totalSize < 2 ^ 64) :
    (∀ k₁ k₂, k₁ ≤ k₂ → vset.approximateOffsetOf v k₁ ≤ vset.approximateOffsetOf v k₂ ∧
      (vset.approximateOffsetOf v k₂).toNat ≤ v.totalSize) ∧
    (∀ ranges : List (KeyRange α), (∀ range ∈ ranges, range.start ≤ range.limit) →
      ({ vset with current := v }.getApproximateSizes ranges).map (fun size : UInt64 => (size.toNat : Int)) =
        ranges.map fun range =>
          ((vset.approximateOffsetOf v (lookupKey range.limit kMaxSequenceNumber)).toNat : Int) -
            (vset.approximateOffsetOf v (lookupKey range.start kMaxSequenceNumber)).toNat) ∧
    ∀ level, ∀ f ∈ v.files level, ∃ t, vset.tableCache.findTable f.number f.fileSize = .ok t ∧
      (vset.tableCache.newIterator {} f.number f.fileSize Slice.nil Slice.nil none).tableptr = some t := by
  have hmono : ∀ k₁ k₂, k₁ ≤ k₂ → vset.approximateOffsetOf v k₁ ≤ vset.approximateOffsetOf v k₂ := by
    intro k₁ k₂ hk
    rw [UInt64.le_iff_toNat_le, (toNat_approximateOffsetOf hs hv htotal k₁).1,
      (toNat_approximateOffsetOf hs hv htotal k₂).1]
    refine List.sum_le_sum fun f hf => ?_
    obtain ⟨level, -, hf⟩ := List.mem_flatMap.1 hf
    obtain ⟨t, hfind, ht⟩ := hv level f hf
    exact fileOffset_mono hfind ht hk
  refine ⟨fun k₁ k₂ hk => ⟨hmono k₁ k₂ hk, ?_⟩, fun ranges hranges => ?_, fun level f hf => ?_⟩
  · obtain ⟨heq, hle⟩ := toNat_approximateOffsetOf hs hv htotal k₂
    exact heq.trans_le hle
  · rw [VersionSet.getApproximateSizes, List.map_map]
    refine List.map_congr_left fun range hrange => ?_
    exact toNat_clamped (hmono _ _ (lookupKey_mono (hranges range hrange) kMaxSequenceNumber))
  · obtain ⟨t, hfind, -⟩ := hv level f hf
    exact ⟨t, hfind, tableptr_eq hfind⟩

end Sums

/-! ## Two files on level 1 -/

namespace SampleSizes

def key (b : UInt8) : InternalKey Bytes := lookupKey [b] 1

def file (b : UInt8) : RandomAccessFile Bytes := OneBlock.file (key b) [(key b, [])] [] []

def files : UInt64 → Option (RandomAccessFile Bytes)
  | 1 => some (file 97)
  | 2 => some (file 99)
  | _ => none

/-- A file with the key `a` and a file with the key `c`. -/
def version (fileSize : UInt64) : Version Bytes where
  files
    | 1 => [⟨1, fileSize, key 97, key 97, le_refl _⟩, ⟨2, fileSize, key 99, key 99, le_refl _⟩]
    | _ => []

def vset (fileSize : UInt64) : VersionSet Bytes where
  options := {}
  tableCache := OneBlock.cache {} files
  current := version fileSize

theorem sortedLevels (fileSize : UInt64) : (version fileSize).SortedLevels := by
  intro level _
  match level with
  | 0 => exact List.Pairwise.nil
  | 1 =>
    refine List.pairwise_cons.2 ⟨fun f hf => ?_, List.pairwise_singleton _ _⟩
    rw [List.mem_singleton.1 hf]
    exact show key 97 < key 99 by decide
  | _ + 2 => exact List.Pairwise.nil

variable [Coding]

theorem table_laidOut (b : UInt8) {fileSize : UInt64} (hsize : 2 ≤ fileSize) :
    letI := smallHandles
    (OneBlock.table {} (key b) [(key b, [])] [] []).LaidOut fileSize := by
  let _ := smallHandles
  have hdecode : decodeFrom [0, 0] = .ok ⟨0, 0⟩ := rfl
  refine ⟨List.pairwise_singleton _ _, ?_, List.pairwise_singleton _ _, ?_, hsize⟩
  · intro e he
    rw [List.mem_singleton.1 he]
    exact ⟨_, hdecode⟩
  · intro e he handle hhandle
    rw [List.mem_singleton.1 he, hdecode] at hhandle
    rw [← Except.ok.inj hhandle]
    exact show (0 : UInt64) < 2 by decide

theorem laidOut {fileSize : UInt64} (hsize : ¬ fileSize < 48) :
    letI := smallHandles
    (version fileSize).LaidOut (vset fileSize).tableCache := by
  let _ := smallHandles
  have hlarge : 2 ≤ fileSize := UInt64.le_trans (show (2 : UInt64) ≤ 48 by decide) (UInt64.not_lt.1 hsize)
  have hserves : ∀ (b : UInt8) (f : FileMetaData Bytes), files f.number = some (file b) → f.fileSize = fileSize →
      f.smallest = key b → f.largest = key b →
      ∃ t, (vset fileSize).tableCache.findTable f.number f.fileSize = .ok t ∧ t.LaidOut f.fileSize := by
    intro b f hfile hfileSize hsmallest hlargest
    refine ⟨_, (OneBlock.serves hfile (by rwa [hfileSize]) (List.pairwise_singleton _ _) ?_ ?_).1.found, ?_⟩
    · simp
    · simp [hsmallest, hlargest]
    · rw [hfileSize]
      exact table_laidOut b hlarge
  intro level f hf
  match level with
  | 0 => cases hf
  | 1 =>
    rcases List.mem_cons.1 hf with rfl | hf
    · exact hserves 97 _ rfl rfl rfl rfl
    · obtain rfl := List.mem_singleton.1 hf
      exact hserves 99 _ rfl rfl rfl rfl
  | _ + 2 => cases hf

end SampleSizes

theorem approximateOffsetOf_mono_sample :
    letI := littleEndian
    letI := smallHandles
    (SampleSizes.vset 500).approximateOffsetOf (SampleSizes.version 500) (SampleSizes.key 97) ≤
      (SampleSizes.vset 500).approximateOffsetOf (SampleSizes.version 500) (SampleSizes.key 98) := by
  let _ := littleEndian
  let _ := smallHandles
  have htotal : (SampleSizes.version 500).totalSize < 2 ^ 64 := by decide
  exact ((approximateOffsetOf_mono (SampleSizes.vset 500) (SampleSizes.sortedLevels 500)
    (SampleSizes.laidOut (by decide)) htotal).1 _ _ (by decide)).1

/-- Files of `2^63` bytes: past both of them the offset is `2^64`, which is zero. -/
theorem approximateOffsetOf_overflow :
    letI := littleEndian
    letI := smallHandles
    (SampleSizes.version 0x8000000000000000).SortedLevels ∧
      (SampleSizes.version 0x8000000000000000).LaidOut (SampleSizes.vset 0x8000000000000000).tableCache ∧
      SampleSizes.key 97 ≤ SampleSizes.key 99 ∧
      ¬ (SampleSizes.vset 0x8000000000000000).approximateOffsetOf (SampleSizes.version 0x8000000000000000) (SampleSizes.key 97) ≤
        (SampleSizes.vset 0x8000000000000000).approximateOffsetOf (SampleSizes.version 0x8000000000000000) (SampleSizes.key 99) := by
  let _ := littleEndian
  let _ := smallHandles
  refine ⟨SampleSizes.sortedLevels _, SampleSizes.laidOut (by decide), by decide, ?_⟩
  rw [approximateOffsetOf_eq _ (SampleSizes.sortedLevels _), approximateOffsetOf_eq _ (SampleSizes.sortedLevels _)]
  decide

end LevelDbSurf
