import LevelDbSurf.OneBlockTable
import LevelDbSurf.FilterBlockContract

/-!
# Range pruning inside the range (`version_set.cc:214-263`, `table_cache.cc:96-119`)

Pruned tables turn into children without entries. If `RangeMayMatch` is sound, the merge of the
children has the same entries with user key in `[lo, hi]`, in the same order, as without bounds
(`addIterators_inRange`); only entries outside the range are missing.
-/

namespace LevelDbSurf

open Cursors

variable {α : Type} [LinearOrder α]

/-- The user key lies in `[lo, hi]`. -/
def inRange (lo hi : α) {ν : Type} (x : InternalKey α × ν) : Bool :=
  decide (lo ≤ x.1.userKey) && decide (x.1.userKey ≤ hi)

/-- A sorted list of entries: those below the range, those in it, those above. -/
theorem split_inRange {ν : Type} {L : List (InternalKey α × ν)} (h : Sorted L) (lo hi : α) :
    ∃ below above, L = below ++ L.filter (inRange lo hi) ++ above ∧
      (∀ x ∈ below, x.1.userKey < lo) ∧ ∀ x ∈ above, hi < x.1.userKey := by
  have hlo := h.split (fun k => decide (k.userKey < lo)) (by
    intro a b hab hb
    simp only [decide_eq_true_eq] at hb ⊢
    exact lt_of_le_of_lt (InternalKey.userKey_le hab) hb)
  have hhi := (h.filter fun x => !decide (x.1.userKey < lo)).split (fun k => decide (k.userKey ≤ hi)) (by
    intro a b hab hb
    simp only [decide_eq_true_eq] at hb ⊢
    exact le_trans (InternalKey.userKey_le hab) hb)
  rw [hhi, List.filter_filter] at hlo
  have hin : L.filter (inRange lo hi) =
      L.filter fun x => decide (x.1.userKey ≤ hi) && !decide (x.1.userKey < lo) := by
    apply List.filter_congr
    intro x _
    rw [inRange, ← decide_not, Bool.and_comm]
    simp only [not_lt]
  refine ⟨L.filter fun x => decide (x.1.userKey < lo),
    (L.filter fun x => !decide (x.1.userKey < lo)).filter fun x => !decide (x.1.userKey ≤ hi), ?_, ?_, ?_⟩
  · rw [hin, List.append_assoc]
    exact hlo
  · intro x hx
    simpa using (List.mem_filter.1 hx).2
  · intro x hx
    simpa using (List.mem_filter.1 hx).2

/-! ## Walks -/

/-- Two iterators show the same entries of the range, in the same order: positioned alike and walked
forward, or sent to the end and walked backward. -/
structure SameInRange {ν : Type} (lo hi : α) (b u : Behaviour (InternalKey α) ν) : Prop where
  forward : ∀ ops position, (position = .seekToFirst ∨ ∃ t, position = .seek t) →
    ∃ l l', Yields b (ops ++ [position]) .next l ∧ Yields u (ops ++ [position]) .next l' ∧
      l.filter (inRange lo hi) = l'.filter (inRange lo hi)
  backward : ∀ ops, ∃ l l', Yields b (ops ++ [.seekToLast]) .prev l ∧
    Yields u (ops ++ [.seekToLast]) .prev l' ∧ l.filter (inRange lo hi) = l'.filter (inRange lo hi)

theorem sameInRange_cursor {ν : Type} {L L' : List (InternalKey α × ν)} (hL : Sorted L) (hL' : Sorted L')
    {lo hi : α} (h : L.filter (inRange lo hi) = L'.filter (inRange lo hi)) :
    SameInRange lo hi (cursor L) (cursor L') where
  forward := by
    rintro ops position hpos
    refine ⟨_, _, cursor_yields_next L _, cursor_yields_next L' _, ?_⟩
    rw [runPos_append, runPos_append]
    rcases hpos with rfl | ⟨t, rfl⟩
    · exact h
    · show (L.drop (seekPos L t)).filter _ = (L'.drop (seekPos L' t)).filter _
      rw [hL.drop_seekPos, hL'.drop_seekPos, List.filter_comm, h, List.filter_comm]
  backward := by
    intro ops
    refine ⟨_, _, cursor_yields_prev L ops, cursor_yields_prev L' ops, ?_⟩
    rw [List.filter_reverse, List.filter_reverse, h]

/-! ## Pruning -/

section Pruning
variable [Slice α] [Coding] [TableFormat] {cache : TableCache α} {v : Version α}

/-- Every table of the version answers soundly for these bounds. -/
def Version.RangeSound (v : Version α) (cache : TableCache α) (lo hi : α) : Prop :=
  ∀ level, ∀ f ∈ v.files level, ∀ t, cache.findTable f.number f.fileSize = .ok t → t.RangeSound lo hi

/-- Whether it is pruned or not, a table keeps its entries in the range. -/
theorem fileKept_inRange {f : FileMetaData α} {lo hi : α}
    (hsound : ∀ t, cache.findTable f.number f.fileSize = .ok t → t.RangeSound lo hi) :
    (fileKept cache lo hi f).filter (inRange lo hi) =
      (fileKept cache Slice.nil Slice.nil f).filter (inRange lo hi) := by
  unfold fileKept
  cases hfind : cache.findTable f.number f.fileSize with
  | error s => rfl
  | ok t =>
    dsimp only
    rw [t.kept_of_not_bounded bounded_nil, Table.kept]
    split
    · rename_i hpruned
      rw [Bool.and_eq_true, Bool.not_eq_true'] at hpruned
      have hnone := hsound t hfind hpruned.2
      symm
      rw [List.filter_nil, List.filter_eq_nil_iff]
      intro x hx hin
      rw [inRange, Bool.and_eq_true, decide_eq_true_eq, decide_eq_true_eq] at hin
      exact hnone x hx hin
    · rfl

/-- A file-wise property of the entries is a property of the children. -/
theorem children_filter {p : InternalKey α × Bytes → Bool} {lo hi lo' hi' : α}
    (h : ∀ level < kNumLevels, ∀ f ∈ v.files level,
      (fileKept cache lo hi f).filter p = (fileKept cache lo' hi' f).filter p) :
    (v.children cache lo hi).map (List.filter p) = (v.children cache lo' hi').map (List.filter p) := by
  unfold Version.children
  simp only [List.map_append, List.map_map]
  congr 1
  · exact List.map_congr_left fun f hf => h 0 (by decide) f hf
  · refine List.map_congr_left fun level hl => ?_
    have hlt := (mem_deeperLevels hl).2
    simp only [Function.comp_apply, List.filter_flatMap]
    exact List.flatMap_congr fun f hf => h level hlt f hf

/-- What a merging iterator makes of the children. -/
theorem merge_addIterators (M : Merger (InternalKey α) Bytes) (hs : v.SortedLevels)
    (hr : v.Readable cache) (options : ReadOptions α) (lo hi : α) (metrics : Option MetricsCounters) :
    M.merge ((v.addIterators cache options lo hi metrics).1.map behaviour) =
      cursor (mergeAll (v.children cache lo hi)) := by
  rw [addIterators_behaviour hs hr, M.merge_cursors _ (children_sorted hs hr lo hi)]

/-- **Pruning is invisible in the range.** For bounds the tables answer soundly, the merge of the
iterators made with them and of those made without is a cursor over the same entries of `[lo, hi]`,
between entries below and entries above that may differ; in particular any walk shows the same
entries of the range. -/
theorem addIterators_inRange (M : Merger (InternalKey α) Bytes) (hs : v.SortedLevels)
    (hr : v.Readable cache) (options : ReadOptions α) (lo hi : α) (hsound : v.RangeSound cache lo hi)
    (metrics : Option MetricsCounters) :
    (∃ below within above below' above',
      M.merge ((v.addIterators cache options lo hi metrics).1.map behaviour) =
        cursor (below ++ within ++ above) ∧
      M.merge ((v.addIterators cache options Slice.nil Slice.nil metrics).1.map behaviour) =
        cursor (below' ++ within ++ above') ∧
      (∀ x ∈ below ++ below', x.1.userKey < lo) ∧ (∀ x ∈ within, inRange lo hi x = true) ∧
      ∀ x ∈ above ++ above', hi < x.1.userKey) ∧
    SameInRange lo hi (M.merge ((v.addIterators cache options lo hi metrics).1.map behaviour))
      (M.merge ((v.addIterators cache options Slice.nil Slice.nil metrics).1.map behaviour)) := by
  have hsame : (mergeAll (v.children cache lo hi)).filter (inRange lo hi) =
      (mergeAll (v.children cache Slice.nil Slice.nil)).filter (inRange lo hi) := by
    rw [filter_mergeAll, filter_mergeAll,
      children_filter fun level _ f hf => fileKept_inRange (hsound level f hf)]
  obtain ⟨below, above, hsplit, hbelow, habove⟩ :=
    split_inRange (mergeAll_sorted (v.children cache lo hi)) lo hi
  obtain ⟨below', above', hsplit', hbelow', habove'⟩ :=
    split_inRange (mergeAll_sorted (v.children cache Slice.nil Slice.nil)) lo hi
  rw [merge_addIterators M hs hr, merge_addIterators M hs hr]
  refine ⟨⟨below, (mergeAll (v.children cache lo hi)).filter (inRange lo hi), above, below', above',
    congrArg cursor hsplit, ?_, ?_, ?_, ?_⟩,
    sameInRange_cursor (mergeAll_sorted _) (mergeAll_sorted _) hsame⟩
  · rw [hsame]
    exact congrArg cursor hsplit'
  · intro x hx
    rcases List.mem_append.1 hx with hx | hx
    · exact hbelow x hx
    · exact hbelow' x hx
  · intro x hx
    exact (List.mem_filter.1 hx).2
  · intro x hx
    rcases List.mem_append.1 hx with hx | hx
    · exact habove x hx
    · exact habove' x hx

end Pruning

/-! ### A version with a pruned and a kept table -/

namespace SampleScan

/-- `a` at sequence 5, `b` at 3 and `d` at 2. -/
def entryA : InternalKey Bytes × Bytes := (⟨[97], packSequenceAndType 5 .value⟩, [1])
def entryB : InternalKey Bytes × Bytes := (⟨[98], packSequenceAndType 3 .value⟩, [2])
def entryD : InternalKey Bytes × Bytes := (⟨[100], packSequenceAndType 2 .value⟩, [3])

def policy : FilterPolicy := bytePolicy false

def options : Options := { filterPolicy := some policy }

def files [Coding] : UInt64 → Option (RandomAccessFile Bytes)
  | 7 => some (OneBlock.file entryA.1 [entryA] (OneBlock.filterEntry policy) (blockOf [97]))
  | 8 => some (OneBlock.file entryD.1 [entryB, entryD] (OneBlock.filterEntry policy) (blockOf [98, 100]))
  | _ => none

def fileA : FileMetaData Bytes := ⟨7, 500, entryA.1, entryA.1, by decide⟩
def fileBD : FileMetaData Bytes := ⟨8, 500, entryB.1, entryD.1, by decide⟩

def version : Version Bytes where
  files
    | 0 => [fileA]
    | 1 => [fileBD]
    | _ => []

variable [Coding]

theorem serves_a :
    letI := smallHandles
    Serves (OneBlock.cache options files) fileA
      (OneBlock.table options entryA.1 [entryA] (OneBlock.filterEntry policy) (blockOf [97])) ∧
    (OneBlock.table options entryA.1 [entryA] (OneBlock.filterEntry policy) (blockOf [97])).entries =
      [entryA] :=
  OneBlock.serves rfl (by decide) (by decide) (by decide) (by decide)

theorem serves_bd :
    letI := smallHandles
    Serves (OneBlock.cache options files) fileBD
      (OneBlock.table options entryD.1 [entryB, entryD] (OneBlock.filterEntry policy) (blockOf [98, 100])) ∧
    (OneBlock.table options entryD.1 [entryB, entryD] (OneBlock.filterEntry policy)
      (blockOf [98, 100])).entries = [entryB, entryD] :=
  OneBlock.serves rfl (by decide) (by decide) (by decide) (by decide)

omit [Coding] in
theorem sortedLevels : version.SortedLevels := by
  intro level h
  match level with
  | 1 => exact List.pairwise_singleton _ _
  | _ + 2 => exact List.Pairwise.nil

theorem readable :
    letI := smallHandles
    version.Readable (OneBlock.cache options files) := by
  intro level f hf
  match level with
  | 0 =>
    obtain rfl := List.mem_singleton.1 hf
    exact ⟨_, serves_a.1⟩
  | 1 =>
    obtain rfl := List.mem_singleton.1 hf
    exact ⟨_, serves_bd.1⟩
  | _ + 2 => cases hf

/-- Asked for `[b, c]`, table `a` is pruned and table `b, d` kept; both are right. -/
theorem rangeSound :
    letI := smallHandles
    version.RangeSound (OneBlock.cache options files) [98] [99] := by
  let _ := smallHandles
  intro level f hf t ht
  match level with
  | 0 =>
    obtain rfl := List.mem_singleton.1 hf
    rw [serves_a.1.found] at ht
    cases ht
    intro _
    rw [serves_a.2]
    decide
  | 1 =>
    obtain rfl := List.mem_singleton.1 hf
    rw [serves_bd.1.found] at ht
    cases ht
    intro hfalse
    rw [OneBlock.table_rangeMayMatch rfl _ _ (by decide) (by decide)] at hfalse
    exact absurd hfalse (by decide)
  | _ + 2 => cases hf

end SampleScan

theorem addIterators_inRange_sample :
    letI := littleEndian
    letI := smallHandles
    SameInRange [98] [99]
      ((Merger.ofCursors _ _).merge ((SampleScan.version.addIterators
        (OneBlock.cache SampleScan.options SampleScan.files) {} [98] [99] none).1.map behaviour))
      ((Merger.ofCursors _ _).merge ((SampleScan.version.addIterators
        (OneBlock.cache SampleScan.options SampleScan.files) {} Slice.nil Slice.nil none).1.map behaviour)) :=
  letI := littleEndian
  letI := smallHandles
  (addIterators_inRange (Merger.ofCursors _ _) SampleScan.sortedLevels SampleScan.readable {} [98] [99]
    SampleScan.rangeSound none).2

end LevelDbSurf
