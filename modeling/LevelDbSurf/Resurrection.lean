import LevelDbSurf.DBImpl
import LevelDbSurf.RangeScan
import LevelDbSurf.Snapshot

/-!
# Bounds and the rest of the key space

Nothing clips an iterator to its bounds, and tables are dropped one at a time. Outside `[lo, hi]` the
newest version of a key may sit in a pruned table while an older one sits in a table that was kept:
then the iterator shows a value that was overwritten or deleted. `bounded_reads_live_iff` says that
this placement of versions is the only way it can happen.
-/

namespace LevelDbSurf

open Cursors

variable {α : Type} [LinearOrder α]

/-- DB iterators: over a cursor of the merged children, a cursor over what the snapshot shows. -/
structure DBIterators (α : Type) [LinearOrder α] where
  newDBIterator : Behaviour (InternalKey α) Bytes → Nat → Behaviour α Bytes
  over_cursor : ∀ L, Sorted L → ∀ s, newDBIterator (cursor L) s = cursor (visible s L)

open Classical in
/-- There is one: the list can be recovered from its cursor. -/
noncomputable def DBIterators.ofCursors (α : Type) [LinearOrder α] : DBIterators α where
  newDBIterator b s :=
    if h : ∃ L : List (InternalKey α × Bytes), cursor L = b then cursor (visible s h.choose)
    else fun _ => none
  over_cursor L _ s := by
    have h : ∃ L' : List (InternalKey α × Bytes), cursor L' = cursor L := ⟨L, rfl⟩
    rw [dif_pos h, cursor_injective h.choose_spec]

section Bounds
variable [Slice α] [Coding] [TableFormat]

namespace DBImpl

/-- The entries an iterator with these bounds merges. -/
def merged (db : DBImpl α) (lo hi : α) : List (InternalKey α × Bytes) := mergeAll (db.children lo hi)

/-- The snapshot a read with these options is made at. -/
def snapshotOf (db : DBImpl α) (options : ReadOptions α) : Nat := options.snapshot.getD db.lastSequence

/-- **The DB iterator** is a cursor over what the snapshot shows of the merged children. -/
theorem newIterator_eq (M : Merger (InternalKey α) Bytes) (D : DBIterators α) {db : DBImpl α}
    (hm : db.SortedMem) (hs : db.current.SortedLevels) (hr : db.current.Readable db.tableCache)
    (options : ReadOptions α) (metrics : Option MetricsCounters) :
    db.newIterator M D.newDBIterator options metrics =
      cursor (visible (db.snapshotOf options) (db.merged options.lo options.hi)) := by
  show D.newDBIterator (db.newInternalIterator M options metrics).1 _ = _
  rw [newInternalIterator_eq M hm hs hr, D.over_cursor _ (mergeAll_sorted _)]
  rfl

/-- A file-wise property of the entries is a property of all children. -/
theorem children_filter {db : DBImpl α} {p : InternalKey α × Bytes → Bool} {lo hi lo' hi' : α}
    (h : ∀ level < kNumLevels, ∀ f ∈ db.current.files level,
      (fileKept db.tableCache lo hi f).filter p = (fileKept db.tableCache lo' hi' f).filter p) :
    (db.merged lo hi).filter p = (db.merged lo' hi').filter p := by
  rw [merged, merged, filter_mergeAll, filter_mergeAll, children, children, List.map_append,
    LevelDbSurf.children_filter h, ← List.map_append]

/-- Bounds only take entries away. -/
theorem merged_sublist (db : DBImpl α) (lo hi : α) :
    (db.merged lo hi).Sublist (db.merged Slice.nil Slice.nil) := by
  have hfile : ∀ f, (fileKept db.tableCache lo hi f).Sublist
      (fileKept db.tableCache Slice.nil Slice.nil f) := by
    intro f
    unfold fileKept
    cases db.tableCache.findTable f.number f.fileSize with
    | error s => exact List.Sublist.refl _
    | ok t =>
      dsimp only
      rw [t.kept_of_not_bounded bounded_nil]
      exact t.kept_sublist lo hi
  have hfiles : ∀ level, ((db.current.files level).flatMap (fileKept db.tableCache lo hi)).Sublist
      ((db.current.files level).flatMap (fileKept db.tableCache Slice.nil Slice.nil)) := fun level =>
    List.Sublist.flatMap_right _ fun f _ => hfile f
  have hlevels := List.Sublist.flatMap_right db.current.deeperLevels fun level _ => hfiles level
  refine mergeAll_sublist ?_
  unfold children Version.children
  simp only [List.flatten_append, ← List.flatMap_def]
  exact (List.Sublist.refl _).append ((hfiles 0).append hlevels)

/-- Outside the bounds `u` has a value in what is kept, while its newest entry lies in a pruned table
and is a deletion or another value. -/
def Resurrects (db : DBImpl α) (s : Nat) (lo hi u : α) : Prop :=
  ¬ (lo ≤ u ∧ u ≤ hi) ∧
  ∃ level < kNumLevels, ∃ f ∈ db.current.files level, ∃ t,
    db.tableCache.findTable f.number f.fileSize = .ok t ∧
    bounded lo hi = true ∧ t.rangeMayMatch lo hi = false ∧
    ∃ d ∈ t.entries, newest s u (db.merged Slice.nil Slice.nil) = some d ∧
      ∃ v, live s u (db.merged lo hi) = some v ∧ liveValue d ≠ some v

/-- Every value the bounded iterator shows is one the iterator without bounds shows. -/
theorem live_kept_iff {db : DBImpl α} {lo hi : α} (hsound : db.current.RangeSound db.tableCache lo hi)
    (s : Nat) :
    (∀ u v, live s u (db.merged lo hi) = some v → live s u (db.merged Slice.nil Slice.nil) = some v) ↔
      ∀ u, ¬ db.Resurrects s lo hi u := by
  constructor
  · rintro h u ⟨-, level, -, f, -, t, -, -, -, d, -, hd, v, hv, hne⟩
    have hall := h u v hv
    rw [live, hd] at hall
    exact hne hall
  · intro h u v hv
    obtain ⟨k, hk, hkv⟩ := Option.bind_eq_some_iff.1 hv
    obtain ⟨hkmem, hksees⟩ := mem_of_newest hk
    by_cases hin : lo ≤ u ∧ u ≤ hi
    · -- inside the range both lists have the same entries
      have hq : ∀ x : InternalKey α × Bytes, x.1.userKey = u → inRange lo hi x = true := by
        rintro x rfl
        simp [inRange, hin]
      rw [live, ← newest_filter hq, ← children_filter fun level _ f hf => fileKept_inRange (hsound level f hf),
        newest_filter hq]
      exact hv
    · -- the newest entry overall
      obtain ⟨d, hd⟩ : ∃ d, newest s u (db.merged Slice.nil Slice.nil) = some d := by
        have : (newest s u (db.merged Slice.nil Slice.nil)).isSome := by
          rw [newest, List.find?_isSome]
          exact ⟨k, (db.merged_sublist lo hi).subset hkmem, hksees⟩
        exact Option.isSome_iff_exists.1 this
      by_contra hne
      rw [live, hd] at hne
      refine hne ?_
      -- no copy of it is pruned, so it is the newest kept entry as well
      have hcopies : (db.merged lo hi).filter (fun x => decide (x = d)) =
          (db.merged Slice.nil Slice.nil).filter fun x => decide (x = d) := by
        refine children_filter fun level hl f hf => ?_
        unfold fileKept
        cases hfind : db.tableCache.findTable f.number f.fileSize with
        | error _ => rfl
        | ok t =>
          dsimp only
          rw [t.kept_of_not_bounded bounded_nil, Table.kept]
          split
          · rename_i hpruned
            rw [Bool.and_eq_true, Bool.not_eq_true'] at hpruned
            symm
            rw [List.filter_nil, List.filter_eq_nil_iff]
            intro x hx hxd
            rw [decide_eq_true_eq] at hxd
            subst hxd
            exact h u ⟨hin, level, hl, f, hf, t, hfind, hpruned.1, hpruned.2, x, hx, hd, v, hv, hne⟩
          · rfl
      have hkd : newest s u (db.merged lo hi) = some d :=
        find?_of_sublist (db.merged_sublist lo hi) hd hcopies
      rw [hk] at hkd
      cases hkd
      exact hkv

end DBImpl

/-- Reads with the bounds of these options, against reads without bounds: every entry shown is shown
without bounds too, iff every live value of what is kept is a live value of all entries. -/
theorem DBImpl.shows_iff (M : Merger (InternalKey α) Bytes) (D : DBIterators α) {db : DBImpl α}
    (hm : db.SortedMem) (hs : db.current.SortedLevels) (hr : db.current.Readable db.tableCache)
    (options : ReadOptions α) (metrics : Option MetricsCounters) :
    (∀ ops x, db.newIterator M D.newDBIterator options metrics ops = some x →
      ∃ ops', db.newIterator M D.newDBIterator { options with lo := Slice.nil, hi := Slice.nil } metrics ops' =
        some x) ↔
    ∀ u v, live (db.snapshotOf options) u (db.merged options.lo options.hi) = some v →
      live (db.snapshotOf options) u (db.merged Slice.nil Slice.nil) = some v := by
  rw [DBImpl.newIterator_eq M D hm hs hr, DBImpl.newIterator_eq M D hm hs hr]
  simp only [exists_cursor_eq]
  constructor
  · intro h u v hv
    obtain ⟨ops, hops⟩ := exists_cursor_eq.2 (mem_visible.2 hv)
    exact mem_visible.1 (h ops (u, v) hops)
  · rintro h ops ⟨u, v⟩ hops
    exact mem_visible.2 (h u v (mem_visible.1 (exists_cursor_eq.1 ⟨ops, hops⟩)))

/-- **Bounds and liveness.** For bounds the tables answer soundly, every entry an iterator with these
bounds shows, after any operations, is one the iterator without bounds shows at the same snapshot, iff
no user key outside the bounds has its newest entry, a deletion or another value, in a pruned table
while what is kept has a value for it. -/
theorem bounded_reads_live_iff (M : Merger (InternalKey α) Bytes) (D : DBIterators α) {db : DBImpl α}
    (hm : db.SortedMem) (hs : db.current.SortedLevels) (hr : db.current.Readable db.tableCache)
    (options : ReadOptions α) (hsound : db.current.RangeSound db.tableCache options.lo options.hi)
    (metrics : Option MetricsCounters) :
    (∀ ops x, db.newIterator M D.newDBIterator options metrics ops = some x →
      ∃ ops', db.newIterator M D.newDBIterator { options with lo := Slice.nil, hi := Slice.nil } metrics ops' =
        some x) ↔
    ∀ u, ¬ db.Resurrects (db.snapshotOf options) options.lo options.hi u := by
  rw [DBImpl.shows_iff M D hm hs hr, DBImpl.live_kept_iff hsound]

end Bounds

/-! ### A deletion marker in a pruned table -/

namespace SampleDelete

/-- `a` written at sequence 1 and deleted at 2, `b` written at 3. -/
def oldA : InternalKey Bytes × Bytes := (⟨[97], packSequenceAndType 1 .value⟩, [1])
def deletedA : InternalKey Bytes × Bytes := (⟨[97], packSequenceAndType 2 .deletion⟩, [])
def entryB : InternalKey Bytes × Bytes := (⟨[98], packSequenceAndType 3 .value⟩, [2])

def policy : FilterPolicy := bytePolicy false

def options : Options := { filterPolicy := some policy }

variable [Coding]

def files : UInt64 → Option (RandomAccessFile Bytes)
  | 7 => some (OneBlock.file deletedA.1 [deletedA] (OneBlock.filterEntry policy) (blockOf [97]))
  | 8 => some (OneBlock.file entryB.1 [oldA, entryB] (OneBlock.filterEntry policy) (blockOf [97, 98]))
  | _ => none

/-- The marker is on level 0, what it hides on level 1. -/
def fileMarker : FileMetaData Bytes := ⟨7, 500, deletedA.1, deletedA.1, by decide⟩
def fileOld : FileMetaData Bytes := ⟨8, 500, oldA.1, entryB.1, by decide⟩

def db : DBImpl Bytes where
  mem := []
  imm := none
  current :=
    { files := fun
        | 0 => [fileMarker]
        | 1 => [fileOld]
        | _ => [] }
  lastSequence := 5
  tableCache := OneBlock.cache options files

/-- `[b, c]`. -/
def readOptions : ReadOptions Bytes := { lo := [98], hi := [99] }

theorem serves_marker :
    letI := smallHandles
    Serves db.tableCache fileMarker
      (OneBlock.table options deletedA.1 [deletedA] (OneBlock.filterEntry policy) (blockOf [97])) ∧
    (OneBlock.table options deletedA.1 [deletedA] (OneBlock.filterEntry policy) (blockOf [97])).entries =
      [deletedA] :=
  OneBlock.serves rfl (by decide) (by decide) (by decide) (by decide)

theorem serves_old :
    letI := smallHandles
    Serves db.tableCache fileOld
      (OneBlock.table options entryB.1 [oldA, entryB] (OneBlock.filterEntry policy) (blockOf [97, 98])) ∧
    (OneBlock.table options entryB.1 [oldA, entryB] (OneBlock.filterEntry policy)
      (blockOf [97, 98])).entries = [oldA, entryB] :=
  OneBlock.serves rfl (by decide) (by decide) (by decide) (by decide)

theorem sortedMem : db.SortedMem := ⟨List.Pairwise.nil, by rintro _ ⟨⟩⟩

theorem sortedLevels : db.current.SortedLevels := by
  intro level h
  match level with
  | 1 => exact List.pairwise_singleton _ _
  | _ + 2 => exact List.Pairwise.nil

theorem readable :
    letI := smallHandles
    db.current.Readable db.tableCache := by
  intro level f hf
  match level with
  | 0 =>
    obtain rfl := List.mem_singleton.1 hf
    exact ⟨_, serves_marker.1⟩
  | 1 =>
    obtain rfl := List.mem_singleton.1 hf
    exact ⟨_, serves_old.1⟩
  | _ + 2 => cases hf

/-- For `[b, c]` the marker's table is pruned, rightly, and the other one kept. -/
theorem rangeMayMatch_marker :
    (OneBlock.table options deletedA.1 [deletedA] (OneBlock.filterEntry policy) (blockOf [97])).rangeMayMatch
      [98] [99] = false := by
  rw [OneBlock.table_rangeMayMatch rfl _ _ (by decide) (by decide)]
  rfl

theorem rangeMayMatch_old :
    (OneBlock.table options entryB.1 [oldA, entryB] (OneBlock.filterEntry policy)
      (blockOf [97, 98])).rangeMayMatch [98] [99] = true := by
  rw [OneBlock.table_rangeMayMatch rfl _ _ (by decide) (by decide)]
  rfl

theorem rangeSound :
    letI := smallHandles
    db.current.RangeSound db.tableCache [98] [99] := by
  let _ := smallHandles
  intro level f hf t ht
  match level with
  | 0 =>
    obtain rfl := List.mem_singleton.1 hf
    rw [serves_marker.1.found] at ht
    cases ht
    intro _
    rw [serves_marker.2]
    decide
  | 1 =>
    obtain rfl := List.mem_singleton.1 hf
    rw [serves_old.1.found] at ht
    cases ht
    intro hfalse
    rw [rangeMayMatch_old] at hfalse
    cases hfalse
  | _ + 2 => cases hf

theorem children_bounded :
    letI := smallHandles
    db.children [98] [99] = [[], [], [oldA, entryB]] := by
  let _ := smallHandles
  have hmarker : fileKept db.tableCache [98] [99] fileMarker = [] := by
    rw [serves_marker.1.kept, Table.kept, rangeMayMatch_marker]
    rfl
  have hold : fileKept db.tableCache [98] [99] fileOld = [oldA, entryB] := by
    rw [serves_old.1.kept, Table.kept, rangeMayMatch_old, serves_old.2]
    rfl
  show [[], fileKept db.tableCache [98] [99] fileMarker,
    fileKept db.tableCache [98] [99] fileOld ++ []] = _
  rw [hmarker, hold]
  rfl

theorem children_unbounded :
    letI := smallHandles
    db.children Slice.nil Slice.nil = [[], [deletedA], [oldA, entryB]] := by
  let _ := smallHandles
  have hmarker : fileKept db.tableCache Slice.nil Slice.nil fileMarker = [deletedA] := by
    rw [serves_marker.1.kept, Table.kept_of_not_bounded _ bounded_nil, serves_marker.2]
  have hold : fileKept db.tableCache Slice.nil Slice.nil fileOld = [oldA, entryB] := by
    rw [serves_old.1.kept, Table.kept_of_not_bounded _ bounded_nil, serves_old.2]
  show [[], fileKept db.tableCache Slice.nil Slice.nil fileMarker,
    fileKept db.tableCache Slice.nil Slice.nil fileOld ++ []] = _
  rw [hmarker, hold]
  rfl

end SampleDelete

theorem bounded_reads_live_iff_sample :
    letI := littleEndian
    letI := smallHandles
    (∀ ops x, SampleDelete.db.newIterator (Merger.ofCursors _ _) (DBIterators.ofCursors _).newDBIterator
        SampleDelete.readOptions none ops = some x →
      ∃ ops', SampleDelete.db.newIterator (Merger.ofCursors _ _) (DBIterators.ofCursors _).newDBIterator
        { SampleDelete.readOptions with lo := Slice.nil, hi := Slice.nil } none ops' = some x) ↔
    ∀ u, ¬ SampleDelete.db.Resurrects 5 [98] [99] u :=
  letI := littleEndian
  letI := smallHandles
  bounded_reads_live_iff (Merger.ofCursors _ _) (DBIterators.ofCursors _) SampleDelete.sortedMem
    SampleDelete.sortedLevels SampleDelete.readable SampleDelete.readOptions SampleDelete.rangeSound none

/-- `a` was deleted, and an iterator over `[b, c]` shows its old value. -/
theorem deletion_forgotten :
    ¬ ∀ [Coding] [TableFormat] (M : Merger (InternalKey Bytes) Bytes) (D : DBIterators Bytes)
        (db : DBImpl Bytes), db.SortedMem → db.current.SortedLevels →
      db.current.Readable db.tableCache → ∀ options : ReadOptions Bytes,
      bounded options.lo options.hi = true → db.current.RangeSound db.tableCache options.lo options.hi →
      ∀ metrics ops x, db.newIterator M D.newDBIterator options metrics ops = some x →
        ∃ ops', db.newIterator M D.newDBIterator { options with lo := Slice.nil, hi := Slice.nil } metrics
          ops' = some x := by
  intro h
  let _ := littleEndian
  let _ := smallHandles
  have hshows := (DBImpl.shows_iff (Merger.ofCursors _ _) (DBIterators.ofCursors _) SampleDelete.sortedMem
    SampleDelete.sortedLevels SampleDelete.readable SampleDelete.readOptions none).1
    (h _ _ SampleDelete.db SampleDelete.sortedMem SampleDelete.sortedLevels SampleDelete.readable
      SampleDelete.readOptions (by decide) SampleDelete.rangeSound none) [97] [1]
  rw [DBImpl.merged, DBImpl.merged, SampleDelete.children_unbounded] at hshows
  have hkept := SampleDelete.children_bounded
  rw [show SampleDelete.readOptions.lo = [98] from rfl, show SampleDelete.readOptions.hi = [99] from rfl,
    hkept] at hshows
  revert hshows
  decide

end LevelDbSurf
