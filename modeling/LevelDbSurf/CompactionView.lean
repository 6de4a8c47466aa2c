import LevelDbSurf.CompactionClosure
import LevelDbSurf.CompactionWorkProofs
import LevelDbSurf.PointReads
import LevelDbSurf.Recovery

/-!
# A compaction changes no view

In a version whose lower levels are newer, of every user key the newest entry a snapshot sees is the first
one of all tables. A compaction leaves that entry where it is, moves it to an output, or drops it. If it drops
it, then either a newer one hides it, and it was not the first, or it is a deletion marker; and then whatever
older entries of the user key there are, are inputs too and dropped with it (`older_below`).
-/

namespace LevelDbSurf

open Cursors

variable {α : Type} [LinearOrder α]

/-- If what is missing from the later lists shows nothing, and nothing shows through, they give the same
view. -/
theorem live_eq_of_dropped {Ls Ks : List (List (InternalKey α × Bytes))} {s : Nat} {u : α}
    (hkeys : ∀ x ∈ mergeAll Ls, ∀ y ∈ mergeAll Ls, x.1 = y.1 → x = y)
    (hsub : ∀ y ∈ mergeAll Ks, y ∈ mergeAll Ls)
    (hdropped : ∀ d, newest s u (mergeAll Ls) = some d → d ∉ mergeAll Ks →
      liveValue d = none ∧ ∀ y ∈ mergeAll Ks, sees s u y = true → False) :
    live s u (mergeAll Ks) = live s u (mergeAll Ls) := by
  unfold live
  cases hd : newest s u (mergeAll Ls) with
  | none =>
    have hnone : newest s u (mergeAll Ks) = none :=
      List.find?_eq_none.2 fun y hy => List.find?_eq_none.1 hd y (hsub y hy)
    rw [hnone]
  | some d =>
    obtain ⟨hmem, hsees⟩ := mem_of_newest hd
    by_cases hkept : d ∈ mergeAll Ks
    · have hfirst : newest s u (mergeAll Ks) = some d := by
        refine find?_mergeAll_of_before (mem_mergeAll.1 hkept) hsees fun K hK y hy hy' => ?_
        have hyL := hsub y (mem_mergeAll.2 ⟨K, hK, hy⟩)
        rcases lt_or_eq_of_le ((mergeAll_sorted Ls).find?_le hd hyL hy') with hlt | heq
        · exact Or.inl hlt
        · exact Or.inr (hkeys d hmem y hyL heq)
      rw [hfirst]
    · obtain ⟨hdead, hnothing⟩ := hdropped d hd hkept
      have hnone : newest s u (mergeAll Ks) = none :=
        List.find?_eq_none.2 fun y hy hy' => hnothing y hy hy'
      rw [hnone, Option.bind_none, Option.bind_some, hdead]

section Layered
variable [Coding] [TableFormat]

/-- The tables can be read, the levels from 1 on are sorted, lower levels are newer, and so are, of any two
files of level 0, the entries of one of them. -/
structure Version.Layered (v : Version α) (cache : TableCache α) : Prop where
  readable : v.Readable cache
  sortedLevels : v.SortedLevels
  levels : ∀ level level', level < level' → ∀ f ∈ v.files level, ∀ g ∈ v.files level', Newer cache f g
  level0 : (v.files 0).Pairwise fun f g => Newer cache f g ∨ Newer cache g f

variable {v : Version α} {cache : TableCache α}

theorem Version.Layered.layers (hv : v.Layered cache) : Layers (fileEntries cache) v where
  sorted level f hf := by
    obtain ⟨t, ht⟩ := hv.readable level f hf
    rw [ht.entries]
    exact Table.entries_sorted ht.wellFormed
  within level f hf x hx := hv.readable.within hf hx
  sortedLevels := hv.sortedLevels
  levels := hv.levels
  level0 := hv.level0

end Layered

/-! ## Installing the outputs -/

/-- What `AddFile` is given for an output. -/
theorem CompactionWork.Recorded.file?_some {out : Output α} (h : CompactionWork.Recorded out)
    (hsorted : out.entries.Pairwise fun x y => x.1 < y.1) :
    ∃ f, out.file? = some f ∧ f.number = out.number ∧ out.entries.head?.map (·.1) = some f.smallest ∧
      out.entries.getLast?.map (·.1) = some f.largest := by
  obtain ⟨x, entries, hentries⟩ := List.exists_cons_of_ne_nil h.nonempty
  have hsmallest : out.smallest = some x.1 := by simp [h.smallest, hentries]
  have hlast := List.getLast?_eq_some_getLast h.nonempty
  have hlargest : out.largest = some (out.entries.getLast h.nonempty).1 := by simp [h.largest, hlast]
  have hordered : x.1 ≤ (out.entries.getLast h.nonempty).1 := by
    have hmem := List.getLast_mem h.nonempty
    rw [hentries] at hsorted
    generalize out.entries.getLast h.nonempty = z at hmem ⊢
    rw [hentries] at hmem
    rcases List.mem_cons.1 hmem with rfl | hmem
    · exact le_refl _
    · exact ((List.pairwise_cons.1 hsorted).1 z hmem).le
  refine ⟨⟨out.number, out.fileSize, x.1, _, hordered⟩, ?_, rfl, by simp [hentries], by simp [hlast]⟩
  unfold Output.file?
  simp only [hsmallest, hlargest, dif_pos hordered]

theorem Output.number_of_file? {out : Output α} {f : FileMetaData α} (h : out.file? = some f) :
    f.number = out.number := by
  unfold Output.file? at h
  split at h
  · split at h
    · cases h
      rfl
    · cases h
  · cases h

section Install
variable {c : Compaction α} {outputs : List (Output α)}

theorem mem_installResults_added {level : Nat} {f : FileMetaData α} :
    f ∈ (c.installResults outputs).added level ↔ level = c.level + 1 ∧ ∃ out ∈ outputs, out.file? = some f := by
  rw [VersionEdit.mem_added, Compaction.installResults]
  simp only [List.mem_map, List.mem_filterMap, Prod.mk.injEq]
  constructor
  · rintro ⟨g, hg, rfl, rfl⟩
    exact ⟨rfl, hg⟩
  · rintro ⟨rfl, hf⟩
    exact ⟨f, hf, rfl, rfl⟩

theorem installResults_added_numbers (hnodup : (outputs.map (·.number)).Nodup) (level : Nat) :
    ((c.installResults outputs).added level).Pairwise fun f g => f.number ≠ g.number := by
  have hfiles : (outputs.filterMap Output.file?).Pairwise fun f g => f.number ≠ g.number := by
    refine List.pairwise_filterMap.2 ((List.pairwise_map.1 hnodup).imp fun {_ _} hne f hf g hg => ?_)
    rw [Output.number_of_file? hf, Output.number_of_file? hg]
    exact hne
  have hadded : (c.installResults outputs).added level =
      if c.level + 1 = level then outputs.filterMap Output.file? else [] := by
    unfold VersionEdit.added Compaction.installResults
    by_cases hl : c.level + 1 = level
    · simp [List.filter_map, Function.comp_def, hl]
    · simp [List.filter_map, Function.comp_def, hl]
  rw [hadded]
  split
  · exact hfiles
  · exact List.Pairwise.nil

theorem mem_installResults_deleted {level : Nat} {n : UInt64} :
    n ∈ (c.installResults outputs).deleted level ↔ ∃ f, c.IsInput level f ∧ f.number = n := by
  rw [VersionEdit.mem_deleted, Compaction.installResults]
  simp only [List.mem_append, List.mem_map, Prod.mk.injEq, Compaction.IsInput]
  constructor
  · rintro (⟨f, hf, rfl, rfl⟩ | ⟨f, hf, rfl, rfl⟩)
    · exact ⟨f, Or.inl ⟨rfl, hf⟩, rfl⟩
    · exact ⟨f, Or.inr ⟨rfl, hf⟩, rfl⟩
  · rintro ⟨f, ⟨rfl, hf⟩ | ⟨rfl, hf⟩, rfl⟩
    · exact Or.inl ⟨f, hf, rfl, rfl⟩
    · exact Or.inr ⟨f, hf, rfl, rfl⟩

/-- **`InstallCompactionResults`** puts the outputs at the place of the inputs. -/
theorem mem_install {v : Version α} (hfiled : v.FiledLevels) (hinputs : ∀ level f, c.IsInput level f → f ∈ v.files level)
    (hnodup : (outputs.map (·.number)).Nodup) (hfresh : ∀ out ∈ outputs, ¬ v.Holds (c.level + 1) out.number)
    {level : Nat} (hl : level < kNumLevels) {f : FileMetaData α} :
    f ∈ (c.install v outputs).files level ↔
      (level = c.level + 1 ∧ ∃ out ∈ outputs, out.file? = some f) ∨ (f ∈ v.files level ∧ ¬ c.IsInput level f) := by
  have hmem := (Builder.saveTo_apply hfiled (c.installResults outputs)
    (installResults_added_numbers hnodup) (fun level g hg hholds => by
      obtain ⟨rfl, out, hout, hfile⟩ := mem_installResults_added.1 hg
      exact hfresh out hout (Output.number_of_file? hfile ▸ hholds))).2 level hl f
  rw [Compaction.install, hmem, mem_installResults_added, mem_installResults_deleted]
  refine or_congr_right (and_congr_right fun hf => not_congr ?_)
  constructor
  · rintro ⟨g, hg, hn⟩
    rwa [← (hfiled.filed level).eq_of_number (hinputs level g hg) hf hn]
  · exact fun hin => ⟨f, hin, rfl⟩

end Install

/-! ## The view -/

/-- An entry is in one output only. -/
theorem existsUnique_output {outputs : List (Output α)}
    (hsorted : (outputs.flatMap (·.entries)).Pairwise fun x y => x.1 < y.1) {x : InternalKey α × Bytes}
    (hx : x ∈ outputs.flatMap (·.entries)) : ∃! out, out ∈ outputs ∧ x ∈ out.entries := by
  obtain ⟨out, hout, hxout⟩ := List.mem_flatMap.1 hx
  refine ⟨out, ⟨hout, hxout⟩, ?_⟩
  rintro out' ⟨hout', hxout'⟩
  by_contra hne
  have : Std.Symm fun out out' : Output α => ¬ (x ∈ out.entries ∧ x ∈ out'.entries) :=
    ⟨fun _ _ hnot h => hnot h.symm⟩
  have hapart : outputs.Pairwise fun out out' => ¬ (x ∈ out.entries ∧ x ∈ out'.entries) :=
    (List.pairwise_flatMap.1 hsorted).2.imp fun {_ _} hlt h => absurd (hlt x h.1 x h.2) (lt_irrefl _)
  exact hapart.forall hout' hout hne ⟨hxout', hxout⟩

section View
variable [Coding] [TableFormat] {v : Version α} {cache cache' : TableCache α} {c : Compaction α}
  {outputs : List (Output α)}

theorem mem_mergeAll_tables {y : InternalKey α × Bytes} :
    y ∈ mergeAll (v.tables cache) ↔ ∃ level < kNumLevels, ∃ f ∈ v.files level, y ∈ fileEntries cache f := by
  rw [mem_mergeAll]
  constructor
  · rintro ⟨L, hL, hy⟩
    obtain ⟨level, hl, f, hf, rfl⟩ := Version.mem_tables.1 hL
    exact ⟨level, hl, f, hf, hy⟩
  · rintro ⟨level, hl, f, hf, hy⟩
    exact ⟨_, Version.mem_tables.2 ⟨level, hl, f, hf, rfl⟩, hy⟩

/-- All tables, after the outputs have replaced the inputs. -/
theorem mem_tables_install (h : c.SetUp v) (hfiled : v.FiledLevels) (hnodup : (outputs.map (·.number)).Nodup)
    (hfresh : ∀ out ∈ outputs, ¬ v.Holds (c.level + 1) out.number)
    (hfile : ∀ out ∈ outputs, ∃ f, out.file? = some f)
    (hwritten : ∀ out ∈ outputs, ∀ f ∈ out.file?, fileEntries cache' f = out.entries)
    (hothers : ∀ level, ∀ f ∈ (c.install v outputs).files level, f ∈ v.files level →
      fileEntries cache' f = fileEntries cache f) {y : InternalKey α × Bytes} :
    y ∈ mergeAll ((c.install v outputs).tables cache') ↔ y ∈ outputs.flatMap (·.entries) ∨
      ∃ level < kNumLevels, ∃ f ∈ v.files level, ¬ c.IsInput level f ∧ y ∈ fileEntries cache f := by
  have hmem := fun {level} {f} (hl : level < kNumLevels) =>
    mem_install hfiled (fun _ _ => h.mem) hnodup hfresh hl (f := f)
  rw [mem_mergeAll_tables, List.mem_flatMap]
  constructor
  · rintro ⟨level, hl, f, hf, hy⟩
    rcases (hmem hl).1 hf with ⟨-, out, hout, hfile⟩ | ⟨hold, hnot⟩
    · exact Or.inl ⟨out, hout, hwritten out hout f hfile ▸ hy⟩
    · exact Or.inr ⟨level, hl, f, hold, hnot, hothers level f hf hold ▸ hy⟩
  · rintro (⟨out, hout, hy⟩ | ⟨level, hl, f, hold, hnot, hy⟩)
    · obtain ⟨f, hf⟩ := hfile out hout
      exact ⟨c.level + 1, h.closed.level_lt, f, (hmem h.closed.level_lt).2 (Or.inl ⟨rfl, out, hout, hf⟩),
        (hwritten out hout f hf).symm ▸ hy⟩
    · have hf := (hmem hl).2 (Or.inr ⟨hold, hnot⟩)
      exact ⟨level, hl, f, hf, (hothers level f hf hold).symm ▸ hy⟩

/-- **What the drop rules take away shows nothing**, and nothing shows through. -/
theorem Compaction.SetUp.dropped (h : c.SetUp v) (hv : v.Layered cache) (job : CompactionJob α)
    (hjob : job.inputVersion = v ∧ job.compaction = c) (hss : job.smallestSnapshot < kMaxSequenceNumber)
    {input : List (InternalKey α × Bytes)} (hsorted : input.Pairwise fun x y => x.1 < y.1)
    (hmem : ∀ x, x ∈ input ↔ ∃ level f, c.IsInput level f ∧ x ∈ fileEntries cache f)
    (hparse : ∀ x ∈ input, (parseInternalKey x.1).isSome) {s : Nat} (hs : job.smallestSnapshot ≤ s) {u : α}
    {d : InternalKey α × Bytes} (hnewest : newest s u (mergeAll (v.tables cache)) = some d) (hd : d ∈ input)
    (hdropped : d ∉ DropState.kept job {} input) :
    liveValue d = none ∧ (∀ y ∈ DropState.kept job {} input, sees s u y = true → False) ∧
      ∀ level < kNumLevels, ∀ f ∈ v.files level, ¬ c.IsInput level f → ∀ y ∈ fileEntries cache f,
        sees s u y = true → False := by
  obtain ⟨rfl, rfl⟩ := hjob
  have hkept := fun y => DropState.mem_kept (y := y) hv.sortedLevels hss hsorted hparse
  obtain ⟨-, hdsees⟩ := mem_of_newest hnewest
  have hdu := userKey_of_sees hdsees
  have hfirst : ∀ {level f}, level < kNumLevels → f ∈ job.inputVersion.files level → ∀ y ∈ fileEntries cache f,
      sees s u y = true → d.1 ≤ y.1 := fun hl hf y hy hsees =>
    (mergeAll_sorted _).find?_le hnewest (mem_mergeAll_tables.2 ⟨_, hl, _, hf, hy⟩) hsees
  have hlevel : ∀ {level f}, job.compaction.IsInput level f → level < kNumLevels := by
    rintro level f (⟨rfl, -⟩ | ⟨rfl, -⟩)
    · exact (Nat.lt_succ_self _).trans h.closed.level_lt
    · exact h.closed.level_lt
  obtain ⟨level, f, hf, hdf⟩ := (hmem d).1 hd
  -- a newer entry that hides `d` would be the first one itself
  have hnothidden : ¬ DropState.Hidden job.smallestSnapshot input d := by
    rintro ⟨y, hy, hlt, hyu, hyseq⟩
    obtain ⟨level', f', hf', hyf'⟩ := (hmem y).1 hy
    obtain ⟨p, hp⟩ := Option.isSome_iff_exists.1 (hparse y hy)
    have hsees : sees s u y = true := sees_iff.2 ⟨p, hp, (parseInternalKey_some hp).1.trans (hyu.trans hdu),
      (sequence_of_parse hp).trans_le (hyseq.trans hs)⟩
    exact absurd (hfirst (hlevel hf') (h.mem hf') y hyf' hsees) (not_le.2 hlt)
  have hobsolete : DropState.Obsolete job d := by
    by_contra hnot
    exact hdropped ((hkept d).2 ⟨hd, hnothidden, hnot⟩)
  obtain ⟨⟨p, hp, htype⟩, hdseq, hbase⟩ := hobsolete
  refine ⟨by simp [liveValue, hp, htype], fun y hy hsees => ?_, fun level' hl g hg hnot y hy hsees => ?_⟩
  · obtain ⟨hyin, hyhidden, -⟩ := (hkept y).1 hy
    obtain ⟨level', g, hg, hyg⟩ := (hmem y).1 hyin
    have hyu := userKey_of_sees hsees
    rcases lt_or_eq_of_le (hfirst (hlevel hg) (h.mem hg) y hyg hsees) with hlt | heq
    · exact hyhidden ⟨d, hd, hlt, hdu.trans hyu.symm, hdseq⟩
    · have hsame : y = d := by
        by_contra hne
        have : Std.Symm fun x y : InternalKey α × Bytes => x.1 ≠ y.1 := ⟨fun _ _ => Ne.symm⟩
        exact (hsorted.imp fun {_ _} hlt => hlt.ne).forall hyin hd hne heq.symm
      exact hdropped (hsame ▸ hy)
  · have hyu := userKey_of_sees hsees
    have hlt : d.1 < y.1 := lt_of_le_of_ne (hfirst hl hg y hy hsees)
      (hv.layers.key_ne (h.mem hf) hg (fun heq hfg => hnot (by rw [← heq, ← hfg]; exact hf)) hdf hy)
    have hbelow := h.older_below hv.layers hf hg hnot hdf hy (hdu.trans hyu.symm) hlt
    have hin := hv.readable.within hg hy
    refine hbase level' (List.mem_range'_1.2 (by omega)) g hg ⟨?_, ?_⟩
    · exact (hdu.trans hyu.symm) ▸ InternalKey.userKey_le hin.1
    · exact (hdu.trans hyu.symm) ▸ InternalKey.userKey_le hin.2

end View

/-- **A compaction changes no view.** -/
theorem compaction_preserves_views [Slice α] [Coding] [TableFormat] (M : Merger (InternalKey α) Bytes)
    (vset : VersionSet α) (hv : vset.current.Layered vset.tableCache) (hfiled : vset.current.FiledLevels)
    (hseek : VersionSet.SeekFileKnown vset.current) (c : Compaction α) (vset' : VersionSet α)
    (hc : vset.pickCompaction = some (some (c, vset')) ∨
      ∃ level begin_ end_, vset.compactRange level begin_ end_ = some (some (c, vset')))
    (smallestSnapshot : Nat) (hss : smallestSnapshot < kMaxSequenceNumber)
    (fileSize finishedSize : List (InternalKey α × Bytes) → UInt64) (newFileNumber : Nat → UInt64)
    (input : List (InternalKey α × Bytes))
    (hinput : Yields (vset'.makeInputIterator M c) [.seekToFirst] .next input)
    (hparse : ∀ x ∈ input, (parseInternalKey x.1).isSome)
    (outputs : List (Output α))
    (houtputs : outputs =
      doCompactionWork (vset.job c smallestSnapshot fileSize finishedSize) newFileNumber input)
    (hnodup : (outputs.map (·.number)).Nodup)
    (hfresh : ∀ out ∈ outputs, ¬ vset.current.Holds (c.level + 1) out.number)
    (cache' : TableCache α) (hwritten : ∀ out ∈ outputs, ∀ f ∈ out.file?, fileEntries cache' f = out.entries)
    (hothers : ∀ level, ∀ f ∈ (c.install vset.current outputs).files level, f ∈ vset.current.files level →
      fileEntries cache' f = fileEntries vset.tableCache f) :
    (∀ s, smallestSnapshot ≤ s → ∀ u,
      live s u (mergeAll ((c.install vset.current outputs).tables cache')) =
        live s u (mergeAll (vset.current.tables vset.tableCache))) ∧
    outputs.flatMap (·.entries) =
      DropState.kept (vset.job c smallestSnapshot fileSize finishedSize) {} input ∧
    (∀ x ∈ DropState.kept (vset.job c smallestSnapshot fileSize finishedSize) {} input,
      ∃! out, out ∈ outputs ∧ x ∈ out.entries) ∧
    ∀ out ∈ outputs, ∃ f ∈ (c.install vset.current outputs).files (c.level + 1), out.file? = some f ∧
      out.entries.head?.map (·.1) = some f.smallest ∧ out.entries.getLast?.map (·.1) = some f.largest := by
  obtain ⟨-, hiterator⟩ := VersionSet.makeInputIterator_eq M hv.sortedLevels hv.readable hseek hc
  have hsetup : c.SetUp vset.current := (VersionSet.setUp_of_some hv.sortedLevels hseek hc).1
  -- the input: all entries of all input files
  have hmerge : input = mergeAll (VersionSet.inputLists vset.tableCache c) := by
    rw [hiterator] at hinput
    exact hinput.unique (cursor_yields_next _ _)
  have hperm : input.Perm ((c.inputs0 ++ c.inputs1).flatMap (fileEntries vset.tableCache)) := by
    rw [hmerge, ← VersionSet.inputLists_flatten]
    exact mergeAll_perm _
  have hsorted := hsetup.input_sorted hv.layers hfiled.nodup (hmerge ▸ mergeAll_sorted _) hperm
  have hmem : ∀ x, x ∈ input ↔ ∃ level f, c.IsInput level f ∧ x ∈ fileEntries vset.tableCache f := by
    intro x
    rw [hperm.mem_iff, List.mem_flatMap]
    constructor
    · rintro ⟨f, hf, hx⟩
      rcases List.mem_append.1 hf with hf | hf
      · exact ⟨c.level, f, Or.inl ⟨rfl, hf⟩, hx⟩
      · exact ⟨c.level + 1, f, Or.inr ⟨rfl, hf⟩, hx⟩
    · rintro ⟨level, f, ⟨-, hf⟩ | ⟨-, hf⟩, hx⟩
      · exact ⟨f, List.mem_append_left _ hf, hx⟩
      · exact ⟨f, List.mem_append_right _ hf, hx⟩
  obtain ⟨hrecorded, hentries, -⟩ :=
    doCompactionWork_spec (vset.job c smallestSnapshot fileSize finishedSize) newFileNumber input
  rw [← houtputs] at hrecorded hentries
  have hkeptSorted : (outputs.flatMap (·.entries)).Pairwise fun x y => x.1 < y.1 :=
    hentries ▸ hsorted.sublist (DropState.kept_sublist _ _)
  have hfile := fun out hout => (hrecorded out hout).file?_some ((List.pairwise_flatMap.1 hkeptSorted).1 out hout)
  have htables := fun y => mem_tables_install (y := y) hsetup hfiled hnodup hfresh
    (fun out hout => (hfile out hout).imp fun f hf => hf.1) hwritten hothers
  refine ⟨fun s hs u => ?_, hentries, fun x hx => ?_, fun out hout => ?_⟩
  · refine live_eq_of_dropped (fun x hx y hy heq => ?_) (fun y hy => ?_) fun d hd hgone => ?_
    · obtain ⟨level, -, f, hf, hxf⟩ := mem_mergeAll_tables.1 hx
      obtain ⟨level', -, g, hg, hyg⟩ := mem_mergeAll_tables.1 hy
      by_contra hne
      refine hv.layers.key_ne hf hg (fun hlevel hfg => ?_) hxf hyg heq
      subst hfg
      have : Std.Symm fun x y : InternalKey α × Bytes => x.1 ≠ y.1 := ⟨fun _ _ => Ne.symm⟩
      exact ((hv.layers.sorted level f hf).imp fun {_ _} hlt => hlt.ne).forall hxf hyg hne heq
    · rcases (htables y).1 hy with hy | ⟨level, hl, f, hf, -, hy⟩
      · rw [hentries] at hy
        obtain ⟨level, f, hf, hy⟩ := (hmem y).1 ((DropState.kept_sublist _ _).subset hy)
        refine mem_mergeAll_tables.2 ⟨level, ?_, f, hsetup.mem hf, hy⟩
        have := hsetup.closed.level_lt
        rcases hf with ⟨rfl, -⟩ | ⟨rfl, -⟩ <;> omega
      · exact mem_mergeAll_tables.2 ⟨level, hl, f, hf, hy⟩
    · -- `d` was in an input, and the loop has dropped it
      obtain ⟨level, hl, f, hf, hdf⟩ := mem_mergeAll_tables.1 (mem_of_newest hd).1
      have hinputFile : c.IsInput level f := by
        by_contra hnot
        exact hgone ((htables d).2 (Or.inr ⟨level, hl, f, hf, hnot, hdf⟩))
      obtain ⟨hdead, hkept, hrest⟩ := hsetup.dropped hv
        (vset.job c smallestSnapshot fileSize finishedSize) ⟨rfl, rfl⟩ hss hsorted hmem hparse hs hd
        ((hmem d).2 ⟨level, f, hinputFile, hdf⟩)
        (fun hin => hgone ((htables d).2 (Or.inl (hentries.symm ▸ hin))))
      refine ⟨hdead, fun y hy hsees => ?_⟩
      rcases (htables y).1 hy with hy | ⟨level', hl', g, hg, hnot, hy⟩
      · exact hkept y (hentries ▸ hy) hsees
      · exact hrest level' hl' g hg hnot y hy hsees
  · rw [← hentries] at hx
    exact existsUnique_output hkeptSorted hx
  · obtain ⟨f, hf, -, hsmallest, hlargest⟩ := hfile out hout
    refine ⟨f, ?_, hf, hsmallest, hlargest⟩
    exact (mem_install hfiled (fun level f => hsetup.mem) hnodup hfresh hsetup.closed.level_lt).2
      (Or.inl ⟨rfl, out, hout, hf⟩)

/-! ### A hidden entry goes -/

namespace SampleCompaction

/-- The tables before, and the one the compaction writes. -/
def files' : UInt64 → Option (RandomAccessFile Bytes)
  | 20 => some (OneBlock.file newA.1 [newA] [] [])
  | number => files number

def cache' : TableCache Bytes := OneBlock.cache options files'

/-- Snapshot 3 sees the entry at 3 only. -/
def job : CompactionJob Bytes := vset.job compaction 3 (fun _ => 0) fun _ => 500

def output : Output Bytes :=
  { number := 20, fileSize := 500, smallest := some newA.1, largest := some newA.1, entries := [newA] }

theorem doCompactionWork_eq :
    [output] = doCompactionWork job (fun i => UInt64.ofNat (20 + i)) [newA, oldA] := rfl

theorem mem_files {level : Nat} {f : FileMetaData Bytes} (h : f ∈ vset.current.files level) :
    level = 1 ∧ (f = file1 ∨ f = file2) := by
  match level with
  | 0 => cases h
  | 1 => simpa [vset] using h
  | _ + 2 => cases h

theorem filedLevels : vset.current.FiledLevels := by
  constructor
  · intro level
    match level with
    | 0 => exact List.Pairwise.nil
    | 1 => exact List.pairwise_pair.2 (by decide)
    | _ + 2 => exact List.Pairwise.nil
  · intro level h
    match level with
    | _ + 7 => rfl

section Entries
variable [Coding]

theorem fileEntries_eq {files : UInt64 → Option (RandomAccessFile Bytes)} (f : FileMetaData Bytes)
    (x : InternalKey Bytes × Bytes) (hfile : files f.number = some (OneBlock.file x.1 [x] [] []))
    (hsize : ¬ f.fileSize < 48) (hwithin : f.smallest ≤ x.1 ∧ x.1 ≤ f.largest) :
    letI := smallHandles
    fileEntries (OneBlock.cache options files) f = [x] := by
  let _ := smallHandles
  obtain ⟨hserves, hentries⟩ : Serves (OneBlock.cache options files) f _ ∧ _ :=
    OneBlock.serves hfile hsize (List.pairwise_singleton _ _) (by simp) (by simpa)
  exact hserves.entries.trans hentries

theorem entries_old :
    letI := smallHandles
    (fileEntries vset.tableCache file1 = [newA] ∧ fileEntries vset.tableCache file2 = [oldA]) ∧
      fileEntries cache' file1 = [newA] ∧ fileEntries cache' file2 = [oldA] := by
  let _ := smallHandles
  exact ⟨⟨fileEntries_eq file1 newA rfl (by decide) (by decide), fileEntries_eq file2 oldA rfl (by decide) (by decide)⟩,
    fileEntries_eq file1 newA rfl (by decide) (by decide), fileEntries_eq file2 oldA rfl (by decide) (by decide)⟩

theorem entries_output {f : FileMetaData Bytes} (hf : output.file? = some f) :
    letI := smallHandles
    fileEntries cache' f = [newA] := by
  let _ := smallHandles
  obtain rfl : f = ⟨20, 500, newA.1, newA.1, le_refl _⟩ := (Option.some.inj hf).symm
  exact fileEntries_eq ⟨20, 500, newA.1, newA.1, le_refl _⟩ newA rfl (by decide) (by decide)

theorem layered :
    letI := smallHandles
    vset.current.Layered vset.tableCache := by
  let _ := smallHandles
  refine ⟨readable, sortedLevels, fun level level' hlt f hf g hg => ?_, List.Pairwise.nil⟩
  have := (mem_files hf).1
  have := (mem_files hg).1
  omega

theorem input_eq :
    letI := smallHandles
    mergeAll (VersionSet.inputLists vset.tableCache compaction) = [newA, oldA] := by
  let _ := smallHandles
  have hlists : VersionSet.inputLists vset.tableCache compaction =
      [fileEntries vset.tableCache file1 ++ (fileEntries vset.tableCache file2 ++ [])] := rfl
  rw [hlists, entries_old.1.1, entries_old.1.2]
  rfl

end Entries

end SampleCompaction

theorem compaction_preserves_views_sample :
    letI := littleEndian
    letI := smallHandles
    live 3 [97] (mergeAll ((SampleCompaction.compaction.install SampleCompaction.vset.current
        [SampleCompaction.output]).tables SampleCompaction.cache')) =
      live 3 [97] (mergeAll (SampleCompaction.vset.current.tables SampleCompaction.vset.tableCache)) := by
  let _ := littleEndian
  let _ := smallHandles
  have hiterator := (VersionSet.makeInputIterator_eq (Merger.ofCursors _ _) SampleCompaction.sortedLevels
    SampleCompaction.readable (by rintro f ⟨⟩) (Or.inr ⟨1, none, none, SampleCompaction.compactRange_eq⟩)).2
  have hviews := compaction_preserves_views (Merger.ofCursors _ _) SampleCompaction.vset SampleCompaction.layered
    SampleCompaction.filedLevels (by rintro f ⟨⟩) SampleCompaction.compaction SampleCompaction.moved
    (Or.inr ⟨1, none, none, SampleCompaction.compactRange_eq⟩) 3 (by decide) (fun _ => 0) (fun _ => 500)
    (fun i => UInt64.ofNat (20 + i)) [SampleCompaction.newA, SampleCompaction.oldA]
    (by
      rw [hiterator, SampleCompaction.input_eq]
      exact cursor_yields_next _ _)
    (by decide) [SampleCompaction.output] SampleCompaction.doCompactionWork_eq (by simp)
    (by
      intro out hout
      obtain rfl := List.mem_singleton.1 hout
      rintro ⟨f, hf, hn⟩
      rcases (SampleCompaction.mem_files hf).2 with rfl | rfl <;> cases hn)
    SampleCompaction.cache'
    (by
      intro out hout f hf
      obtain rfl := List.mem_singleton.1 hout
      exact SampleCompaction.entries_output hf)
    (by
      intro level f _ hf
      rcases (SampleCompaction.mem_files hf).2 with rfl | rfl
      · rw [SampleCompaction.entries_old.2.1, SampleCompaction.entries_old.1.1]
      · rw [SampleCompaction.entries_old.2.2, SampleCompaction.entries_old.1.2])
  exact hviews.1 3 (le_refl 3) [97]

end LevelDbSurf
