import LevelDbSurf.QueryEvents

/-!
# The events of range scans

| here | there |
| --- | --- |
| `ForwardScan.scanCalls`  | what a scan does to the children: `Seek` on each, then `Next` |
| `countScanned`, `DBImpl.rangeScan` | a scan of `DoSuRFRangeScan` (`db_bench.cc:1246`) |
| `Version.reached`        | the files a seek may come to: level 0, and of each deeper level those from `FindFile` on |

A level's iterator walks over the files from `FindFile` on until one has an entry to show. So a scan opens a
table iff one of the files it reaches passes `RangeMayMatch` (`scan_opened_iff`); if none does, all that
it shows comes from the memtables (`DBImpl.live_memtables`).
-/

namespace LevelDbSurf

open Cursors TwoLevelIterator

variable {α : Type} [LinearOrder α]

/-! ## What a seek reaches -/

/-- The files a seek to `target` may come to. -/
def Version.reached (v : Version α) (target : InternalKey α) : List (FileMetaData α) :=
  v.files 0 ++ (List.range' 1 (kNumLevels - 1)).flatMap fun level =>
    (v.files level).drop (findFile (v.files level) target)

/-- An iterator over no entries, as `NewEmptyIterator` and `NewErrorIterator` make. -/
def Entryless : FileIterator α → Prop
  | .inl _ => False
  | .inr c => c.entries = []

section Walk
variable [Coding] {files : List (FileMetaData α)} {it : ConcatenatingIterator α}

omit [Coding] in
theorem Entryless.current {x : FileIterator α} (h : Entryless x) : current x = none := by
  cases x with
  | inl t => cases h
  | inr c =>
    show c.entries[c.pos]? = none
    rw [show c.entries = [] from h]
    rfl

omit [Coding] in
theorem Entryless.seek {x : FileIterator α} (h : Entryless x) (t : InternalKey α) : Entryless (seek x t) := by
  cases x with
  | inl t => cases h
  | inr c => exact h

omit [Coding] in
theorem Entryless.seekToFirst {x : FileIterator α} (h : Entryless x) : Entryless (seekToFirst x) := by
  cases x with
  | inl t => cases h
  | inr c => exact h

/-- The skip loop ends on an entry, or behind the last file. -/
theorem skipForward_ends (it : ConcatenatingIterator α) :
    it.skipEmptyDataBlocksForward.dataCurrent.isSome = true ∨
      current it.skipEmptyDataBlocksForward.indexIter = none := by
  fun_induction skipEmptyDataBlocksForward it with
  | case1 it hvalid => exact Or.inl hvalid
  | case2 it hinvalid hindex ih => exact ih
  | case3 it hinvalid hindex =>
    right
    rw [setDataIterator_indexIter]
    simpa using hindex

/-- The data iterator was made for a handle that was asked for. -/
def DataRequested (it : ConcatenatingIterator α) : Prop :=
  ∀ d, it.dataIter = some d → ∃ h ∈ it.requests, Entryless (it.blockFunction h) → Entryless d

theorem DataRequested.initDataBlock (h : DataRequested it) :
    DataRequested it.initDataBlock ∧ it.initDataBlock.blockFunction = it.blockFunction := by
  unfold TwoLevelIterator.initDataBlock
  cases current it.indexIter with
  | none =>
    obtain ⟨hblock, -, hdata⟩ := setDataIterator_fields it none
    exact ⟨by intro d hd; simp [hdata] at hd, hblock⟩
  | some e =>
    dsimp only
    split
    · exact ⟨h, rfl⟩
    · obtain ⟨hblock, -, hdata⟩ := setDataIterator_fields
        ({ it with dataBlockHandle := some e.2, requests := it.requests ++ [e.2] }) (some (it.blockFunction e.2))
      refine ⟨?_, hblock⟩
      intro d hd
      obtain rfl : it.blockFunction e.2 = d := by simpa [hdata] using hd
      refine ⟨e.2, by simp [setDataIterator_requests], ?_⟩
      rw [hblock]
      exact id

omit [Coding] in
theorem DataRequested.onData (h : DataRequested it) {f : FileIterator α → FileIterator α}
    (hf : ∀ x, Entryless x → Entryless (f x)) : DataRequested (it.onData f) := by
  intro d hd
  obtain ⟨d', hd', rfl⟩ := Option.map_eq_some_iff.1 hd
  obtain ⟨v, hv, hempty⟩ := h d' hd'
  exact ⟨v, hv, fun hblock => hf d' (hempty hblock)⟩

theorem DataRequested.skipForward (h : DataRequested it) :
    DataRequested it.skipEmptyDataBlocksForward ∧ it.skipEmptyDataBlocksForward.blockFunction = it.blockFunction := by
  fun_induction skipEmptyDataBlocksForward it with
  | case1 it hvalid => exact ⟨h, rfl⟩
  | case2 it hinvalid hindex ih =>
    obtain ⟨hinit, hblock⟩ := DataRequested.initDataBlock (show DataRequested (it.onIndex next) from h)
    obtain ⟨hskip, hsame⟩ := ih (hinit.onData fun _ hx => hx.seekToFirst)
    exact ⟨hskip, hsame.trans hblock⟩
  | case3 it hinvalid hindex =>
    obtain ⟨hblock, -, hdata⟩ := setDataIterator_fields it none
    exact ⟨by intro d hd; simp [hdata] at hd, hblock⟩

omit [Coding] in
/-- A level's iterator that shows an entry has opened a file. -/
theorem DataRequested.opened (h : DataRequested it) (hvalid : it.dataCurrent.isSome = true) :
    ∃ v ∈ it.requests, ¬ Entryless (it.blockFunction v) := by
  unfold dataCurrent at hvalid
  cases hd : it.dataIter with
  | none => simp [hd] at hvalid
  | some d =>
    obtain ⟨v, hv, hempty⟩ := h d hd
    refine ⟨v, hv, fun hblock => ?_⟩
    rw [hd, Option.bind_some, (hempty hblock).current] at hvalid
    cases hvalid

end Walk

section Seeks
variable [Slice α] [Coding] [TableFormat] {cache : TableCache α} {lo hi : α} {target : InternalKey α}
  {files : List (FileMetaData α)} {it : ConcatenatingIterator α}

/-- `RangeMayMatch` is true of the file's table. -/
def TableCache.passes (cache : TableCache α) (lo hi : α) (f : FileMetaData α) : Bool :=
  match cache.findTable f.number f.fileSize with
  | .ok t => t.rangeMayMatch lo hi
  | .error _ => false

theorem TableCache.answers_fileValue (f : FileMetaData α) :
    cache.answers lo hi (fileValue f) = [false] ↔ cache.passes lo hi f = true := by
  unfold answers passes
  rw [fileValue_number, fileValue_fileSize]
  cases cache.findTable f.number f.fileSize <;> simp

/-- The callback makes an iterator with entries only over a file that passes. -/
theorem TableCache.passes_of_not_entryless (hb : bounded lo hi = true) {options : ReadOptions α} {f : FileMetaData α}
    (h : ¬ Entryless (getFileIterator cache lo hi options (fileValue f) none).iter) : cache.passes lo hi f = true := by
  rw [getFileIterator_fileValue] at h
  unfold newIterator at h
  unfold passes
  cases hf : cache.findTable f.number f.fileSize with
  | error s => simp [hf, Entryless, BlockIter.newErrorIterator] at h
  | ok t => cases hr : t.rangeMayMatch lo hi <;> simp_all [Entryless, BlockIter.newEmptyIterator]

/-- A level's iterator after a seek to `target`: it has asked for files from `FindFile` on, for all of them unless
one passed. -/
structure SoughtTo (cache : TableCache α) (lo hi : α) (target : InternalKey α) (files : List (FileMetaData α))
    (it : ConcatenatingIterator α) : Prop where
  forward : Forward files (findFile files target) it
  through : (∀ f ∈ files.drop (findFile files target), fileValue f ∈ it.requests) ∨
    ∃ f ∈ files, fileValue f ∈ it.requests ∧ cache.passes lo hi f = true

theorem SoughtTo.reached (h : SoughtTo cache lo hi target files it) {v : Bytes} (hv : v ∈ it.requests) :
    ∃ f ∈ files.drop (findFile files target), fileValue f = v := by
  rw [h.forward.requests] at hv
  obtain ⟨f, hf, rfl⟩ := List.mem_map.1 hv
  exact ⟨f, List.mem_of_mem_take hf, rfl⟩

/-- **`Seek`** on a level's iterator, the first call. -/
theorem soughtTo_seek (hb : bounded lo hi = true) (hdistinct : (files.map fileValue).Nodup) {options : ReadOptions α}
    (hblock : it.blockFunction = fun v => (getFileIterator cache lo hi options v none).iter)
    (hflist : it.indexIter.flist = files) (hrequests : it.requests = []) (hdata : it.dataIter = none) :
    SoughtTo cache lo hi target files (seek it target) := by
  have hforward : Forward files (findFile files target) (seek it target) := by
    subst hflist
    exact forward_position hdistinct hrequests hdata (f := (seek · target)) rfl (seek · target)
  refine ⟨hforward, ?_⟩
  have hfresh : DataRequested (it.onIndex (seek · target)) := by
    intro d hd
    simp [TwoLevelIterator.onIndex, hdata] at hd
  obtain ⟨hinit, hsame⟩ := hfresh.initDataBlock
  obtain ⟨hskip, hsame'⟩ := (hinit.onData fun _ hx => hx.seek target).skipForward
  have hfunction : (seek it target).blockFunction = fun v => (getFileIterator cache lo hi options v none).iter :=
    (hsame'.trans hsame).trans hblock
  rcases skipForward_ends ((it.onIndex (seek · target)).initDataBlock.onData (seek · target)) with hvalid | hend
  · -- it stopped on an entry, of a file that passed
    right
    obtain ⟨v, hv, hentries⟩ := DataRequested.opened (show DataRequested (seek it target) from hskip) hvalid
    obtain ⟨f, hf, rfl⟩ := List.mem_map.1 (hforward.requests_sublist.subset hv)
    rw [hfunction] at hentries
    exact ⟨f, hf, hv, TableCache.passes_of_not_entryless hb hentries⟩
  · -- it came to the end
    left
    intro f hf
    have hlength : files.length ≤ (seek it target).indexIter.index := by
      have hnone : ((seek it target).indexIter.flist[(seek it target).indexIter.index]?).map
          (fun f => (f.largest, fileValue f)) = none := hend
      rw [hforward.flist] at hnone
      simpa using hnone
    rw [hforward.requests, List.take_of_length_le (by rw [List.length_drop]; omega)]
    exact List.mem_map_of_mem hf

/-- **`Next`** asks for more. -/
theorem SoughtTo.next (hdistinct : (files.map fileValue).Nodup) (h : SoughtTo cache lo hi target files it) :
    SoughtTo cache lo hi target files (next it) := by
  have hmore : ∀ v ∈ it.requests, v ∈ (Cursor.next it).requests := (skipForward_requests (it.onData Cursor.next)).subset
  refine ⟨(h.forward.onData Cursor.next).skipForward hdistinct, ?_⟩
  rcases h.through with hall | ⟨f, hf, hv, hpasses⟩
  · exact Or.inl fun f hf => hmore _ (hall f hf)
  · exact Or.inr ⟨f, hf, hmore _ hv, hpasses⟩

end Seeks

/-! ## The calls of a scan -/

section Scans
variable [Slice α] [Coding] [TableFormat]

namespace ForwardScan

/-- `Seek` on every child, then `Next` on these. -/
def scanCalls (children : Nat) (target : InternalKey α) (nexts : List Nat) : List (Nat × Op (InternalKey α)) :=
  (List.range children).map (fun i => (i, .seek target)) ++ nexts.map fun i => (i, .next)

end ForwardScan

/-- A child of a scan over these files: new, or after a seek to `target`. -/
def ScanChild.Sought (cache : TableCache α) (options : ReadOptions α) (lo hi : α) (target : InternalKey α)
    (files : List (FileMetaData α)) (c : ScanChild α) : Prop :=
  match c.iter with
  | .inl _ => files = []
  | .inr it =>
    if c.positioned then SoughtTo cache lo hi target files it
    else it.indexIter.flist = files ∧ it.requests = [] ∧ it.dataIter = none ∧
      it.blockFunction = fun v => (getFileIterator cache lo hi options v none).iter

variable {cache : TableCache α} {options : ReadOptions α} {lo hi : α} {target : InternalKey α} {v : Version α}
  {s s' : ForwardScan α}

theorem ScanChild.Sought.apply {files : List (FileMetaData α)} {c : ScanChild α} (hb : bounded lo hi = true)
    (hdistinct : (files.map fileValue).Nodup) (h : c.Sought cache options lo hi target files)
    {op : Op (InternalKey α)} (hop : op = .seek target ∨ op = .next) (hallows : c.allows op = true) :
    ScanChild.Sought cache options lo hi target files { iter := Cursors.apply c.iter op, positioned := true } := by
  obtain ⟨iter, positioned⟩ := c
  unfold ScanChild.Sought at h ⊢
  cases iter with
  | inl x =>
    obtain ⟨y, hy⟩ := apply_inl x op
    dsimp only at h ⊢
    rw [hy]
    exact h
  | inr it =>
    dsimp only at h ⊢
    rcases hop with rfl | rfl
    · obtain rfl : positioned = false := by simpa [ScanChild.allows] using hallows
      obtain ⟨hflist, hrequests, hdata, hblock⟩ := h
      exact soughtTo_seek hb hdistinct hblock hflist hrequests hdata
    · simp only [ScanChild.allows, Bool.and_eq_true] at hallows
      obtain ⟨rfl, hvalid⟩ := hallows
      unfold Cursors.apply
      rw [if_pos hvalid]
      exact SoughtTo.next hdistinct h

namespace ForwardScan

theorem addLevel0_sought (files : List (FileMetaData α)) (metrics : Option MetricsCounters) :
    List.Forall₂ (ScanChild.Sought cache options lo hi target) (files.map fun _ => [])
      ((Version.addLevel0 cache options lo hi files metrics).1.map fun iter => { iter }) := by
  induction files generalizing metrics with
  | nil => exact .nil
  | cons f files ih => exact .cons rfl (ih _)

theorem start_sought (metrics : Option MetricsCounters) :
    List.Forall₂ (ScanChild.Sought cache options lo hi target) v.sources
      (start v cache options lo hi metrics).children := by
  have hlevels : List.Forall₂ (ScanChild.Sought cache options lo hi target) (v.deeperLevels.map v.files)
      ((v.deeperLevels.map fun level =>
        Sum.inr (v.newConcatenatingIterator cache options level lo hi)).map fun iter => { iter }) := by
    rw [List.map_map, List.forall₂_map_left_iff, List.forall₂_map_right_iff, List.forall₂_same]
    exact fun level _ => ⟨rfl, rfl, rfl, rfl⟩
  unfold Version.sources start Version.addIterators
  dsimp only
  rw [List.map_append]
  exact List.rel_append (addLevel0_sought _ _) hlevels

/-- **One call.** -/
theorem sought_step (hb : bounded lo hi = true) (hdistinct : ∀ files ∈ v.sources, (files.map fileValue).Nodup)
    (h : List.Forall₂ (ScanChild.Sought cache options lo hi target) v.sources s.children) {i : Nat}
    {op : Op (InternalKey α)} (hop : op = .seek target ∨ op = .next)
    (hstep : s.step cache options lo hi i op = some s') :
    List.Forall₂ (ScanChild.Sought cache options lo hi target) v.sources s'.children ∧
      ∀ j, (j = i ∨ ∃ c, s.children[j]? = some c ∧ c.positioned = true) →
        ∃ c, s'.children[j]? = some c ∧ c.positioned = true := by
  unfold step at hstep
  split at hstep
  · cases hstep
  · rename_i c hc
    split at hstep
    · rename_i hallows
      cases hstep
      refine ⟨forall₂_set h hc fun files hf hs => hs.apply hb (hdistinct files hf) hop hallows, ?_⟩
      intro j hj
      dsimp only
      by_cases hji : j = i
      · subst hji
        exact ⟨_, List.getElem?_set_self (List.getElem?_eq_some_iff.1 hc).1, rfl⟩
      · rw [List.getElem?_set_ne (Ne.symm hji)]
        rcases hj with hj | hj
        · exact absurd hj hji
        · exact hj
    · cases hstep

/-- **Run.** -/
theorem sought_run (hb : bounded lo hi = true) (hdistinct : ∀ files ∈ v.sources, (files.map fileValue).Nodup)
    {calls : List (Nat × Op (InternalKey α))} (hops : ∀ call ∈ calls, call.2 = .seek target ∨ call.2 = .next)
    (h : List.Forall₂ (ScanChild.Sought cache options lo hi target) v.sources s.children)
    (hrun : s.run cache options lo hi calls = some s') :
    List.Forall₂ (ScanChild.Sought cache options lo hi target) v.sources s'.children ∧
      ∀ j, (j ∈ calls.map (·.1) ∨ ∃ c, s.children[j]? = some c ∧ c.positioned = true) →
        ∃ c, s'.children[j]? = some c ∧ c.positioned = true := by
  induction calls generalizing s with
  | nil =>
    obtain rfl := Option.some.inj hrun
    exact ⟨h, by simp⟩
  | cons call calls ih =>
    unfold run at hrun
    rw [List.foldlM_cons] at hrun
    obtain ⟨s₁, hstep, hrest⟩ := Option.bind_eq_some_iff.1 hrun
    obtain ⟨h₁, hpositioned⟩ := sought_step hb hdistinct h (hops call List.mem_cons_self) hstep
    obtain ⟨h', hpositioned'⟩ := ih (fun c hc => hops c (List.mem_cons_of_mem _ hc)) h₁ hrest
    refine ⟨h', ?_⟩
    intro j hj
    refine hpositioned' j ?_
    rw [List.map_cons, List.mem_cons] at hj
    rcases hj with (hj | hj) | hj
    · exact Or.inr (hpositioned j (Or.inl hj))
    · exact Or.inl hj
    · exact Or.inr (hpositioned j (Or.inr hj))

/-- A table is opened iff a file that was asked for passes. -/
theorem Counts.opened_iff {m₀ : MetricsCounters} (h : Counts v cache lo hi m₀ s) : ∃ m, s.metrics = some m ∧
    (m₀.opened < m.opened ↔ (∃ f ∈ v.files 0, cache.passes lo hi f = true) ∨
      ∃ f : FileMetaData α, fileValue f ∈ s.children.flatMap (·.iter.requests) ∧ cache.passes lo hi f = true) := by
  obtain ⟨log, hmetrics, hperm⟩ := h.counted
  refine ⟨_, hmetrics, ?_⟩
  have hpasses : ∀ f : FileMetaData α, false ∈ cache.answers lo hi (fileValue f) ↔ cache.passes lo hi f = true := by
    intro f
    unfold TableCache.answers TableCache.passes
    rw [fileValue_number, fileValue_fileSize]
    cases cache.findTable f.number f.fileSize <;> simp
  rw [MetricsCounters.countAll_opened]
  have hcount : m₀.opened < m₀.opened + (((log.map fileValue).flatMap (cache.answers lo hi)).count false : Nat) ↔
      ∃ value ∈ log.map fileValue, false ∈ cache.answers lo hi value := by
    rw [← List.mem_flatMap, ← List.count_pos_iff]
    omega
  rw [hcount]
  constructor
  · rintro ⟨value, hvalue, hanswer⟩
    obtain ⟨f, -, rfl⟩ := List.mem_map.1 hvalue
    rcases List.mem_append.1 (hperm.subset hvalue) with hlevel0 | hrequest
    · obtain ⟨g, hg, hgf⟩ := List.mem_map.1 hlevel0
      rw [← hgf] at hanswer
      exact Or.inl ⟨g, hg, (hpasses g).1 hanswer⟩
    · exact Or.inr ⟨f, hrequest, (hpasses f).1 hanswer⟩
  · rintro (⟨f, hf, hpass⟩ | ⟨f, hf, hpass⟩)
    · exact ⟨fileValue f, hperm.symm.subset (List.mem_append_left _ (List.mem_map_of_mem hf)), (hpasses f).2 hpass⟩
    · exact ⟨fileValue f, hperm.symm.subset (List.mem_append_right _ hf), (hpasses f).2 hpass⟩

omit [Slice α] [Coding] [TableFormat] in
theorem mem_sources {files : List (FileMetaData α)} (h : files ∈ v.sources) :
    files = [] ∨ ∃ level ∈ List.range' 1 (kNumLevels - 1), files = v.files level := by
  rcases List.mem_append.1 h with hlevel0 | hlevels
  · exact Or.inl (by simpa using (List.mem_map.1 hlevel0).choose_spec.2.symm)
  · obtain ⟨level, hlevel, rfl⟩ := List.mem_map.1 hlevels
    exact Or.inr ⟨level, (List.mem_filter.1 hlevel).1, rfl⟩

omit [Slice α] [Coding] [TableFormat] in
theorem sources_of_mem {level : Nat} (hlevel : level ∈ List.range' 1 (kNumLevels - 1)) {f : FileMetaData α}
    (hf : f ∈ v.files level) : v.files level ∈ v.sources := by
  have hmem : level ∈ v.deeperLevels := List.mem_filter.2 ⟨hlevel, by cases hfiles : v.files level <;> simp_all⟩
  exact List.mem_append_right _ (List.mem_map_of_mem hmem)

/-- **A scan opens a table** iff a file it reaches passes. -/
theorem scan_opened_iff (hb : bounded lo hi = true) (hdistinct : (v.allFiles.map (·.number)).Nodup)
    {m₀ : MetricsCounters} {nexts : List Nat}
    (hrun : (start v cache options lo hi (some m₀)).run cache options lo hi
      (scanCalls (start v cache options lo hi (some m₀)).children.length target nexts) = some s) :
    ∃ m, s.metrics = some m ∧
      (m₀.opened < m.opened ↔ ∃ f ∈ v.reached target, cache.passes lo hi f = true) := by
  have hnodup : ∀ files ∈ v.sources, (files.map fileValue).Nodup := fun files hf =>
    (values_nodup hdistinct).sublist (((List.sublist_flatten_of_mem hf).trans (deeper_sublist v)).map _)
  have hstart : List.Forall₂ (ScanChild.Sought cache options lo hi target) v.sources
      (start v cache options lo hi (some m₀)).children := start_sought (some m₀)
  obtain ⟨hsought, hpositioned⟩ := sought_run hb hnodup (by
    intro call hcall
    rcases List.mem_append.1 hcall with h | h
    · obtain ⟨i, -, rfl⟩ := List.mem_map.1 h
      exact Or.inl rfl
    · obtain ⟨i, -, rfl⟩ := List.mem_map.1 h
      exact Or.inr rfl) hstart hrun
  obtain ⟨m, hmetrics, hopened⟩ := ((start_counts hb).run hb hdistinct hrun).opened_iff
  have hlength := hsought.length_eq.symm.trans hstart.length_eq
  -- every child has been positioned
  have hchild : ∀ c ∈ s.children, c.positioned = true := by
    intro c hc
    obtain ⟨i, hlt, rfl⟩ := List.mem_iff_getElem.1 hc
    obtain ⟨c', hc', hp⟩ := hpositioned i (Or.inl (by simp [scanCalls]; left; omega))
    rw [List.getElem?_eq_getElem hlt] at hc'
    rw [Option.some.inj hc']
    exact hp
  refine ⟨m, hmetrics, hopened.trans ?_⟩
  unfold Version.reached
  simp only [List.mem_append, List.mem_flatMap]
  constructor
  · rintro (⟨f, hf, hpass⟩ | ⟨f, ⟨c, hc, hrequest⟩, hpass⟩)
    · exact ⟨f, Or.inl hf, hpass⟩
    · obtain ⟨i, hget⟩ := List.mem_iff_getElem?.1 hc
      obtain ⟨files, hfiles, hs⟩ := exists_of_forall₂ hsought hget
      unfold ScanChild.Sought at hs
      unfold VersionIterator.requests at hrequest
      cases hiter : c.iter with
      | inl x => simp [hiter] at hrequest
      | inr it =>
        simp only [hiter, hchild c hc, if_true] at hs hrequest
        obtain ⟨g, hg, hgf⟩ := hs.reached hrequest
        have hgpass : cache.passes lo hi g = true := by
          rwa [← TableCache.answers_fileValue, hgf, TableCache.answers_fileValue]
        rcases mem_sources hfiles with rfl | ⟨level, hlevel, rfl⟩
        · simp at hg
        · exact ⟨g, Or.inr ⟨level, hlevel, hg⟩, hgpass⟩
  · rintro ⟨f, hf | ⟨level, hlevel, hf⟩, hpass⟩
    · exact Or.inl ⟨f, hf, hpass⟩
    · obtain ⟨c, hc, hs⟩ := exists_right_of_forall₂ hsought (sources_of_mem hlevel (List.mem_of_mem_drop hf))
      unfold ScanChild.Sought at hs
      right
      cases hiter : c.iter with
      | inl x =>
        simp only [hiter] at hs
        simp [hs] at hf
      | inr it =>
        simp only [hiter, hchild c hc, if_true] at hs
        have hrequests : c.iter.requests = it.requests := by rw [hiter]; rfl
        rcases hs.through with hall | ⟨g, -, hg, hgpass⟩
        · exact ⟨f, ⟨c, hc, by rw [hrequests]; exact hall f hf⟩, hpass⟩
        · exact ⟨g, ⟨c, hc, by rw [hrequests]; exact hg⟩, hgpass⟩

end ForwardScan

/-! ## What a scan shows -/

namespace DBImpl

variable {db : DBImpl α}

/-- The entries of the memtables. -/
def memtables (db : DBImpl α) : List (InternalKey α × Bytes) := mergeAll ([db.mem] ++ db.imm.toList)

/-- If no file the seek reaches passes, the tables have nothing to show from `lo` on. -/
theorem not_sees_tables (hb : bounded lo hi = true) (hs : db.current.SortedLevels)
    (hr : db.current.Readable db.tableCache) {sequence : Nat}
    (hnone : ∀ f ∈ db.current.reached (lookupKey lo sequence), db.tableCache.passes lo hi f = false) {u : α}
    (hu : lo ≤ u) {level : Nat} (hlevel : level < kNumLevels) {f : FileMetaData α} (hf : f ∈ db.current.files level) :
    ∀ x ∈ fileKept db.tableCache lo hi f, sees sequence u x = false := by
  obtain ⟨t, ht⟩ := hr level f hf
  rw [ht.kept]
  have hpruned : f ∈ db.current.reached (lookupKey lo sequence) → t.kept lo hi = [] := by
    intro hreached
    have hpass := hnone f hreached
    unfold TableCache.passes at hpass
    rw [ht.found] at hpass
    simp [Table.kept, hb, hpass]
  by_cases h0 : level = 0
  · subst h0
    rw [hpruned (List.mem_append_left _ hf)]
    simp
  · have hlevel' : level ∈ List.range' 1 (kNumLevels - 1) := by
      rw [List.mem_range'_1]
      unfold kNumLevels at hlevel ⊢
      omega
    have hsplit : f ∈ (db.current.files level).take (findFile (db.current.files level) (lookupKey lo sequence)) ++
        (db.current.files level).drop (findFile (db.current.files level) (lookupKey lo sequence)) := by
      rwa [List.take_append_drop]
    rcases List.mem_append.1 hsplit with hbefore | hafter
    · -- the file ends before the lookup key of `lo`
      intro x hx
      have hlargest := (findFile_brackets (hs level (by omega)) (lookupKey lo sequence)).2.1 f hbefore
      have hx' : x.1 < lookupKey lo sequence := lt_of_le_of_lt (ht.within x ((t.kept_sublist lo hi).subset hx)).2 hlargest
      by_contra hsees
      rw [Bool.not_eq_false] at hsees
      obtain ⟨p, hp, -⟩ := sees_iff.1 hsees
      obtain ⟨-, hle⟩ := (sees_iff_lookupKey (by simp [hp])).1 hsees
      exact absurd (lt_of_le_of_lt hle hx') (not_lt.2 (lookupKey_mono hu sequence))
    · rw [hpruned (List.mem_append_right _ (List.mem_flatMap.2 ⟨level, hlevel', hafter⟩))]
      simp

/-- Then what is live comes from the memtables. -/
theorem live_memtables (hb : bounded lo hi = true) (hs : db.current.SortedLevels)
    (hr : db.current.Readable db.tableCache) {sequence : Nat}
    (hnone : ∀ f ∈ db.current.reached (lookupKey lo sequence), db.tableCache.passes lo hi f = false) {u : α}
    (hu : lo ≤ u) : live sequence u (db.merged lo hi) = live sequence u db.memtables := by
  have htables : ((db.current.children db.tableCache lo hi).map (List.filter (sees sequence u))).flatten = [] := by
    rw [List.flatten_eq_nil_iff]
    intro L hL
    obtain ⟨L', hL', rfl⟩ := List.mem_map.1 hL
    rw [List.filter_eq_nil_iff]
    intro x hx
    rw [Bool.not_eq_true]
    unfold Version.children at hL'
    rcases List.mem_append.1 hL' with hlevel0 | hlevels
    · obtain ⟨f, hf, rfl⟩ := List.mem_map.1 hlevel0
      exact not_sees_tables hb hs hr hnone hu (by decide) hf x hx
    · obtain ⟨level, hlevel, rfl⟩ := List.mem_map.1 hlevels
      obtain ⟨f, hf, hxf⟩ := List.mem_flatMap.1 hx
      exact not_sees_tables hb hs hr hnone hu (mem_deeperLevels hlevel).2 hf x hxf
  unfold live newest
  rw [← List.head?_filter, ← List.head?_filter, merged, memtables, filter_mergeAll, filter_mergeAll, children,
    List.map_append]
  unfold mergeAll
  rw [List.flatten_append, htables, List.append_nil]

end DBImpl

end Scans

section Visible

/-- What a snapshot shows is in key order. -/
theorem visible_sorted {L : List (InternalKey α × Bytes)} (hL : Sorted L) (s : Nat) :
    (visible s L).Pairwise fun a b => a.1 < b.1 := by
  have hkeys : (L.map (·.1.userKey)).Pairwise (· ≤ ·) := by
    rw [List.pairwise_map]
    exact hL.imp InternalKey.userKey_le
  have hdedup : ((L.map (·.1.userKey)).dedup).Pairwise (· < ·) :=
    ((hkeys.sublist (List.dedup_sublist _)).and (List.nodup_dedup _)).imp fun h => lt_of_le_of_ne h.1 h.2
  refine hdedup.filterMap _ ?_
  intro a b hab x hx y hy
  obtain ⟨v, -, rfl⟩ := Option.map_eq_some_iff.1 hx
  obtain ⟨w, -, rfl⟩ := Option.map_eq_some_iff.1 hy
  exact hab

/-- A seek to `lo` comes to an entry not after `hi` iff there is one between. -/
theorem seek_between {ν : Type} {L : List (α × ν)} (hL : L.Pairwise fun a b => a.1 < b.1) (lo hi : α) :
    (∃ x, cursor L [.seek lo] = some x ∧ x.1 ≤ hi) ↔ ∃ x ∈ L, lo ≤ x.1 ∧ x.1 ≤ hi := by
  have hseek : cursor L [.seek lo] = L[seekPos L lo]? := rfl
  rw [hseek]
  constructor
  · rintro ⟨x, hx, hle⟩
    obtain ⟨hlt, rfl⟩ := List.getElem?_eq_some_iff.1 hx
    exact ⟨_, List.getElem_mem hlt, le_of_seekPos hlt, hle⟩
  · rintro ⟨x, hx, hlo, hhi⟩
    obtain ⟨j, hj, rfl⟩ := List.mem_iff_getElem.1 hx
    have hge : seekPos L lo ≤ j := by
      by_contra hlt
      exact absurd (lt_of_seekPos (not_le.1 hlt) hj) (not_lt.2 hlo)
    have hlt : seekPos L lo < L.length := lt_of_le_of_lt hge hj
    refine ⟨L[seekPos L lo], List.getElem?_eq_getElem hlt, ?_⟩
    rcases Nat.lt_or_eq_of_le hge with hlt' | heq
    · exact le_trans (List.pairwise_iff_getElem.1 hL _ _ hlt hj hlt').le hhi
    · simp only [heq]
      exact hhi

end Visible

/-! ## The scan and its event -/

/-- The loop of `DoSuRFRangeScan`: it counts the entries up to `hi`, at most `fuel`. -/
def countScanned (iter : Behaviour α Bytes) (hi : α) : Nat → List (Op α) → Nat
  | 0, _ => 0
  | fuel + 1, ops =>
    match iter ops with
    | some (key, _) => if key ≤ hi then countScanned iter hi fuel (ops ++ [.next]) + 1 else 0
    | none => 0

theorem countScanned_pos_iff (iter : Behaviour α Bytes) (hi : α) (fuel : Nat) (ops : List (Op α)) :
    0 < countScanned iter hi (fuel + 1) ops ↔ ∃ x, iter ops = some x ∧ x.1 ≤ hi := by
  unfold countScanned
  cases iter ops with
  | none => simp
  | some x => by_cases hx : x.1 ≤ hi <;> simp [hx]

section Events
variable [Slice α] [Coding] [TableFormat]

namespace DBImpl

/-- A scan of `DoSuRFRangeScan`: how many entries it counts, and the counters. The merging iterator seeks every
child; `nexts` are the children it then moves on. `none` if they cannot be moved. -/
def rangeScan (M : Merger (InternalKey α) Bytes) (D : DBIterators α) (db : DBImpl α) (lo hi : α) (nexts : List Nat) :
    Option (Nat × MetricsCounters) :=
  let options : ReadOptions α := { lo, hi }
  let start := ForwardScan.start db.current db.tableCache options lo hi (some {})
  let calls := ForwardScan.scanCalls start.children.length (lookupKey lo (db.snapshotOf options)) nexts
  (start.run db.tableCache options lo hi calls).map fun s =>
    (countScanned (db.newIterator M D.newDBIterator options (some {})) hi 100 [.seek lo], s.metrics.getD {})

/-- The event of such a scan. -/
def rangeScanEvent (M : Merger (InternalKey α) Bytes) (D : DBIterators α) (db : DBImpl α) (queryId : UInt64)
    (filterType benchmarkName : String) (lo hi : α) (nexts : List Nat) (start finish : Int) : Option QueryEvent :=
  (db.rangeScan M D lo hi nexts).map fun (scanned, counters) =>
    queryEvent queryId filterType benchmarkName "range_scan" (some (Slice.data lo)) (some (Slice.data hi))
      (decide (scanned > 0)) (finish - start) finish (some counters)

/-- Nothing between `lo` and `hi` is live in the memtables alone, or a file the scan reaches passes. -/
def ScanServed (db : DBImpl α) (lo hi : α) : Prop :=
  (∀ u, lo ≤ u → u ≤ hi → live db.lastSequence u db.memtables = none) ∨
    ∃ f ∈ db.current.reached (lookupKey lo db.lastSequence), db.tableCache.passes lo hi f = true

variable {db : DBImpl α} {lo hi : α}

/-- A scan finds something iff something between the bounds is live in what is merged. -/
theorem scanned_pos_iff (M : Merger (InternalKey α) Bytes) (D : DBIterators α) (hm : db.SortedMem)
    (hs : db.current.SortedLevels) (hr : db.current.Readable db.tableCache) (metrics : Option MetricsCounters) :
    0 < countScanned (db.newIterator M D.newDBIterator { lo, hi } metrics) hi 100 [.seek lo] ↔
      ∃ u, lo ≤ u ∧ u ≤ hi ∧ (live db.lastSequence u (db.merged lo hi)).isSome = true := by
  have hsorted : Sorted (db.merged lo hi) := mergeAll_sorted _
  rw [newIterator_eq M D hm hs hr, countScanned_pos_iff]
  show (∃ x, cursor (visible db.lastSequence (db.merged lo hi)) [.seek lo] = some x ∧ x.1 ≤ hi) ↔ _
  rw [seek_between (visible_sorted hsorted _)]
  constructor
  · rintro ⟨⟨u, v⟩, hx, hlo, hhi⟩
    exact ⟨u, hlo, hhi, by rw [mem_visible.1 hx]; rfl⟩
  · rintro ⟨u, hlo, hhi, hlive⟩
    obtain ⟨v, hv⟩ := Option.isSome_iff_exists.1 hlive
    exact ⟨(u, v), mem_visible.2 hv, hlo, hhi⟩

/-- **The event of a scan** shows no false negative iff the scan is served. -/
theorem rangeScanEvent_noFalseNegative_iff (M : Merger (InternalKey α) Bytes) (D : DBIterators α) (hm : db.SortedMem)
    (hs : db.current.SortedLevels) (hr : db.current.Readable db.tableCache)
    (hdistinct : (db.current.allFiles.map (·.number)).Nodup) (hb : bounded lo hi = true) {queryId : UInt64}
    {filterType benchmarkName : String} {nexts : List Nat} {start finish : Int} {e : QueryEvent}
    (h : db.rangeScanEvent M D queryId filterType benchmarkName lo hi nexts start finish = some e) :
    e.NoFalseNegative ↔ db.ScanServed lo hi := by
  obtain ⟨⟨scanned, counters⟩, hscan, rfl⟩ := Option.map_eq_some_iff.1 h
  obtain ⟨s, hrun, hresult⟩ := Option.map_eq_some_iff.1 hscan
  obtain ⟨hscanned, hcounters⟩ := Prod.mk.inj hresult
  obtain ⟨m, hmetrics, hopened⟩ := ForwardScan.scan_opened_iff hb hdistinct hrun
  have hm' : counters = m := by
    rw [← hcounters, hmetrics]
    rfl
  have hpos : 0 < counters.opened ↔ ∃ f ∈ db.current.reached (lookupKey lo db.lastSequence),
      db.tableCache.passes lo hi f = true := by
    rw [hm']
    exact hopened
  rw [queryEvent_noFalseNegative_iff (Or.inr rfl), hpos, decide_eq_true_eq, ← hscanned]
  show (0 < _ → _) ↔ _
  rw [scanned_pos_iff M D hm hs hr]
  unfold ScanServed
  constructor
  · intro hserved
    by_cases hpass : ∃ f ∈ db.current.reached (lookupKey lo db.lastSequence), db.tableCache.passes lo hi f = true
    · exact Or.inr hpass
    · have hnone : ∀ f ∈ db.current.reached (lookupKey lo db.lastSequence), db.tableCache.passes lo hi f = false := by
        simpa using hpass
      left
      intro u hlo hhi
      by_contra hlive
      rw [← Ne, Option.ne_none_iff_isSome, ← live_memtables hb hs hr hnone hlo] at hlive
      exact hpass (hserved ⟨u, hlo, hhi, hlive⟩)
  · rintro (hquiet | hpass) ⟨u, hlo, hhi, hlive⟩
    · by_contra hpass
      have hnone : ∀ f ∈ db.current.reached (lookupKey lo db.lastSequence), db.tableCache.passes lo hi f = false := by
        simpa using hpass
      rw [live_memtables hb hs hr hnone hlo, hquiet u hlo hhi] at hlive
      cases hlive
    · exact hpass

end DBImpl

end Events

end LevelDbSurf
