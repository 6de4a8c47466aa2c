import LevelDbSurf.RangeScanEvents
import LevelDbSurf.StoredVersions

/-!
# What reads of the database answer

| here | there |
| --- | --- |
| `Sources.Served` | what `TableCache::FindTable` gives for the files of a version |
| `DBImpl.Reads`   | what `Get` (`db_impl.cc:1125`) and `NewInternalIterator` (`:1083`) reference |

`DBImpl` is what a read holds on to while the mutex is released. Whatever the sources, if they are good and the table
cache serves what is in the files, `Get` answers with the newest write the snapshot sees (`DBImpl.get_eq_view`), and
an unbounded iterator is a cursor over the map of these (`DBImpl.newIterator_eq_view`).
-/

namespace LevelDbSurf

open Cursors Versions

variable {α : Type} [LinearOrder α]

/-- What `Get` answers for a key with or without a value. -/
def answerOf (value : Bytes) : Option Bytes → Status × Bytes
  | some w => (.ok, w)
  | none => (.notFound "", value)

/-! ## Sources that are served -/

section Served
variable [Slice α] [Coding] [TableFormat]

/-- The table cache finds in every file what has been built into it, and its filter. -/
structure Sources.Served (S : Sources α) (cache : TableCache α) (userPolicy : Option FilterPolicy) : Prop where
  readable : S.version.Readable cache
  entries : ∀ level, ∀ f ∈ S.version.files level, fileEntries cache f = S.contents f.number
  filters : ∀ level, ∀ f ∈ S.version.files level, f.FilterWritten cache userPolicy

/-- The tables are those of the version, and the memtables those of the sources; the immutable one is older. -/
structure DBImpl.Reads (db : DBImpl α) (S : Sources α) : Prop where
  current : db.current = S.version
  sorted : db.SortedMem
  mem : ∀ x, x ∈ S.unflushed ↔ x ∈ db.mem ∨ ∃ imm, db.imm = some imm ∧ x ∈ imm
  older : ∀ imm, db.imm = some imm → ∀ x ∈ imm, ∀ y ∈ db.mem, x.1.sequence < y.1.sequence

variable {S : Sources α} {cache : TableCache α} {userPolicy : Option FilterPolicy}

theorem Sources.Good.searchable (h : S.Good) (hserved : S.Served cache userPolicy) :
    S.version.Searchable cache := by
  have hnewer : ∀ {level level' f g}, f ∈ S.version.files level → g ∈ S.version.files level' →
      SeqNewer S.contents f g → Newer cache f g := by
    intro level level' f g hf hg hfg
    unfold Newer
    rw [hserved.entries level f hf, hserved.entries level' g hg]
    exact hfg.key_lt
  refine ⟨hserved.readable, fun level f hf x hx => ?_, fun level f hf => ?_, h.valid.sortedLevels,
    fun level level' hlt f hf g hg => hnewer hf hg (h.valid.lowerNewer.levels level level' hlt f hf g hg), ?_⟩
  · rw [hserved.entries level f hf] at hx
    exact h.parses x (Or.inr ⟨level, f, hf, hx⟩)
  · rw [hserved.entries level f hf]
    exact h.largest level f hf
  · refine List.Pairwise.imp_of_mem (fun {f g} hf hg hfg => ?_) (h.valid.filed.filed 0)
    rcases UInt64.lt_or_lt_of_ne hfg.2 with hlt | hlt
    · exact Or.inr ⟨hlt, hnewer hg hf (h.valid.lowerNewer.level0 g hg f hf hlt)⟩
    · exact Or.inl ⟨hlt, hnewer hf hg (h.valid.lowerNewer.level0 f hf g hg hlt)⟩

/-- The entries of the tables alone. -/
theorem Sources.Good.tables (h : S.Good) (hserved : S.Served cache userPolicy) (s : Nat) (u : α) :
    live s u (mergeAll (S.version.tables cache)) = view (versionsOf {x | S.InTables x}) s u := by
  refine live_eq_view (fun x => ?_) (h.unique.mono ?_) s u
  · constructor
    · rintro ⟨level, f, hf, hx⟩
      have hl : level < kNumLevels := by
        by_contra hl
        rw [h.valid.filed.none_beyond level (not_lt.1 hl)] at hf
        cases hf
      exact ⟨_, Version.mem_tables.2 ⟨level, hl, f, hf, rfl⟩, (hserved.entries level f hf).symm ▸ hx⟩
    · rintro ⟨L, hL, hx⟩
      obtain ⟨level, -, f, hf, rfl⟩ := Version.mem_tables.1 hL
      exact ⟨level, f, hf, hserved.entries level f hf ▸ hx⟩
  · rintro w ⟨x, hx, hw⟩
    exact ⟨x, Or.inr hx, hw⟩

end Served

/-- The newest entry of a list the snapshot sees is the newest write in it. -/
theorem newest_spec {L : List (InternalKey α × Bytes)} (hL : Sorted L) {s : Nat} {u : α} :
    (newest s u L = none → ∀ w ∈ versionsOf {x | x ∈ L}, ¬ w.VisibleAt s u) ∧
      ∀ d, newest s u L = some d → ∃ w, stampedOf d = some w ∧ Newest (versionsOf {x | x ∈ L}) s u w := by
  constructor
  · rintro hnone w ⟨x, hx, hw⟩ hvisible
    exact List.find?_eq_none.1 hnone x hx ((sees_eq hw).2 hvisible)
  · intro d hd
    obtain ⟨hmemd, hsees⟩ := mem_of_newest hd
    obtain ⟨p, hp, -⟩ := sees_iff.1 hsees
    obtain ⟨w, hw⟩ := exists_stampedOf (x := d) (by simp [hp])
    refine ⟨w, hw, ⟨d, hmemd, hw⟩, (sees_eq hw).1 hsees, ?_⟩
    rintro w' ⟨y, hy, hw'⟩ hvisible
    have hysees := (sees_eq hw').2 hvisible
    rw [(stampedOf_some hw).2.1, (stampedOf_some hw').2.1]
    exact InternalKey.sequence_le (hL.find?_le hd hy hysees)
      ((userKey_of_sees hsees).trans (userKey_of_sees hysees).symm)

section Reads
variable [Slice α] [Coding] [TableFormat] {S : Sources α} {db : DBImpl α} {userPolicy : Option FilterPolicy}

/-- An entry in memory is the answer. -/
theorem DBImpl.get_of_memtables {options : ReadOptions α} {u : α} {value : Bytes} {metrics : Option MetricsCounters}
    {v : Option Bytes} (h : db.memtablesGet u (db.snapshotOf options) = some v) :
    ((db.get options u value metrics).status, (db.get options u value metrics).value) = answerOf value v := by
  unfold DBImpl.get
  dsimp only
  rw [h]
  cases v <;> rfl

/-- Else the version is asked. -/
theorem DBImpl.get_of_version {options : ReadOptions α} {u : α} {value : Bytes} {metrics : Option MetricsCounters}
    (h : db.memtablesGet u (db.snapshotOf options) = none) :
    ((db.get options u value metrics).status, (db.get options u value metrics).value) =
      ((db.current.get db.tableCache options u (db.snapshotOf options) value metrics).status,
        (db.current.get db.tableCache options u (db.snapshotOf options) value metrics).value) := by
  unfold DBImpl.get
  dsimp only
  rw [h]

/-- **`DBImpl::Get`** answers with the newest write the snapshot sees, in memtables or tables. -/
theorem DBImpl.get_eq_view (rawOptions : Options)
    (hP : ∀ P, rawOptions.filterPolicy = some P → P.AcceptsAdded)
    (hcache : db.tableCache.options = sanitizeOptions rawOptions) (hS : S.Good) (hreads : db.Reads S)
    (hserved : S.Served db.tableCache rawOptions.filterPolicy) (options : ReadOptions α) (u : α) (value : Bytes)
    (metrics : Option MetricsCounters) :
    ((db.get options u value metrics).status, (db.get options u value metrics).value) =
      answerOf value (view S.versions (db.snapshotOf options) u) := by
  -- three layers, each newer than the next
  let I := versionsOf {x | ∃ imm, db.imm = some imm ∧ x ∈ imm}
  let T := versionsOf {x | S.InTables x}
  have hversions : S.versions = (T ∪ I) ∪ versionsOf {x | x ∈ db.mem} := by
    have hentries : S.entries = ({x | S.InTables x} ∪ {x | ∃ imm, db.imm = some imm ∧ x ∈ imm}) ∪
        {x | x ∈ db.mem} := by
      ext x
      simp only [Sources.entries, Set.mem_union, Set.mem_ofPred_eq, hreads.mem]
      rw [or_assoc, or_comm, or_comm (a := S.InTables x)]
    rw [Sources.versions, hentries, versionsOf_union, versionsOf_union]
  have hunique := hS.unique
  rw [hversions] at hunique
  have hnewerI : ∀ w ∈ T, ∀ w' ∈ I, w.stamp < w'.stamp := by
    rintro w ⟨x, hx, hw⟩ w' ⟨y, hy, hw'⟩
    rw [(stampedOf_some hw).2.1, (stampedOf_some hw').2.1]
    exact hS.newer x hx y ((hreads.mem y).2 (Or.inr hy))
  have hnewerM : ∀ w ∈ T ∪ I, ∀ w' ∈ versionsOf {x | x ∈ db.mem}, w.stamp < w'.stamp := by
    rintro w (⟨x, hx, hw⟩ | ⟨x, ⟨imm, himm, hx⟩, hw⟩) w' ⟨y, hy, hw'⟩
    · rw [(stampedOf_some hw).2.1, (stampedOf_some hw').2.1]
      exact hS.newer x hx y ((hreads.mem y).2 (Or.inl hy))
    · rw [(stampedOf_some hw).2.1, (stampedOf_some hw').2.1]
      exact hreads.older imm himm x hx y hy
  obtain ⟨hnoneM, hsomeM⟩ := newest_spec hreads.sorted.mem (s := db.snapshotOf options) (u := u)
  rw [hversions]
  cases hd : newest (db.snapshotOf options) u db.mem with
  | some d =>
    obtain ⟨w, hw, hnewest⟩ := hsomeM d hd
    have hmemtables : db.memtablesGet u (db.snapshotOf options) = some w.value := by
      simp [DBImpl.memtablesGet, memTableGet, hd, liveValue_eq hw]
    rw [DBImpl.get_of_memtables hmemtables, hunique.view_eq (hnewest.union_newer hnewerM)]
  | none =>
    rw [view_union_invisible (hnoneM hd)]
    have hversion : db.memtablesGet u (db.snapshotOf options) = none →
        ((db.get options u value metrics).status, (db.get options u value metrics).value) =
          answerOf value (view T (db.snapshotOf options) u) := by
      intro hmemtables
      rw [DBImpl.get_of_version hmemtables, hreads.current, ((hS.searchable hserved).get_live rawOptions hP hcache
        hserved.filters options u _ value metrics metrics).1, hS.tables hserved]
      rfl
    cases himm : db.imm with
    | none =>
      have hI : ∀ w ∈ I, ¬ w.VisibleAt (db.snapshotOf options) u := by
        rintro w ⟨x, ⟨imm, himm', -⟩, -⟩
        rw [himm] at himm'
        cases himm'
      rw [view_union_invisible hI]
      exact hversion (by simp [DBImpl.memtablesGet, memTableGet, hd, himm])
    | some imm =>
      have hIeq : I = versionsOf {x | x ∈ imm} := by
        show versionsOf {x | ∃ imm, db.imm = some imm ∧ x ∈ imm} = _
        simp only [himm, Option.some.injEq, exists_eq_left']
      obtain ⟨hnoneI, hsomeI⟩ := newest_spec (hreads.sorted.imm imm himm) (s := db.snapshotOf options) (u := u)
      cases hd' : newest (db.snapshotOf options) u imm with
      | some d =>
        obtain ⟨w, hw, hnewest⟩ := hsomeI d hd'
        rw [← hIeq] at hnewest
        have hmemtables : db.memtablesGet u (db.snapshotOf options) = some w.value := by
          simp [DBImpl.memtablesGet, memTableGet, hd, himm, hd', liveValue_eq hw]
        rw [DBImpl.get_of_memtables hmemtables,
          (hunique.mono Set.subset_union_left).view_eq (hnewest.union_newer hnewerI)]
      | none =>
        rw [view_union_invisible (by rw [hIeq]; exact hnoneI hd')]
        exact hversion (by simp [DBImpl.memtablesGet, memTableGet, hd, himm, hd'])

/-- The tables of an iterator without bounds. -/
theorem fileKept_of_not_bounded {cache : TableCache α} {lo hi : α} (h : bounded lo hi = false)
    (f : FileMetaData α) : fileKept cache lo hi f = fileEntries cache f := by
  unfold fileKept fileEntries
  cases cache.findTable f.number f.fileSize with
  | error _ => rfl
  | ok t => exact t.kept_of_not_bounded h

/-- **An iterator without bounds** is a cursor over the map the snapshot sees: its keys in order, each with its
value. -/
theorem DBImpl.newIterator_eq_view (M : Merger (InternalKey α) Bytes) (D : DBIterators α) (hS : S.Good)
    (hreads : db.Reads S) (hserved : S.Served db.tableCache userPolicy) (options : ReadOptions α)
    (hbounds : bounded options.lo options.hi = false) (metrics : Option MetricsCounters) :
    ∃ L : List (α × Bytes), db.newIterator M D.newDBIterator options metrics = cursor L ∧
      (L.Pairwise fun x y => x.1 < y.1) ∧
      ∀ u v, (u, v) ∈ L ↔ view S.versions (db.snapshotOf options) u = some v := by
  have hsorted : db.current.SortedLevels := hreads.current ▸ hS.valid.sortedLevels
  have hreadable : db.current.Readable db.tableCache := hreads.current ▸ hserved.readable
  refine ⟨_, db.newIterator_eq M D hreads.sorted hsorted hreadable options metrics,
    visible_sorted (mergeAll_sorted _) _, fun u v => ?_⟩
  rw [mem_visible, merged, hS.live_eq fun x => ?_]
  have hfile : ∀ {f}, fileKept db.tableCache options.lo options.hi f = fileEntries db.tableCache f :=
    fileKept_of_not_bounded hbounds _
  unfold Sources.entries children Version.children
  simp only [Set.mem_ofPred_eq, List.mem_append, List.mem_singleton, Option.mem_toList, List.mem_map, hreads.mem]
  constructor
  · rintro ((hx | ⟨imm, himm, hx⟩) | ⟨level, f, hf, hx⟩)
    · exact ⟨_, Or.inl (Or.inl rfl), hx⟩
    · exact ⟨imm, Or.inl (Or.inr himm), hx⟩
    · rw [← hserved.entries level f hf, ← hfile] at hx
      rw [← hreads.current] at hf
      by_cases h0 : level = 0
      · subst h0
        exact ⟨_, Or.inr (Or.inl ⟨f, hf, rfl⟩), hx⟩
      · refine ⟨_, Or.inr (Or.inr ⟨level, ?_, rfl⟩), List.mem_flatMap.2 ⟨f, hf, hx⟩⟩
        refine List.mem_filter.2 ⟨List.mem_range'_1.2 ⟨Nat.pos_of_ne_zero h0, ?_⟩, ?_⟩
        · by_contra hl
          rw [hreads.current, hS.valid.filed.none_beyond level (by unfold kNumLevels at hl ⊢; omega)] at hf
          cases hf
        · have hne := List.ne_nil_of_mem hf
          simpa using hne
  · rintro ⟨L, (rfl | himm) | ⟨f, hf, rfl⟩ | ⟨level, hl, rfl⟩, hx⟩
    · exact Or.inl (Or.inl hx)
    · exact Or.inl (Or.inr ⟨L, himm, hx⟩)
    · rw [hreads.current] at hf
      rw [hfile, hserved.entries 0 f hf] at hx
      exact Or.inr ⟨0, f, hf, hx⟩
    · obtain ⟨f, hf, hx⟩ := List.mem_flatMap.1 hx
      rw [hreads.current] at hf
      rw [hfile, hserved.entries level f hf] at hx
      exact Or.inr ⟨level, f, hf, hx⟩

end Reads

end LevelDbSurf
