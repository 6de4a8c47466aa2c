import LevelDbSurf.FileLookup
import LevelDbSurf.FileSearch
import LevelDbSurf.DBImpl
import LevelDbSurf.OneBlockTable
import LevelDbSurf.FilterBlockContract

/-!
# Point reads with and without filters

`Version::Get` consults at most one file of a deeper level and stops at the first file that has an
entry of the key. On versions where newer entries lie in newer files and lower levels that entry is
the newest one of all (`Searchable.get_live`), and filters that never reject an added key change nothing but
the counters. `get_exact` says so of the search in words, which may not end where a level has too many files.
-/

namespace LevelDbSurf

open Cursors

variable {α : Type} [LinearOrder α]

/-! ## The files a lookup may consult -/

namespace Version

/-- The files `ForEachOverlapping` offers, in order. -/
def candidates (v : Version α) (userKey : α) (internalKey : InternalKey α) : List (Nat × FileMetaData α) :=
  (v.overlappingLevel0 userKey).map (fun f => (0, f)) ++
    (List.range' 1 (kNumLevels - 1)).filterMap fun level =>
      (v.overlappingFile userKey internalKey level).map fun f => (level, f)

theorem forEachOverlapping_eq {S : Type} (v : Version α) (userKey : α) (internalKey : InternalKey α) (arg : S)
    (func : S → Nat → FileMetaData α → S × Bool) :
    v.forEachOverlapping userKey internalKey arg func =
      (visit (fun arg c => func arg c.1 c.2) arg (v.candidates userKey internalKey)).1 := by
  have hlevel : (fun (arg : S) (level : Nat) =>
      ((v.overlappingFile userKey internalKey level).map fun f => (level, f)).elim (arg, true)
        fun c => func arg c.1 c.2) = v.visitLevel userKey internalKey func := by
    funext arg level
    unfold visitLevel
    cases v.overlappingFile userKey internalKey level <;> rfl
  rw [candidates, visit_append, visit_map, visit_filterMap, forEachOverlapping, hlevel]
  dsimp only
  split <;> rfl

theorem mem_overlappingLevel0 {v : Version α} {u : α} {f : FileMetaData α} :
    f ∈ v.overlappingLevel0 u ↔ f ∈ v.files 0 ∧ f.smallest.userKey ≤ u ∧ u ≤ f.largest.userKey := by
  unfold overlappingLevel0
  dsimp only
  rw [(List.perm_insertionSort _ _).mem_iff, List.mem_filter, Bool.and_eq_true, decide_eq_true_eq,
    decide_eq_true_eq]

theorem overlappingFile_some {v : Version α} {u : α} {k : InternalKey α} {level : Nat} {f : FileMetaData α} :
    v.overlappingFile u k level = some f ↔
      (v.files level)[findFile (v.files level) k]? = some f ∧ f.smallest.userKey ≤ u := by
  unfold overlappingFile
  cases (v.files level)[findFile (v.files level) k]? with
  | none => simp
  | some g =>
    simp only [Option.some.injEq]
    constructor
    · intro h
      split at h
      · cases h
      · rename_i hlt
        cases h
        exact ⟨rfl, not_lt.1 hlt⟩
    · rintro ⟨rfl, hle⟩
      rw [if_neg (not_lt.2 hle)]

theorem mem_candidates {v : Version α} {u : α} {k : InternalKey α} {c : Nat × FileMetaData α}
    (h : c ∈ v.candidates u k) : c.2 ∈ v.files c.1 ∧ c.1 < kNumLevels := by
  rw [candidates, List.mem_append] at h
  rcases h with h | h
  · obtain ⟨f, hf, rfl⟩ := List.mem_map.1 h
    exact ⟨(mem_overlappingLevel0.1 hf).1, Nat.succ_pos _⟩
  · obtain ⟨level, hl, hc⟩ := List.mem_filterMap.1 h
    obtain ⟨f, hf, rfl⟩ := Option.map_eq_some_iff.1 hc
    have hrange := List.mem_range'_1.1 hl
    refine ⟨List.mem_of_getElem? (overlappingFile_some.1 hf).1, ?_⟩
    unfold kNumLevels at hrange ⊢
    omega

end Version

section Exact
variable [Coding] [TableFormat] {cache : TableCache α} {v : Version α}

/-- Of every user key, the entries of `f` are newer than those of `g`. -/
def Newer (cache : TableCache α) (f g : FileMetaData α) : Prop :=
  ∀ x ∈ fileEntries cache f, ∀ y ∈ fileEntries cache g, x.1.userKey = y.1.userKey → x.1 < y.1

/-- All entries of the version, table by table. -/
def Version.tables (v : Version α) (cache : TableCache α) : List (List (InternalKey α × Bytes)) :=
  (List.range kNumLevels).flatMap fun level => (v.files level).map (fileEntries cache)

/-- What lookups rely on. Of each file: its table can be read, its keys parse, and the largest key it
records is in it. Of the levels: those from 1 on are sorted, lower ones are newer, and on level 0 higher
file numbers are. -/
structure Version.Searchable (v : Version α) (cache : TableCache α) : Prop where
  readable : v.Readable cache
  parses : ∀ level, ∀ f ∈ v.files level, ∀ x ∈ fileEntries cache f, (parseInternalKey x.1).isSome
  largest : ∀ level, ∀ f ∈ v.files level, ∃ x ∈ fileEntries cache f, x.1 = f.largest
  sortedLevels : v.SortedLevels
  levels : ∀ level level', level < level' → ∀ f ∈ v.files level, ∀ g ∈ v.files level', Newer cache f g
  level0 : (v.files 0).Pairwise fun f g => (newestFirst f g ∧ Newer cache f g) ∨ (newestFirst g f ∧ Newer cache g f)

theorem Newer.before {f g : FileMetaData α} (h : Newer cache f g) {s : Nat} {u : α}
    {x y : InternalKey α × Bytes} (hx : x ∈ fileEntries cache f) (hy : y ∈ fileEntries cache g)
    (hsx : sees s u x = true) (hsy : sees s u y = true) : Before x y :=
  Or.inl (h x hx y hy ((userKey_of_sees hsx).trans (userKey_of_sees hsy).symm))

/-- The order of the search: newer files first. -/
theorem Version.Searchable.candidates_newer (hv : v.Searchable cache) (u : α) (k : InternalKey α) :
    (v.candidates u k).Pairwise fun c c' => Newer cache c.2 c'.2 := by
  rw [Version.candidates, List.pairwise_append]
  refine ⟨?_, ?_, ?_⟩
  · -- level 0, by file number
    rw [List.pairwise_map]
    have hperm := List.perm_insertionSort (fun a b : FileMetaData α => ¬ newestFirst b a)
      ((v.files 0).filter fun f => decide (f.smallest.userKey ≤ u) && decide (u ≤ f.largest.userKey))
    have hnewer := (hperm.pairwise_iff (fun {f g} h => h.symm)).2
      (hv.level0.sublist (List.filter_sublist))
    have hsorted : (v.overlappingLevel0 u).Pairwise fun a b => ¬ newestFirst b a := by
      have htotal : Std.Total (fun a b : FileMetaData α => ¬ newestFirst b a) :=
        ⟨fun a b => by simp only [newestFirst, gt_iff_lt, UInt64.not_lt]; exact UInt64.le_total _ _⟩
      have htrans : IsTrans (FileMetaData α) fun a b => ¬ newestFirst b a :=
        ⟨fun a b c => by
          simp only [newestFirst, gt_iff_lt, UInt64.not_lt]
          exact fun h h' => UInt64.le_trans h' h⟩
      exact List.pairwise_insertionSort _ _
    refine hnewer.imp₂ (fun {f g} h hsorted => ?_) hsorted
    rcases h with ⟨-, h⟩ | ⟨hlt, -⟩
    · exact h
    · exact absurd hlt hsorted
  · -- the deeper levels, in order
    rw [List.pairwise_filterMap]
    refine (List.pairwise_lt_range' (s := 1) (n := kNumLevels - 1)).imp fun {level level'} hlt c hc c' hc' => ?_
    obtain ⟨f, hf, rfl⟩ := Option.map_eq_some_iff.1 hc
    obtain ⟨g, hg, rfl⟩ := Option.map_eq_some_iff.1 hc'
    exact hv.levels level level' hlt f (List.mem_of_getElem? (Version.overlappingFile_some.1 hf).1) g
      (List.mem_of_getElem? (Version.overlappingFile_some.1 hg).1)
  · -- level 0 before the deeper levels
    intro c hc c' hc'
    obtain ⟨f, hf, rfl⟩ := List.mem_map.1 hc
    obtain ⟨level, hl, hc'⟩ := List.mem_filterMap.1 hc'
    obtain ⟨g, hg, rfl⟩ := Option.map_eq_some_iff.1 hc'
    have hpos : 0 < level := (List.mem_range'_1.1 hl).1
    exact hv.levels 0 level hpos f (Version.mem_overlappingLevel0.1 hf).1 g
      (List.mem_of_getElem? (Version.overlappingFile_some.1 hg).1)

theorem Version.mem_tables {L : List (InternalKey α × Bytes)} :
    L ∈ v.tables cache ↔ ∃ level < kNumLevels, ∃ f ∈ v.files level, fileEntries cache f = L := by
  simp only [Version.tables, List.mem_flatMap, List.mem_range, List.mem_map]

/-- The recorded keys bound the entries of a file. -/
theorem Version.Readable.within (hr : v.Readable cache) {level : Nat} {f : FileMetaData α}
    (hf : f ∈ v.files level) {x : InternalKey α × Bytes} (hx : x ∈ fileEntries cache f) :
    f.smallest ≤ x.1 ∧ x.1 ≤ f.largest := by
  obtain ⟨t, ht⟩ := hr level f hf
  rw [ht.entries] at hx
  exact ht.within x hx

/-- **`FindFile`'s file.** If a level has an entry of `u` the snapshot sees, the one file offered has one
that is no older. -/
theorem Version.Searchable.level_covers (hv : v.Searchable cache) {level : Nat} (hl : 1 ≤ level) {s : Nat}
    {u : α} {g : FileMetaData α} (hg : g ∈ v.files level) {x : InternalKey α × Bytes}
    (hx : x ∈ fileEntries cache g) (hsees : sees s u x = true) :
    ∃ f, v.overlappingFile u (lookupKey u s) level = some f ∧
      ∃ y ∈ fileEntries cache f, sees s u y = true ∧ Before y x := by
  have hs := hv.sortedLevels level hl
  obtain ⟨hxu, hxle⟩ := (sees_iff_lookupKey (hv.parses level g hg x hx)).1 hsees
  obtain ⟨hgx, hxg⟩ := hv.readable.within hg hx
  obtain ⟨-, hbefore, hafter⟩ := findFile_brackets hs (lookupKey u s)
  -- `g` does not end before the lookup key
  have hgdrop : g ∈ (v.files level).drop (findFile (v.files level) (lookupKey u s)) := by
    rw [← List.take_append_drop (findFile (v.files level) (lookupKey u s)) (v.files level),
      List.mem_append] at hg
    rcases hg with hg | hg
    · exact absurd (hbefore g hg) (not_lt.2 (le_trans hxle hxg))
    · exact hg
  obtain ⟨f, rest, hdrop⟩ := List.exists_cons_of_ne_nil (List.ne_nil_of_mem hgdrop)
  have hfget : (v.files level)[findFile (v.files level) (lookupKey u s)]? = some f := by
    rw [← List.head?_drop, hdrop, List.head?_cons]
  have hfmem := List.mem_of_getElem? hfget
  have hle : lookupKey u s ≤ f.largest := hafter f (by rw [hdrop]; exact List.mem_cons_self)
  rw [hdrop] at hgdrop
  rcases List.mem_cons.1 hgdrop with rfl | hg'
  · -- `g` itself
    refine ⟨g, Version.overlappingFile_some.2 ⟨hfget, ?_⟩, x, hx, hsees, Or.inr rfl⟩
    rw [← hxu]
    exact InternalKey.userKey_le hgx
  · -- a file before `g`: then its largest key is one of `u`
    have hfg : f.largest < g.smallest :=
      (List.pairwise_cons.1 (hdrop ▸ hs.sublist (List.drop_sublist _ _))).1 g hg'
    have hlargestu : f.largest.userKey = u := by
      refine le_antisymm ?_ (InternalKey.userKey_le hle)
      rw [← hxu]
      exact InternalKey.userKey_le (hfg.le.trans hgx)
    obtain ⟨y, hy, hyf⟩ := hv.largest level f hfmem
    refine ⟨f, Version.overlappingFile_some.2 ⟨hfget, ?_⟩, y, hy, ?_, Or.inl ?_⟩
    · rw [← hlargestu]
      exact InternalKey.userKey_le f.ordered
    · rw [sees_iff_lookupKey (hv.parses level f hfmem y hy), hyf]
      exact ⟨hlargestu, hle⟩
    · rw [hyf]
      exact lt_of_lt_of_le hfg hgx

/-- **The first candidate that answers** has the newest entry of all tables. -/
theorem Version.Searchable.newest_eq (hv : v.Searchable cache) (s : Nat) (u : α) :
    newest s u (mergeAll (v.tables cache)) =
      (v.candidates u (lookupKey u s)).findSome? fun c => newest s u (fileEntries cache c.2) := by
  have hmerge : newest s u (mergeAll (v.tables cache)) =
      ((v.candidates u (lookupKey u s)).map fun c => fileEntries cache c.2).findSome?
        (List.find? (sees s u)) := by
    refine find?_mergeAll ?_ ?_ ?_ ?_
    · intro S hS x hx
      obtain ⟨c, hc, rfl⟩ := List.mem_map.1 hS
      obtain ⟨hfile, hlevel⟩ := Version.mem_candidates hc
      exact ⟨_, Version.mem_tables.2 ⟨c.1, hlevel, c.2, hfile, rfl⟩, hx⟩
    · intro L hL x hx hsees
      obtain ⟨level, hlevel, g, hg, rfl⟩ := Version.mem_tables.1 hL
      cases level with
      | zero =>
        -- level 0: the file itself overlaps
        obtain ⟨hgx, hxg⟩ := hv.readable.within hg hx
        have hxu := userKey_of_sees hsees
        have hover : g ∈ v.overlappingLevel0 u := by
          refine Version.mem_overlappingLevel0.2 ⟨hg, ?_, ?_⟩
          · rw [← hxu]
            exact InternalKey.userKey_le hgx
          · rw [← hxu]
            exact InternalKey.userKey_le hxg
        refine ⟨_, List.mem_map.2 ⟨(0, g), ?_, rfl⟩, x, hx, hsees, Or.inr rfl⟩
        exact List.mem_append_left _ (List.mem_map.2 ⟨g, hover, rfl⟩)
      | succ level =>
        obtain ⟨f, hf, y, hy, hysees, hyx⟩ := hv.level_covers (Nat.succ_pos level) hg hx hsees
        refine ⟨_, List.mem_map.2 ⟨(level + 1, f), ?_, rfl⟩, y, hy, hysees, hyx⟩
        refine List.mem_append_right _ (List.mem_filterMap.2 ⟨level + 1, ?_, ?_⟩)
        · refine List.mem_range'_1.2 ⟨Nat.succ_pos level, ?_⟩
          unfold kNumLevels at hlevel ⊢
          omega
        · rw [hf]
          rfl
    · intro S hS
      obtain ⟨c, hc, rfl⟩ := List.mem_map.1 hS
      obtain ⟨t, ht⟩ := hv.readable c.1 c.2 (Version.mem_candidates hc).1
      rw [ht.entries]
      exact Table.entries_sorted ht.wellFormed
    · rw [List.pairwise_map]
      refine (hv.candidates_newer u _).imp ?_
      intro c c' h x hx y hy hsx hsy
      exact h.before hx hy hsx hsy
  rw [hmerge, List.findSome?_map]
  rfl

end Exact

/-! ## `Version::Get` -/

/-- The state before the first file. -/
def GetState.start (u : α) (value : Bytes) (metrics : Option MetricsCounters) : GetState α :=
  { saver := { userKey := u, value }, metrics }

/-- Nothing has been found yet. -/
def GetState.Searching (u : α) (value : Bytes) (state : GetState α) : Prop :=
  state.saver = { userKey := u, value } ∧ state.found = false

/-- The search, for these answers of the files. -/
def Version.search (v : Version α) (answer : FileMetaData α → Option (InternalKey α × Bytes)) (u : α)
    (s : Nat) (value : Bytes) : GetState α :=
  (visit (fun state c => (state.after c.1 c.2 (answer c.2), (answer c.2).isNone))
    (GetState.start u value none) (v.candidates u (lookupKey u s))).1

theorem GetState.Searching.after {u : α} {value : Bytes} {state : GetState α} (h : state.Searching u value)
    (level : Nat) (f : FileMetaData α) : (state.after level f none).Searching u value := by
  obtain ⟨hsaver, hfound, -⟩ := state.after_saver level f none
  exact ⟨hsaver.trans h.1, by rw [hfound, h.2]; rfl⟩

/-- The counters have no part in it. -/
theorem GetState.uncounted_after (state : GetState α) (level : Nat) (f : FileMetaData α)
    (d : Option (InternalKey α × Bytes)) :
    (state.after level f d).uncounted = state.uncounted.after level f d := by
  cases d with
  | none =>
    show ({ state.charge.uncounted with
      lastFileRead := some f, lastFileReadLevel := level, s := .ok } : GetState α) = _
    rw [uncounted_charge]
    rfl
  | some d =>
    show ({ state.charge.uncounted with
      lastFileRead := some f, lastFileReadLevel := level, s := .ok
      saver := state.saver.answered d, found := state.found || (liveValue d).isSome } : GetState α) = _
    rw [uncounted_charge]
    rfl

section Get
variable [Slice α] [Coding] [TableFormat] {cache : TableCache α} {v : Version α}

omit [TableFormat] [Coding] [Slice α] in
/-- Where a search ends: at the first answer, if there is one. -/
theorem Version.search_ends (v : Version α) (answer : FileMetaData α → Option (InternalKey α × Bytes)) (u : α)
    (s : Nat) (value : Bytes) :
    ((v.candidates u (lookupKey u s)).findSome? (fun c => answer c.2) = none →
      (v.search answer u s value).Searching u value) ∧
    ∀ d, (v.candidates u (lookupKey u s)).findSome? (fun c => answer c.2) = some d →
      (v.search answer u s value).saver = Saver.answered { userKey := u, value } d ∧
        (v.search answer u s value).found = (liveValue d).isSome ∧ (v.search answer u s value).s = .ok := by
  refine visit_findSome? (Q := GetState.Searching u value)
    (P := fun d state => state.saver = Saver.answered { userKey := u, value } d ∧
      state.found = (liveValue d).isSome ∧ state.s = .ok) ?_ ?_
    (s := GetState.start u value none) ⟨rfl, rfl⟩
  · rintro ⟨level, f⟩ - state hsearching hnone
    dsimp only at hnone ⊢
    rw [hnone]
    exact ⟨rfl, hsearching.after level f⟩
  · rintro ⟨level, f⟩ - state d hsearching hd
    dsimp only at hd ⊢
    rw [hd]
    obtain ⟨hsaver, hfound, hs⟩ := state.after_saver level f (some d)
    refine ⟨rfl, ?_, ?_, hs⟩
    · rw [hsaver, hsearching.1]
      rfl
    · rw [hfound, hsearching.2]
      rfl

/-- `Get` runs the search, for the answers the lookups in the files give. -/
theorem Version.forEachOverlapping_answers (options : ReadOptions α) (u : α) (s : Nat) (value : Bytes)
    (metrics : Option MetricsCounters) {answer : FileMetaData α → Option (InternalKey α × Bytes)}
    (hget : ∀ c ∈ v.candidates u (lookupKey u s), ∀ saver : Saver α, saver.userKey = u → ∀ metrics, ∃ m,
      cache.get options c.2.number c.2.fileSize (lookupKey u s) saver saveValue metrics =
        (.ok, (answer c.2).elim saver saver.answered, m)) :
    (v.forEachOverlapping u (lookupKey u s) (GetState.start u value metrics)
        (GetState.matchFile cache options (lookupKey u s))).uncounted =
      (v.search answer u s value).uncounted := by
  rw [forEachOverlapping_eq]
  refine visit_rel (R := fun (state state' : GetState α) =>
      state.uncounted = state'.uncounted ∧ state'.Searching u value)
    (T := fun (state state' : GetState α) => state.uncounted = state'.uncounted) (fun _ _ h => h.1) ?_
    ⟨rfl, rfl, rfl⟩
  rintro ⟨level, f⟩ hc state state' ⟨heq, hsearching⟩
  dsimp only
  have hsaver : state.saver = { userKey := u, value } := (congrArg GetState.saver heq).trans hsearching.1
  obtain ⟨m, hm⟩ := hget _ hc state.saver (by rw [hsaver]) state.metrics
  obtain ⟨hafter, hgo⟩ := state.matchFile_of_get (by rw [hsaver])
    ((congrArg GetState.found heq).trans hsearching.2) hm level
  rw [GetState.uncounted_after, heq, ← GetState.uncounted_after] at hafter
  refine ⟨hgo, hafter, fun hnone => ⟨hafter, ?_⟩⟩
  rw [Option.isNone_iff_eq_none] at hnone
  rw [hnone]
  exact hsearching.after level f

/-- If no filter rejects a key its table has, the answers are the files' newest entries. -/
theorem Version.Searchable.forEachOverlapping_search (hv : v.Searchable cache) (options : ReadOptions α)
    (u : α) (s : Nat) (value : Bytes) (metrics : Option MetricsCounters)
    (hfilter : ∀ level, ∀ f ∈ v.files level, ∀ t, cache.findTable f.number f.fileSize = .ok t →
      ∀ e ∈ t.indexBlock, t.filterRejects e.2 (lookupKey u s) = true → ∀ x ∈ t.blockEntries e.2, x.1.userKey ≠ u) :
    (v.forEachOverlapping u (lookupKey u s) (GetState.start u value metrics)
        (GetState.matchFile cache options (lookupKey u s))).uncounted =
      (v.search (fun f => newest s u (fileEntries cache f)) u s value).uncounted := by
  refine Version.forEachOverlapping_answers options u s value metrics ?_
  rintro ⟨level, f⟩ hc saver rfl metrics
  have hfile := (Version.mem_candidates hc).1
  obtain ⟨t, ht⟩ := hv.readable level f hfile
  dsimp only
  rw [ht.entries]
  exact TableCache.get_eq ht (by rw [← ht.entries]; exact hv.parses level f hfile) s saver
    (fun e he => hfilter level f hfile t ht.found e (List.mem_of_getElem? he)) options metrics

omit [Slice α] in
/-- The search ends at the newest entry of all tables, if there is one. -/
theorem Version.Searchable.search_newest (hv : v.Searchable cache) (u : α) (s : Nat) (value : Bytes) :
    (newest s u (mergeAll (v.tables cache)) = none →
      (v.search (fun f => newest s u (fileEntries cache f)) u s value).Searching u value) ∧
    ∀ d, newest s u (mergeAll (v.tables cache)) = some d →
      (v.search (fun f => newest s u (fileEntries cache f)) u s value).saver =
          Saver.answered { userKey := u, value } d ∧
        (v.search (fun f => newest s u (fileEntries cache f)) u s value).found = (liveValue d).isSome ∧
        (v.search (fun f => newest s u (fileEntries cache f)) u s value).s = .ok := by
  rw [hv.newest_eq]
  exact v.search_ends (fun f => newest s u (fileEntries cache f)) u s value

/-- The cache of a database without a filter policy: no table has a filter. -/
def TableCache.withoutFilters (cache : TableCache α) : TableCache α :=
  { cache with options := { cache.options with filterPolicy := none } }

omit [LinearOrder α] [Slice α] in
/-- It finds the same tables, less their filters. -/
theorem TableCache.findTable_withoutFilters (cache : TableCache α) (fileNumber fileSize : UInt64) :
    cache.withoutFilters.findTable fileNumber fileSize =
      (cache.findTable fileNumber fileSize).map fun t =>
        { t with options := cache.withoutFilters.options, filter := none } := by
  have hopen : ∀ file : RandomAccessFile α, Table.openTable cache.withoutFilters.options file fileSize =
      (Table.openTable cache.options file fileSize).map fun t =>
        { t with options := cache.withoutFilters.options, filter := none } := by
    intro file
    unfold Table.openTable withoutFilters
    split
    · rfl
    · dsimp only
      cases file.readFooter fileSize with
      | error s => rfl
      | ok footer =>
        dsimp only
        cases file.readBlock cache.options.paranoidChecks footer.indexHandle with
        | error s => rfl
        | ok contents => rfl
  have hfile : cache.withoutFilters.openFile = cache.openFile := rfl
  have hold : cache.withoutFilters.openOldFile = cache.openOldFile := rfl
  unfold findTable
  rw [hfile, hold]
  cases cache.openFile fileNumber with
  | ok file => exact hopen file
  | error s =>
    dsimp only
    cases cache.openOldFile fileNumber with
    | ok file => exact hopen file
    | error _ => rfl

omit [Slice α] in
theorem fileEntries_withoutFilters (f : FileMetaData α) :
    fileEntries cache.withoutFilters f = fileEntries cache f := by
  unfold fileEntries
  rw [TableCache.findTable_withoutFilters]
  cases cache.findTable f.number f.fileSize with
  | error s => rfl
  | ok t => rfl

omit [Slice α] in
theorem Serves.withoutFilters {f : FileMetaData α} {t : Table α} (h : Serves cache f t) :
    Serves cache.withoutFilters f { t with options := cache.withoutFilters.options, filter := none } where
  found := by
    rw [TableCache.findTable_withoutFilters, h.found]
    rfl
  wellFormed := ⟨h.wellFormed.readable, h.wellFormed.sorted, h.wellFormed.separates, h.wellFormed.separator⟩
  within := h.within

omit [Slice α] in
theorem Version.Searchable.withoutFilters (hv : v.Searchable cache) : v.Searchable cache.withoutFilters where
  readable level f hf := by
    obtain ⟨t, ht⟩ := hv.readable level f hf
    exact ⟨_, ht.withoutFilters⟩
  parses level f hf := by
    rw [fileEntries_withoutFilters]
    exact hv.parses level f hf
  largest level f hf := by
    rw [fileEntries_withoutFilters]
    exact hv.largest level f hf
  sortedLevels := hv.sortedLevels
  levels level level' hlt f hf g hg := by
    unfold Newer
    rw [fileEntries_withoutFilters, fileEntries_withoutFilters]
    exact hv.levels level level' hlt f hf g hg
  level0 := hv.level0.imp fun {f g} h => by
    unfold Newer
    rw [fileEntries_withoutFilters, fileEntries_withoutFilters]
    exact h

/-- `Get` in terms of the search. -/
theorem Version.Searchable.get_search (hv : v.Searchable cache) (options : ReadOptions α)
    (u : α) (s : Nat) (value : Bytes) (metrics : Option MetricsCounters)
    (hfilter : ∀ level, ∀ f ∈ v.files level, ∀ t, cache.findTable f.number f.fileSize = .ok t →
      ∀ e ∈ t.indexBlock, t.filterRejects e.2 (lookupKey u s) = true → ∀ x ∈ t.blockEntries e.2, x.1.userKey ≠ u) :
    ∃ m, v.get cache options u s value metrics =
      { status := if (v.search (fun f => newest s u (fileEntries cache f)) u s value).found then
          (v.search (fun f => newest s u (fileEntries cache f)) u s value).s else .notFound ""
        value := (v.search (fun f => newest s u (fileEntries cache f)) u s value).saver.value
        stats := (v.search (fun f => newest s u (fileEntries cache f)) u s value).stats
        metrics := m } := by
  have hsearch := hv.forEachOverlapping_search options u s value metrics hfilter
  refine ⟨(v.get cache options u s value metrics).metrics, ?_⟩
  have hfound := congrArg GetState.found hsearch
  have hs := congrArg GetState.s hsearch
  have hsaver := congrArg GetState.saver hsearch
  have hstats := congrArg GetState.stats hsearch
  simp only [GetState.uncounted] at hfound hs hsaver hstats
  rw [← hfound, ← hs, ← hsaver, ← hstats]
  rfl

/-- The newest entry over all tables, with filters as without. -/
theorem Version.Searchable.get_live (hv : v.Searchable cache) (rawOptions : Options)
    (hP : ∀ P, rawOptions.filterPolicy = some P → P.AcceptsAdded) (hcache : cache.options = sanitizeOptions rawOptions)
    (hwritten : ∀ level, ∀ f ∈ v.files level, f.FilterWritten cache rawOptions.filterPolicy)
    (options : ReadOptions α) (u : α) (s : Nat) (value : Bytes) (metrics metrics' : Option MetricsCounters) :
    ((v.get cache options u s value metrics).status, (v.get cache options u s value metrics).value) =
      (match live s u (mergeAll (v.tables cache)) with
        | some w => (.ok, w)
        | none => (.notFound "", value)) ∧
    (v.get cache options u s value metrics).status =
      (v.get cache.withoutFilters options u s value metrics').status ∧
    (v.get cache options u s value metrics).value =
      (v.get cache.withoutFilters options u s value metrics').value ∧
    (v.get cache options u s value metrics).stats =
      (v.get cache.withoutFilters options u s value metrics').stats := by
  have hpolicy : cache.options.filterPolicy = rawOptions.filterPolicy.map internalFilterPolicy := by
    rw [hcache]
    rfl
  have hnopolicy : cache.withoutFilters.options.filterPolicy = Option.map internalFilterPolicy none := rfl
  obtain ⟨m, hget⟩ := hv.get_search options u s value metrics fun level f hf t ht =>
    filterRejects_absent hpolicy hP (hwritten level f hf) ht
  obtain ⟨m', hget'⟩ := hv.withoutFilters.get_search options u s value metrics' fun level f hf t ht =>
    filterRejects_absent hnopolicy (by rintro P ⟨⟩) (by rintro t ht P ⟨⟩) ht
  simp only [fileEntries_withoutFilters] at hget'
  rw [hget, hget']
  refine ⟨?_, rfl, rfl, rfl⟩
  obtain ⟨hnone, hsome⟩ := hv.search_newest u s value
  unfold live
  cases hd : newest s u (mergeAll (v.tables cache)) with
  | none =>
    obtain ⟨hsaver, hfound⟩ := hnone hd
    simp only [hsaver, hfound]
    rfl
  | some d =>
    obtain ⟨hsaver, hfound, hs⟩ := hsome d hd
    simp only [hsaver, hfound, hs, Saver.answered, Option.bind_some]
    cases liveValue d with
    | none => rfl
    | some w => rfl

/-- **Point reads are exact.** In a database opened with a policy that never rejects an added key, or
with none, whatever tables have of its filters: `Get` returns, unless there are more files than it can count, with
the value of the newest entry of the user key not after the sequence number over all tables, and with `NotFound`
if that is a deletion or there is none; status, value and seek statistics are those of the database without
filters. -/
theorem get_exact (rawOptions : Options) (hP : ∀ P, rawOptions.filterPolicy = some P → P.AcceptsAdded)
    (cache : TableCache α) (hcache : cache.options = sanitizeOptions rawOptions) (v : Version α)
    (hv : v.Searchable cache) (hwords : v.FitsWords)
    (hwritten : ∀ level, ∀ f ∈ v.files level, f.FilterWritten cache rawOptions.filterPolicy)
    (options : ReadOptions α) (u : α) (s : Nat) (value : Bytes) (metrics metrics' : Option MetricsCounters) :
    ∃ result result', v.get32 cache options u s value metrics = some result ∧
      v.get32 cache.withoutFilters options u s value metrics' = some result' ∧
      (result.status, result.value) =
        (match live s u (mergeAll (v.tables cache)) with
          | some w => (.ok, w)
          | none => (.notFound "", value)) ∧
      result.status = result'.status ∧ result.value = result'.value ∧ result.stats = result'.stats :=
  ⟨_, _, hwords.get32_eq cache options u s value metrics,
    hwords.get32_eq cache.withoutFilters options u s value metrics',
    hv.get_live rawOptions hP hcache hwritten options u s value metrics metrics'⟩

end Get

/-! ### A file with a filter above one without -/

namespace SampleLookup

/-- `a` written at sequence 1 and deleted at 2, `b` written at 3. -/
def oldA : InternalKey Bytes × Bytes := (⟨[97], packSequenceAndType 1 .value⟩, [1])
def deletedA : InternalKey Bytes × Bytes := (⟨[97], packSequenceAndType 2 .deletion⟩, [])
def entryB : InternalKey Bytes × Bytes := (⟨[98], packSequenceAndType 3 .value⟩, [2])

def policy : FilterPolicy := bytePolicy false

def rawOptions : Options := { filterPolicy := some policy }

def fileMarker : FileMetaData Bytes := ⟨7, 500, deletedA.1, deletedA.1, by decide⟩
def fileOld : FileMetaData Bytes := ⟨8, 500, oldA.1, entryB.1, by decide⟩

def version : Version Bytes where
  files
    | 0 => [fileMarker]
    | 1 => [fileOld]
    | _ => []

variable [Coding]

def files : UInt64 → Option (RandomAccessFile Bytes)
  | 7 => some (OneBlock.file deletedA.1 [deletedA] (OneBlock.filterEntry (internalFilterPolicy policy))
      (blockOf [97]))
  | 8 => some (OneBlock.file entryB.1 [oldA, entryB] [] [])
  | _ => none

def cache : TableCache Bytes := OneBlock.cache (sanitizeOptions rawOptions) files

theorem serves_marker :
    letI := smallHandles
    Serves cache fileMarker (OneBlock.table (sanitizeOptions rawOptions) deletedA.1 [deletedA]
      (OneBlock.filterEntry (internalFilterPolicy policy)) (blockOf [97])) ∧
    (OneBlock.table (sanitizeOptions rawOptions) deletedA.1 [deletedA]
      (OneBlock.filterEntry (internalFilterPolicy policy)) (blockOf [97])).entries = [deletedA] :=
  OneBlock.serves rfl (by decide) (by decide) (by decide) (by decide)

theorem serves_old :
    letI := smallHandles
    Serves cache fileOld (OneBlock.table (sanitizeOptions rawOptions) entryB.1 [oldA, entryB] [] []) ∧
    (OneBlock.table (sanitizeOptions rawOptions) entryB.1 [oldA, entryB] [] []).entries = [oldA, entryB] :=
  OneBlock.serves rfl (by decide) (by decide) (by decide) (by decide)

theorem entries_marker :
    letI := smallHandles
    fileEntries cache fileMarker = [deletedA] := by
  let _ := smallHandles
  rw [serves_marker.1.entries, serves_marker.2]

theorem entries_old :
    letI := smallHandles
    fileEntries cache fileOld = [oldA, entryB] := by
  let _ := smallHandles
  rw [serves_old.1.entries, serves_old.2]

omit [Coding] in
/-- The two files of the version. -/
theorem mem_files {level : Nat} {f : FileMetaData Bytes} (h : f ∈ version.files level) :
    (level = 0 ∧ f = fileMarker) ∨ (level = 1 ∧ f = fileOld) := by
  match level with
  | 0 => exact Or.inl ⟨rfl, List.mem_singleton.1 h⟩
  | 1 => exact Or.inr ⟨rfl, List.mem_singleton.1 h⟩
  | _ + 2 => cases h

theorem searchable :
    letI := smallHandles
    version.Searchable cache := by
  let _ := smallHandles
  constructor
  · intro level f hf
    rcases mem_files hf with ⟨rfl, rfl⟩ | ⟨rfl, rfl⟩
    · exact ⟨_, serves_marker.1⟩
    · exact ⟨_, serves_old.1⟩
  · intro level f hf
    rcases mem_files hf with ⟨rfl, rfl⟩ | ⟨rfl, rfl⟩
    · rw [entries_marker]
      decide
    · rw [entries_old]
      decide
  · intro level f hf
    rcases mem_files hf with ⟨rfl, rfl⟩ | ⟨rfl, rfl⟩
    · rw [entries_marker]
      exact ⟨deletedA, List.mem_singleton.2 rfl, rfl⟩
    · rw [entries_old]
      exact ⟨entryB, by simp, rfl⟩
  · intro level h
    match level with
    | 1 => exact List.pairwise_singleton _ _
    | _ + 2 => exact List.Pairwise.nil
  · intro level level' hlt f hf g hg
    rcases mem_files hf with ⟨rfl, rfl⟩ | ⟨rfl, rfl⟩
    · rcases mem_files hg with ⟨rfl, rfl⟩ | ⟨rfl, rfl⟩
      · omega
      · unfold Newer
        rw [entries_marker, entries_old]
        decide
    · rcases mem_files hg with ⟨rfl, rfl⟩ | ⟨rfl, rfl⟩
      · omega
      · omega
  · exact List.pairwise_singleton _ _

omit [Coding] in
theorem acceptsAdded : policy.AcceptsAdded := by
  intro keys k hk
  simp only [policy, bytePolicy, Bool.and_false, Bool.false_or, List.contains_iff_mem]
  exact List.mem_map.2 ⟨k, hk, rfl⟩

theorem filterWritten :
    letI := smallHandles
    ∀ level, ∀ f ∈ version.files level, f.FilterWritten cache rawOptions.filterPolicy := by
  let _ := smallHandles
  intro level f hf t ht P hP
  cases hP
  rcases mem_files hf with ⟨rfl, rfl⟩ | ⟨rfl, rfl⟩
  · rw [serves_marker.1.found] at ht
    cases ht
    refine ⟨⟨_, rfl, ?_⟩, OneBlock.offsets⟩
    intro value hvalue
    cases List.mem_singleton.1 hvalue
    refine ⟨⟨1, 0⟩, { data := blockOf [97] }, rfl, rfl, Or.inl ⟨[[97]], rfl, by decide, ?_⟩⟩
    rw [serves_marker.2]
    decide
  · rw [serves_old.1.found] at ht
    cases ht
    exact ⟨⟨_, rfl, by rintro value ⟨⟩⟩, OneBlock.offsets⟩

theorem tables_eq :
    letI := smallHandles
    version.tables cache = [[deletedA], [oldA, entryB]] := by
  let _ := smallHandles
  show [fileEntries cache fileMarker, fileEntries cache fileOld] = _
  rw [entries_marker, entries_old]

end SampleLookup

theorem get_exact_sample :
    letI := littleEndian
    letI := smallHandles
    ∃ result, SampleLookup.version.get32 SampleLookup.cache {} [97] 1 [] none = some result ∧
      (result.status, result.value) = (.ok, [1]) := by
  let _ := littleEndian
  let _ := smallHandles
  have hwords : SampleLookup.version.FitsWords := by
    refine ⟨by decide, fun level _ => ?_⟩
    match level with
    | 0 => decide
    | 1 => decide
    | _ + 2 => exact Nat.zero_le _
  obtain ⟨result, -, hresult, -, hget, -⟩ := get_exact SampleLookup.rawOptions
    (by rintro P ⟨⟩; exact SampleLookup.acceptsAdded) SampleLookup.cache rfl SampleLookup.version
    SampleLookup.searchable hwords SampleLookup.filterWritten {} [97] 1 [] none none
  rw [SampleLookup.tables_eq] at hget
  exact ⟨result, hresult, hget⟩

/-! ### A level with one file too many -/

namespace SampleCount

def version : Version Bytes where
  files level := if level = 1 then files else []

theorem version_files (level : Nat) : version.files level = if level = 1 then files else [] := rfl

/-- Each file holds the version that it is named after. -/
def cache : TableCache Bytes := OneBlock.cache (sanitizeOptions {}) fun number =>
  some (OneBlock.file (keyOf number) [(keyOf number, [])] [] [])

theorem serves [Coding] (number : UInt64) :
    letI := smallHandles
    Serves cache (file number) (OneBlock.table (sanitizeOptions {}) (keyOf number) [(keyOf number, [])] [] []) ∧
      (OneBlock.table (sanitizeOptions {}) (keyOf number) [(keyOf number, [])] [] []).entries = [(keyOf number, [])] := by
  refine OneBlock.serves rfl (show ¬ (500 : UInt64) < 48 by decide) (List.pairwise_singleton _ _) ?_ ?_
  · rintro x hx
    rw [List.mem_singleton.1 hx]
  · rintro x hx
    rw [List.mem_singleton.1 hx]
    exact ⟨le_refl _, le_refl _⟩

theorem mem_files {level : Nat} {f : FileMetaData Bytes} (h : f ∈ version.files level) :
    level = 1 ∧ ∃ number, f = file number := by
  rw [version_files] at h
  by_cases hl : level = 1
  · rw [if_pos hl, files] at h
    obtain ⟨number, -, rfl⟩ := List.mem_map.1 h
    exact ⟨hl, _, rfl⟩
  · rw [if_neg hl] at h
    cases h

theorem searchable [Coding] :
    letI := smallHandles
    version.Searchable cache := by
  let _ := smallHandles
  have hentries : ∀ number, fileEntries cache (file number) = [(keyOf number, [])] := fun number => by
    rw [(serves number).1.entries, (serves number).2]
  constructor
  · intro level f hf
    obtain ⟨-, number, rfl⟩ := mem_files hf
    exact ⟨_, (serves number).1⟩
  · intro level f hf x hx
    obtain ⟨-, number, rfl⟩ := mem_files hf
    rw [hentries] at hx
    rw [List.mem_singleton.1 hx]
    exact parseInternalKey_lookupKey _ _
  · intro level f hf
    obtain ⟨-, number, rfl⟩ := mem_files hf
    rw [hentries]
    exact ⟨_, List.mem_singleton.2 rfl, rfl⟩
  · intro level _
    rw [version_files]
    by_cases hl : level = 1
    · rw [if_pos hl]
      exact sorted
    · rw [if_neg hl]
      exact List.Pairwise.nil
  · intro level level' hlt f hf g hg
    have hl := (mem_files hf).1
    have hl' := (mem_files hg).1
    omega
  · exact List.Pairwise.nil

theorem filterWritten [Coding] :
    letI := smallHandles
    ∀ level, ∀ f ∈ version.files level, f.FilterWritten cache none := by
  intro level f hf t ht P hP
  cases hP

end SampleCount

/-- The first level with files has `2^31 + 1`, all before `c`: the lookup of `c` does not return. -/
theorem get_exact_too_many :
    ¬ ∀ [Coding] [TableFormat] (cache : TableCache Bytes), cache.options = sanitizeOptions {} →
      ∀ v : Version Bytes, v.Searchable cache →
      (∀ level, ∀ f ∈ v.files level, f.FilterWritten cache none) → ∀ (u : Bytes) (s : Nat) (value : Bytes),
      ∃ result, v.get32 cache {} u s value none = some result ∧ (result.status, result.value) =
        (match live s u (mergeAll (v.tables cache)) with
          | some w => (.ok, w)
          | none => (.notFound "", value)) := by
  intro h
  let _ := littleEndian
  let _ := smallHandles
  obtain ⟨result, hresult, -⟩ := h SampleCount.cache rfl SampleCount.version SampleCount.searchable
    SampleCount.filterWritten [99] 1 []
  have hsearch : SampleCount.version.overlappingFile32 [99] (lookupKey [99] 1) 1 = none := by
    rw [Version.overlappingFile32, SampleCount.version_files, if_pos rfl, SampleCount.past_all, Option.map_none]
  have hlevel0 : SampleCount.version.files 0 = [] := by rw [SampleCount.version_files, if_neg (by decide)]
  have hlevels : List.range' 1 (kNumLevels - 1) = 1 :: List.range' 2 (kNumLevels - 2) := rfl
  have hnone : SampleCount.version.get32 SampleCount.cache {} [99] 1 [] none = none := by
    rw [Version.get32, Version.forEachOverlapping32_level0 hlevel0, hlevels, Version.visitLevels32, hsearch]
    rfl
  rw [hnone] at hresult
  cases hresult

end LevelDbSurf
