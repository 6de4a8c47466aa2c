import LevelDbSurf.PointReads
import LevelDbSurf.CompactionStart
import LevelDbSurf.BackgroundWork
import LevelDbSurf.Lib.Double

/-!
# Seek charges, and the compactions they lead to (`version_set.cc:41-51`, `420-469`, `1049-1085`, `1275-1327`)

| here | there |
| --- | --- |
| `maxBytesForLevel`, `levelScore` | `MaxBytesForLevel` (`:41`), the `score` of `VersionSet::Finalize` (`:1054`) |
| `initialSeeks`, `VersionEdit.allowSeeks` | `allowed_seeks` in `Builder::Apply` (`:681`) |
| `Version.updateStats`  | `Version::UpdateStats` (`:420`) |
| `SampleState.matchFile`, `Version.recordReadSample` | `State::Match`, `Version::RecordReadSample` (`:433`) |
| `ChargedVersions.step` | `DBImpl::Get` (`db_impl.cc:1163`), `DBImpl::RecordReadSample` (`:1184`), new versions |

`PickCompaction` asserts that the level of a size compaction has a next one; for a seek compaction nothing checks it.
It holds because a file is charged only once a second one is visited, and files of deeper levels are visited one a
level, in order: so the charged file lies on level 0 or above the level of another one (`candidates_levels`).
-/

namespace LevelDbSurf

open Cursors Doubles

variable {α : Type} [LinearOrder α]

/-! ## Scores -/

/-- `config::kL0_CompactionTrigger` (`db/dbformat.h`). -/
def kL0_CompactionTrigger : Nat := 4

/-- `MaxBytesForLevel`: "Result for both level-0 and level-1", and ten times as much for each level more. -/
def maxBytesForLevel : Nat → ℚ
  | 0 => 10 * 1048576
  | 1 => 10 * 1048576
  | level + 2 => maxBytesForLevel (level + 1) * 10

theorem one_le_maxBytesForLevel (level : Nat) : 1 ≤ maxBytesForLevel level := by
  fun_induction maxBytesForLevel level with
  | case1 => norm_num
  | case2 => norm_num
  | case3 level ih => linarith

/-- The `score` of a level. -/
def levelScore (level : Nat) (files : List (FileMetaData α)) : ℚ :=
  if level = 0 then Number.nearest (Number.nearest files.length / kL0_CompactionTrigger)
  else
    let levelBytes := (totalFileSize files).toUInt64
    Number.nearest (Number.nearest levelBytes.toNat / maxBytesForLevel level)

/-- A count or a size of 64 bits, divided by what is at least one: neither rounding overflows. -/
theorem round_div {n : Nat} (hn : n < 2 ^ 64) {limit : ℚ} (hlimit : 1 ≤ limit) :
    Number.round n = .finite (Number.nearest n) ∧
      Number.round (Number.nearest n / limit) = .finite (Number.nearest (Number.nearest n / limit)) := by
  have habs : |(n : ℚ)| ≤ 2 ^ 64 := by
    rw [abs_of_nonneg (Nat.cast_nonneg n)]
    exact_mod_cast hn.le
  have hpos : |limit| = limit := abs_of_pos (by linarith)
  refine ⟨Number.round_eq_nearest (habs.trans (by norm_num)), Number.round_eq_nearest ?_⟩
  calc |Number.nearest n / limit| = |Number.nearest n| / limit := by rw [abs_div, hpos]
    _ ≤ |Number.nearest n| := div_le_self (abs_nonneg _) hlimit
    _ ≤ 2 * |(n : ℚ)| + 1 := Number.abs_nearest_le _
    _ ≤ 2 ^ 100 := by linarith

/-- The score is what the doubles of the source come to. -/
theorem levelScore_round (level : Nat) {files : List (FileMetaData α)} (hsize : files.length < 2 ^ 64) :
    ∃ x, Number.round (if level = 0 then files.length else (totalFileSize files).toUInt64.toNat : Nat) = .finite x ∧
      Number.round (x / if level = 0 then (kL0_CompactionTrigger : ℚ) else maxBytesForLevel level) =
        .finite (levelScore level files) := by
  by_cases h0 : level = 0
  · have htrigger : (1 : ℚ) ≤ kL0_CompactionTrigger := by norm_num [kL0_CompactionTrigger]
    simp only [levelScore, h0, if_true]
    exact ⟨_, round_div hsize htrigger⟩
  · simp only [levelScore, h0, if_false]
    exact ⟨_, round_div (totalFileSize files).toUInt64.toNat_lt (one_le_maxBytesForLevel level)⟩

@[simp] theorem levelScore_nil (level : Nat) : levelScore level ([] : List (FileMetaData α)) = 0 := by
  have hbytes : (totalFileSize ([] : List (FileMetaData α))).toUInt64.toNat = 0 := rfl
  simp [levelScore, hbytes]

/-- The best level is one that `Finalize` has scored, or there is none. -/
theorem bestLevel_scored (score : Nat → List (FileMetaData α) → ℚ) (v : Version α) :
    (bestLevel score v).2 = -1 ∨ (bestLevel score v).1 + 1 < kNumLevels ∧
      (bestLevel score v).2 = score (bestLevel score v).1 (v.files (bestLevel score v).1) := by
  unfold bestLevel
  refine List.foldlRecOn (motive := fun (best : Nat × ℚ) => best.2 = -1 ∨ best.1 + 1 < kNumLevels ∧
    best.2 = score best.1 (v.files best.1)) _ _ (Or.inl rfl) fun best hbest level hlevel => ?_
  split
  · have hlt := List.mem_range.1 hlevel
    exact Or.inr ⟨Nat.add_lt_of_lt_sub hlt, rfl⟩
  · exact hbest

/-! ## Charges -/

/-- `allowed_seeks` of each file object: those of a level are made when an edit adds them to it. -/
abbrev AllowedSeeks (α : Type) [LinearOrder α] := Nat × FileMetaData α → Int32

/-- "We are a little conservative and allow approximately one seek for every 16KB of data". -/
def initialSeeks (f : FileMetaData α) : Int32 :=
  let seeks := (f.fileSize / 16384).toUInt32.toInt32
  if seeks < 100 then 100 else seeks

/-- What `Apply` sets in the files it makes. -/
def VersionEdit.allowSeeks (allowedSeeks : AllowedSeeks α) (edit : VersionEdit α) : AllowedSeeks α :=
  edit.newFiles.foldl (fun allowedSeeks file => Function.update allowedSeeks file (initialSeeks file.2)) allowedSeeks

/-- What charging a version leaves: the version, the counters, and the answer, "true if a new compaction may
need to be triggered". -/
structure Charged (α : Type) [LinearOrder α] where
  version : Version α
  allowedSeeks : AllowedSeeks α
  mayCompact : Bool

/-- `UpdateStats`. -/
def Version.updateStats (v : Version α) (allowedSeeks : AllowedSeeks α) (stats : GetStats α) : Charged α :=
  match stats.seekFile with
  | none => ⟨v, allowedSeeks, false⟩
  | some f =>
    let file := (stats.seekFileLevel.toNat, f)
    let allowedSeeks := Function.update allowedSeeks file (allowedSeeks file - 1)
    if allowedSeeks file ≤ 0 ∧ v.fileToCompact = none then
      ⟨{ v with fileToCompact := some f, fileToCompactLevel := stats.seekFileLevel.toNat }, allowedSeeks, true⟩
    else ⟨v, allowedSeeks, false⟩

/-- The `State` of `RecordReadSample`: "Holds first matching file". -/
structure SampleState (α : Type) [LinearOrder α] where
  stats : GetStats α := {}
  matches_ : Nat := 0

/-- `Match`. -/
def SampleState.matchFile (state : SampleState α) (level : Nat) (f : FileMetaData α) : SampleState α × Bool :=
  let state := { state with matches_ := state.matches_ + 1 }
  let state := if state.matches_ = 1 then
    { state with stats := { seekFile := some f, seekFileLevel := level } } else state
  (state, decide (state.matches_ < 2))  -- "We can stop iterating once we have a second match"

/-- `RecordReadSample`. -/
def Version.recordReadSample (v : Version α) (allowedSeeks : AllowedSeeks α) (internalKey : InternalKey α) :
    Charged α :=
  match parseInternalKey internalKey with
  | none => ⟨v, allowedSeeks, false⟩
  | some ikey =>
    let state := v.forEachOverlapping ikey.userKey internalKey ({} : SampleState α) SampleState.matchFile
    -- "Must have at least two matches since we want to merge across files"
    if state.matches_ ≥ 2 then v.updateStats allowedSeeks state.stats
    else ⟨v, allowedSeeks, false⟩

/-! ## Which file is charged -/

/-- Levels in the order of the visits: those of level 0 first, and no deeper level twice. -/
theorem Version.candidates_levels (v : Version α) (u : α) (k : InternalKey α) :
    (v.candidates u k).Pairwise fun c c' => c.1 = 0 ∨ c.1 < c'.1 := by
  rw [candidates, List.pairwise_append]
  refine ⟨?_, ?_, ?_⟩
  · refine List.pairwise_map.2 (List.pairwise_of_forall fun f g => Or.inl rfl)
  · refine List.pairwise_filterMap.2 ((List.pairwise_lt_range' (s := 1) (n := kNumLevels - 1)).imp ?_)
    intro level level' hlt c hc c' hc'
    obtain ⟨f, -, rfl⟩ := Option.map_eq_some_iff.1 hc
    obtain ⟨g, -, rfl⟩ := Option.map_eq_some_iff.1 hc'
    exact Or.inr hlt
  · intro c hc c' _
    obtain ⟨f, -, rfl⟩ := List.mem_map.1 hc
    exact Or.inl rfl

/-- The charge for a read that has visited these files: "more than one seek", "charge the 1st file". -/
def chargeOf : List (Nat × FileMetaData α) → GetStats α
  | c :: _ :: _ => { seekFile := some c.2, seekFileLevel := c.1 }
  | _ => {}

/-- A charge to a file of the version, on a level that has a next one. -/
def Version.Chargeable (v : Version α) (stats : GetStats α) : Prop :=
  ∀ f, stats.seekFile = some f →
    f ∈ v.files stats.seekFileLevel.toNat ∧ stats.seekFileLevel.toNat + 1 < kNumLevels

theorem Version.chargeable_chargeOf {v : Version α} {u : α} {k : InternalKey α}
    {visited : List (Nat × FileMetaData α)} (h : visited <+: v.candidates u k) :
    v.Chargeable (chargeOf visited) := by
  intro f hf
  match visited, h, hf with
  | c :: c' :: visited, h, rfl =>
    have hmem := mem_candidates (h.subset List.mem_cons_self)
    have hnext := (mem_candidates (h.subset (List.mem_cons_of_mem c List.mem_cons_self))).2
    refine ⟨hmem.1, ?_⟩
    have hlevels := (v.candidates_levels u k).sublist h.sublist
    rcases List.rel_of_pairwise_cons hlevels List.mem_cons_self with h0 | hlt
    · show c.1 + 1 < kNumLevels
      rw [h0]
      decide
    · exact Nat.lt_of_le_of_lt hlt hnext

/-- What the state of `Get` knows of the files it has visited. -/
structure GetState.Knows (visited : List (Nat × FileMetaData α)) (state : GetState α) : Prop where
  stats : state.stats = chargeOf visited
  lastFileRead : state.lastFileRead = visited.getLast?.map (·.2)
  lastFileReadLevel : ∀ c, visited.getLast? = some c → state.lastFileReadLevel = c.1

/-- The first file is charged when there is a second one, and stays charged. -/
theorem GetState.Knows.charge {visited : List (Nat × FileMetaData α)} {state : GetState α}
    (h : state.Knows visited) (c : Nat × FileMetaData α) : state.charge.stats = chargeOf (visited ++ [c]) := by
  obtain ⟨hstats, hlast, hlevel⟩ := h
  unfold GetState.charge
  match visited, hstats, hlast, hlevel with
  | [], hstats, hlast, _ =>
    rw [hstats, hlast]
    exact hstats
  | [c'], hstats, hlast, hlevel =>
    rw [hstats, hlast, hlevel c' rfl]
    rfl
  | c' :: c'' :: visited, hstats, _, _ =>
    rw [hstats]
    exact hstats

section Get
variable [Slice α] [Coding] [TableFormat]

theorem GetState.matchFile_visits (cache : TableCache α) (options : ReadOptions α) (ikey : InternalKey α)
    (state : GetState α) (level : Nat) (f : FileMetaData α) :
    (matchFile cache options ikey state level f).1.stats = state.charge.stats ∧
      (matchFile cache options ikey state level f).1.lastFileRead = some f ∧
      (matchFile cache options ikey state level f).1.lastFileReadLevel = level := by
  unfold matchFile
  dsimp only
  split
  · exact ⟨rfl, rfl, rfl⟩
  · split <;> exact ⟨rfl, rfl, rfl⟩

theorem GetState.Knows.matchFile {visited : List (Nat × FileMetaData α)} {state : GetState α}
    (h : state.Knows visited) (cache : TableCache α) (options : ReadOptions α) (ikey : InternalKey α)
    (c : Nat × FileMetaData α) :
    (GetState.matchFile cache options ikey state c.1 c.2).1.Knows (visited ++ [c]) := by
  obtain ⟨hstats, hlast, hlevel⟩ := matchFile_visits cache options ikey state c.1 c.2
  refine ⟨hstats.trans (h.charge c), ?_, fun c' hc' => ?_⟩
  · rw [hlast, List.getLast?_append]
    rfl
  · rw [List.getLast?_append] at hc'
    cases hc'
    exact hlevel

/-- **What `Get` charges.** -/
theorem Version.get_chargeable (v : Version α) (cache : TableCache α) (options : ReadOptions α) (userKey : α)
    (sequence : Nat) (value : Bytes) (metrics : Option MetricsCounters) :
    v.Chargeable (v.get cache options userKey sequence value metrics).stats := by
  unfold get
  dsimp only
  rw [forEachOverlapping_eq]
  obtain ⟨visited, hvisited, hknows⟩ := visit_visited
    (fun arg c => GetState.matchFile cache options (lookupKey userKey sequence) arg c.1 c.2)
    (v.candidates userKey (lookupKey userKey sequence)) (I := GetState.Knows)
    (s := { saver := { userKey, value }, metrics })
    (fun _ c _ _ h => h.matchFile cache options (lookupKey userKey sequence) c) ⟨rfl, rfl, by rintro c ⟨⟩⟩
  rw [hknows.stats]
  exact chargeable_chargeOf hvisited

end Get

/-- What the state of `RecordReadSample` knows of the files it has visited. -/
structure SampleState.Knows (visited : List (Nat × FileMetaData α)) (state : SampleState α) : Prop where
  matches_ : state.matches_ = visited.length
  stats : ∀ c, visited.head? = some c → state.stats = { seekFile := some c.2, seekFileLevel := c.1 }

theorem SampleState.Knows.matchFile {visited : List (Nat × FileMetaData α)} {state : SampleState α}
    (h : state.Knows visited) (c : Nat × FileMetaData α) :
    (SampleState.matchFile state c.1 c.2).1.Knows (visited ++ [c]) := by
  obtain ⟨hmatches, hstats⟩ := h
  unfold SampleState.matchFile
  cases visited with
  | nil =>
    have h1 : state.matches_ + 1 = 1 := by rw [hmatches]; rfl
    simp only [h1, if_true]
    refine ⟨rfl, ?_⟩
    rintro c' ⟨⟩
    rfl
  | cons c' visited =>
    have h1 : state.matches_ + 1 ≠ 1 := by simp [hmatches]
    simp only [h1, if_false]
    refine ⟨?_, hstats⟩
    rw [List.length_append, ← hmatches]
    rfl

/-- **What `RecordReadSample` charges.** -/
theorem Version.sample_chargeable (v : Version α) (userKey : α) (internalKey : InternalKey α)
    (h : (v.forEachOverlapping userKey internalKey ({} : SampleState α) SampleState.matchFile).matches_ ≥ 2) :
    v.Chargeable (v.forEachOverlapping userKey internalKey ({} : SampleState α) SampleState.matchFile).stats := by
  rw [forEachOverlapping_eq] at h ⊢
  obtain ⟨visited, hvisited, hknows⟩ := visit_visited
    (fun (arg : SampleState α) (c : Nat × FileMetaData α) => SampleState.matchFile arg c.1 c.2)
    (v.candidates userKey internalKey) (I := SampleState.Knows) (s := {}) (fun _ c _ _ h => h.matchFile c)
    ⟨rfl, by rintro c ⟨⟩⟩
  have hcharge := chargeable_chargeOf hvisited
  rw [hknows.matches_] at h
  match visited, h, hknows.stats, hcharge with
  | c :: c' :: visited, _, hstats, hcharge =>
    rw [hstats c rfl]
    exact hcharge

/-! ## Versions that can be picked from -/

/-- What `PickCompaction` relies on: the marked file is on its level, a level that is due has a file, and
both levels have a next one. -/
structure Version.Pickable (v : Version α) : Prop where
  seek : ∀ f, v.fileToCompact = some f →
    f ∈ v.files v.fileToCompactLevel ∧ v.fileToCompactLevel + 1 < kNumLevels
  size : v.compactionScore ≥ 1 → v.compactionLevel + 1 < kNumLevels ∧ v.files v.compactionLevel ≠ []

/-- `new Version`. -/
theorem Version.pickable_noFiles : (LoggedVersionSet.noFiles : Version α).Pickable :=
  ⟨by rintro f ⟨⟩, fun h => absurd h (by norm_num [LoggedVersionSet.noFiles])⟩

/-- `Finalize`: a level that is due is not empty, since an empty one scores nothing. -/
theorem Version.pickable_finalize {v : Version α} (h : v.fileToCompact = none) :
    (finalize levelScore v).Pickable := by
  refine ⟨fun f hf => ?_, fun hdue => ?_⟩
  · have hnone : (finalize levelScore v).fileToCompact = none := h
    rw [hnone] at hf
    cases hf
  · change (bestLevel levelScore v).2 ≥ 1 at hdue
    change (bestLevel levelScore v).1 + 1 < kNumLevels ∧ v.files (bestLevel levelScore v).1 ≠ []
    rcases bestLevel_scored levelScore v with hnone | ⟨hlevel, hscore⟩
    · rw [hnone] at hdue
      norm_num at hdue
    · refine ⟨hlevel, fun hempty => ?_⟩
      rw [hscore, hempty, levelScore_nil] at hdue
      norm_num at hdue

/-- `UpdateStats`. -/
theorem Version.Pickable.updateStats {v : Version α} (h : v.Pickable) (allowedSeeks : AllowedSeeks α)
    {stats : GetStats α} (hstats : v.Chargeable stats) : (v.updateStats allowedSeeks stats).version.Pickable := by
  unfold Version.updateStats
  split
  · exact h
  · rename_i f hf
    dsimp only
    split
    · refine ⟨?_, h.size⟩
      rintro g ⟨⟩
      exact hstats f hf
    · exact h

/-- A charge is a step that flushes and compactions have to live with: `Database.chargeSeek`, or none. -/
theorem Version.updateStats_chargeSeek (db : Database α) (allowedSeeks : AllowedSeeks α) {stats : GetStats α}
    (hstats : db.vset.current.Chargeable stats) :
    (db.vset.current.updateStats allowedSeeks stats).version = db.vset.current ∨
      ∃ level f, db.chargeSeek level f = some { db with vset := { db.vset with
        current := (db.vset.current.updateStats allowedSeeks stats).version } } := by
  unfold Version.updateStats
  split
  · exact Or.inl rfl
  · rename_i f hf
    dsimp only
    split
    · rename_i hmark
      exact Or.inr ⟨_, f, if_pos ⟨(hstats f hf).1, hmark.2⟩⟩
    · exact Or.inl rfl

/-! ## Runs -/

/-- The version that a builder over `base` saves, with its scores. -/
def newVersion (base : Version α) (edits : List (VersionEdit α)) : Version α :=
  finalize levelScore (edits.foldl Builder.apply { base }).saveTo

theorem pickable_newVersion (base : Version α) (edits : List (VersionEdit α)) : (newVersion base edits).Pickable :=
  Version.pickable_finalize rfl

/-- `LogAndApply` and `Recover` install such versions. -/
theorem LoggedVersionSet.logAndApply_current (vset : LoggedVersionSet α) (edit : VersionEdit α) :
    (vset.logAndApply levelScore edit).current = newVersion vset.current [vset.completeEdit edit] := rfl

/-- The versions of a version set, those that reads may still hold included, the newest of them first. -/
structure ChargedVersions (α : Type) [LinearOrder α] where
  current : Version α := LoggedVersionSet.noFiles
  older : List (Version α) := []
  allowedSeeks : AllowedSeeks α := fun _ => 0

/-- What can happen next. A `Get` reads the version that was current when it started, and charges it when it is done:
`age` is the number of versions installed in between. `install` is `LogAndApply` with one edit, or `Recover` with all
of a descriptor. -/
inductive ChargeEvent (α : Type) [LinearOrder α] [Slice α] where
  | get (age : Nat) (cache : TableCache α) (options : ReadOptions α) (userKey : α) (sequence : Nat) (value : Bytes)
      (metrics : Option MetricsCounters)
  | recordReadSample (internalKey : InternalKey α)
  | install (edits : List (VersionEdit α))

namespace ChargedVersions

/-- Charges the version of this age. -/
def charge (s : ChargedVersions α) (age : Nat) (f : Version α → Charged α) : ChargedVersions α :=
  match age with
  | 0 => { s with current := (f s.current).version, allowedSeeks := (f s.current).allowedSeeks }
  | age + 1 =>
    match s.older[age]? with
    | none => s
    | some v => { s with older := s.older.set age (f v).version, allowedSeeks := (f v).allowedSeeks }

/-- `LogAndApply`, `Recover`. -/
def install (s : ChargedVersions α) (edits : List (VersionEdit α)) : ChargedVersions α :=
  { current := newVersion s.current edits
    older := s.current :: s.older
    allowedSeeks := edits.foldl VersionEdit.allowSeeks s.allowedSeeks }

section Step
variable [Slice α] [Coding] [TableFormat]

def step (s : ChargedVersions α) : ChargeEvent α → ChargedVersions α
  | .get age cache options userKey sequence value metrics =>
    s.charge age fun v => v.updateStats s.allowedSeeks (v.get cache options userKey sequence value metrics).stats
  | .recordReadSample internalKey => s.charge 0 fun v => v.recordReadSample s.allowedSeeks internalKey
  | .install edits => s.install edits

def run (s : ChargedVersions α) (events : List (ChargeEvent α)) : ChargedVersions α := events.foldl step s

end Step

/-- All versions can be picked from. -/
def Pickable (s : ChargedVersions α) : Prop := ∀ v ∈ s.current :: s.older, v.Pickable

theorem pickable_start : ({} : ChargedVersions α).Pickable := by
  intro v hv
  rw [List.mem_singleton.1 hv]
  exact Version.pickable_noFiles

theorem Pickable.charge {s : ChargedVersions α} (h : s.Pickable) (age : Nat) {f : Version α → Charged α}
    (hf : ∀ v, v.Pickable → (f v).version.Pickable) : (s.charge age f).Pickable := by
  obtain ⟨hcurrent, holder⟩ := List.forall_mem_cons.1 h
  unfold ChargedVersions.charge
  split
  · exact List.forall_mem_cons.2 ⟨hf _ hcurrent, holder⟩
  · rename_i age
    cases hv : s.older[age]? with
    | none => exact h
    | some v =>
      refine List.forall_mem_cons.2 ⟨hcurrent, fun v' hv' => ?_⟩
      rcases List.mem_or_eq_of_mem_set hv' with hold | rfl
      · exact holder v' hold
      · exact hf v (holder v (List.mem_of_getElem? hv))

section Step
variable [Slice α] [Coding] [TableFormat]

/-- **Step.** -/
theorem Pickable.step {s : ChargedVersions α} (h : s.Pickable) (event : ChargeEvent α) :
    (s.step event).Pickable := by
  cases event with
  | get age cache options userKey sequence value metrics =>
    exact h.charge age fun v hv =>
      hv.updateStats _ (v.get_chargeable cache options userKey sequence value metrics)
  | recordReadSample internalKey =>
    refine h.charge 0 fun v hv => ?_
    unfold Version.recordReadSample
    split
    · exact hv
    · dsimp only
      split
      · rename_i hmatches
        exact hv.updateStats _ (v.sample_chargeable _ _ hmatches)
      · exact hv
  | install edits => exact List.forall_mem_cons.2 ⟨pickable_newVersion _ _, h⟩

/-- **Run.** -/
theorem Pickable.run {s : ChargedVersions α} (h : s.Pickable) (events : List (ChargeEvent α)) :
    (s.run events).Pickable := by
  induction events generalizing s with
  | nil => exact h
  | cons event events ih => exact ih (h.step event)

/-- What setting up a compaction asks of the marked file holds in every run. -/
theorem run_seekFileKnown (events : List (ChargeEvent α)) :
    VersionSet.SeekFileKnown (ChargedVersions.run {} events).current :=
  fun f hf => ((pickable_start.run events _ List.mem_cons_self).seek f hf).1

end Step

end ChargedVersions

/-! ## Picks -/

/-- Inputs that are files of the version, on two levels that exist. -/
structure Addresses (v : Version α) (level : Nat) (inputs0 inputs1 : List (FileMetaData α)) : Prop where
  next : level + 1 < kNumLevels
  nonempty : inputs0 ≠ []
  inputs0 : ∀ f ∈ inputs0, f ∈ v.files level
  inputs1 : ∀ f ∈ inputs1, f ∈ v.files (level + 1)

/-- Boundary files are files of the level. -/
theorem mem_of_addBoundaryInputs {levelFiles inputs : List (FileMetaData α)}
    (h : ∀ f ∈ inputs, f ∈ levelFiles) : ∀ f ∈ addBoundaryInputs levelFiles inputs, f ∈ levelFiles := by
  unfold addBoundaryInputs
  cases findLargestKey inputs with
  | none => exact h
  | some k =>
    dsimp only
    fun_induction addBoundaryLoop levelFiles k inputs with
    | case1 k inputs b hfound ih =>
      refine ih fun f hf => ?_
      rcases List.mem_append.1 hf with hf | hf
      · exact h f hf
      · rw [List.mem_singleton.1 hf]
        exact (findSmallestBoundaryFile_some hfound).1
    | case2 k inputs _ => exact h

namespace VersionSet

variable {vset : VersionSet α}

theorem mem_of_overlapping_addBoundary {level : Nat} {begin_ end_ : Option (InternalKey α)}
    {inputs : List (FileMetaData α)} (h : vset.current.getOverlappingInputs level begin_ end_ = some inputs) :
    ∀ f ∈ addBoundaryInputs (vset.current.files level) inputs, f ∈ vset.current.files level :=
  mem_of_addBoundaryInputs fun _ hf => (Version.getOverlappingInputs_some h).subset hf

theorem firstInputs_addresses {c : Compaction α} {i : OtherInputs α} (h : vset.firstInputs c = some i)
    (hc : Addresses vset.current c.level c.inputs0 []) : Addresses vset.current c.level i.inputs0 i.inputs1 := by
  simp only [firstInputs, Option.bind_eq_bind, Option.bind_eq_some_iff] at h
  obtain ⟨range, -, inputs1, hoverlap, all, -, hi⟩ := h
  cases hi
  obtain ⟨f, hf⟩ := List.exists_mem_of_ne_nil _ hc.nonempty
  exact ⟨hc.next, List.ne_nil_of_mem (subset_addBoundaryInputs _ _ f hf), mem_of_addBoundaryInputs hc.inputs0,
    mem_of_overlapping_addBoundary hoverlap⟩

theorem growInputs_addresses {level : Nat} {i i' : OtherInputs α} (h : vset.growInputs level i = some i')
    (hi : Addresses vset.current level i.inputs0 i.inputs1) : Addresses vset.current level i'.inputs0 i'.inputs1 := by
  obtain rfl | ⟨overlapping0, overlapping1, newStart, newLimit, hgrown⟩ := growInputs_cases h
  · exact hi
  · have hne := List.ne_nil_of_length_pos (Nat.zero_lt_of_lt hgrown.longer)
    rw [hgrown.inputs0] at hne
    rw [hgrown.inputs0, hgrown.inputs1]
    exact ⟨hi.next, hne, mem_of_overlapping_addBoundary hgrown.selected0,
      mem_of_overlapping_addBoundary hgrown.selected1⟩

theorem setupOtherInputs_addresses {c : Compaction α} (hc : Addresses vset.current c.level c.inputs0 []) :
    ∃ c' vset', vset.setupOtherInputs c = some (c', vset') ∧ c'.level = c.level ∧
      Addresses vset.current c'.level c'.inputs0 c'.inputs1 := by
  obtain ⟨c', vset', hsetup⟩ := vset.setupOtherInputs_isSome hc.next hc.nonempty
  refine ⟨c', vset', hsetup, ?_⟩
  simp only [setupOtherInputs, Option.bind_eq_bind, Option.bind_eq_some_iff] at hsetup
  obtain ⟨i, hfirst, i', hgrow, grandparents, -, h⟩ := hsetup
  have haddresses := growInputs_addresses hgrow (firstInputs_addresses hfirst hc)
  cases h
  exact ⟨rfl, haddresses⟩

theorem firstFileAfter_isSome {level : Nat} (h : vset.current.files level ≠ []) :
    ∃ f, vset.firstFileAfter level = some f := by
  unfold firstFileAfter
  split
  · exact ⟨_, rfl⟩
  · exact ⟨_, List.getElem?_eq_getElem (List.length_pos_of_ne_nil h)⟩

/-- Neither the assertion nor the access to the first file of the level fails. -/
theorem compactionStart_addresses (h : vset.current.Pickable) :
    vset.compactionStart = some none ∨ ∃ level f, vset.compactionStart = some (some (level, f)) ∧
      level + 1 < kNumLevels ∧ f ∈ vset.current.files level := by
  unfold compactionStart
  split
  · rename_i hdue
    obtain ⟨hlevel, hne⟩ := h.size hdue
    obtain ⟨f, hf⟩ := firstFileAfter_isSome hne
    refine Or.inr ⟨_, f, ?_, hlevel, firstFileAfter_mem hf⟩
    simp [hlevel, hf]
  · split
    · rename_i f hf
      exact Or.inr ⟨_, f, rfl, (h.seek f hf).2, (h.seek f hf).1⟩
    · exact Or.inl rfl

/-- The picked file overlaps itself, so the assertion on level 0 does not fail. -/
theorem pickedInputs_addresses {level : Nat} {f : FileMetaData α} (hlevel : level + 1 < kNumLevels)
    (hf : f ∈ vset.current.files level) :
    ∃ inputs0, vset.pickedInputs level f = some inputs0 ∧ Addresses vset.current level inputs0 [] := by
  unfold pickedInputs
  split
  · rename_i h0
    subst h0
    have hrange : getRange [f] = some (f.smallest, f.largest) := rfl
    have hoverlap := Version.getOverlappingInputs_of_lt vset.current (Nat.lt_of_succ_lt hlevel)
      (some f.smallest) (some f.largest)
    have hne : overlappingInputsLoop 0 (vset.current.files 0) (some f.smallest.userKey)
        (some f.largest.userKey) ≠ [] :=
      List.ne_nil_of_mem (mem_overlappingInputsLoop hf (FileMetaData.overlapsRange_self (le_refl _) (le_refl _)))
    have hsub := Version.getOverlappingInputs_some hoverlap
    refine ⟨_, ?_, hlevel, hne, fun g hg => hsub.subset hg, by rintro g ⟨⟩⟩
    simp [hrange, hoverlap, hne, guard]
  · exact ⟨[f], rfl, hlevel, List.cons_ne_nil _ _, by simpa using hf, by rintro g ⟨⟩⟩

/-- **`PickCompaction`**, for a version that can be picked from. -/
theorem pickCompaction_of_pickable (h : vset.current.Pickable) :
    vset.pickCompaction = some none ∨ ∃ c vset', vset.pickCompaction = some (some (c, vset')) ∧
      Addresses vset.current c.level c.inputs0 c.inputs1 := by
  unfold pickCompaction
  rcases compactionStart_addresses h with hstart | ⟨level, f, hstart, hlevel, hf⟩
  · exact Or.inl (by rw [hstart]; rfl)
  · obtain ⟨inputs0, hpicked, hinputs0⟩ := pickedInputs_addresses hlevel hf
    obtain ⟨c, vset', hsetup, -, haddresses⟩ := setupOtherInputs_addresses (c := { level, inputs0 }) hinputs0
    refine Or.inr ⟨c, vset', ?_, haddresses⟩
    simp only [hstart, hpicked, hsetup, Option.bind_eq_bind, Option.bind_some, Option.pure_def]

end VersionSet

/-- **Every picked compaction addresses existing levels and files.** After any reads, samples and installed versions,
and whatever the compact pointers are, `PickCompaction` answers that nothing is due or a compaction whose inputs are
files of the current version on its level and the next one; and a file that reads have marked is on its level, which
is not the last one. -/
theorem pickCompaction_addresses [Slice α] [Coding] [TableFormat] (events : List (ChargeEvent α))
    (options : Options) (tableCache : TableCache α) (compactPointer : Nat → Option (InternalKey α)) :
    let current := (ChargedVersions.run {} events).current
    let vset : VersionSet α := { options, tableCache, current, compactPointer }
    (vset.pickCompaction = some none ∨ ∃ c vset', vset.pickCompaction = some (some (c, vset')) ∧
      Addresses current c.level c.inputs0 c.inputs1) ∧
    ∀ f, current.fileToCompact = some f →
      f ∈ current.files current.fileToCompactLevel ∧ current.fileToCompactLevel + 1 < kNumLevels := by
  have h := (ChargedVersions.pickable_start.run events) _ List.mem_cons_self
  exact ⟨VersionSet.pickCompaction_of_pickable h, h.seek⟩

end LevelDbSurf
