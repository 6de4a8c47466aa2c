import LevelDbSurf.CompactionWork
import LevelDbSurf.VersionIterators

/-!
# What the compaction loop keeps

An entry of the sorted input is dropped iff a newer one of the same user key hides it from every snapshot
that is left (`Hidden`), or it is a deletion marker with nothing to hide (`Obsolete`): `mem_kept`. The
outputs hold what is kept, in order, each with its first and last key (`doCompactionWork_spec`).
-/

namespace LevelDbSurf

open Cursors

variable {α : Type} [LinearOrder α]

/-- The sequence number of an internal key. -/
def InternalKey.sequence (k : InternalKey α) : Nat := k.tag / 256

omit [LinearOrder α] in
theorem sequence_of_parse {k : InternalKey α} {p : ParsedInternalKey α} (h : parseInternalKey k = some p) :
    p.sequence = k.sequence := by
  have htag := (parseInternalKey_some h).2
  unfold InternalKey.sequence
  rw [htag, packSequenceAndType]
  cases p.type with
  | deletion => simp [ValueType.toNat]
  | value =>
    simp only [ValueType.toNat]
    omega

theorem InternalKey.sequence_le {j k : InternalKey α} (h : j ≤ k) (hu : j.userKey = k.userKey) :
    k.sequence ≤ j.sequence := by
  rcases InternalKey.le_iff.1 h with hlt | ⟨-, htag⟩
  · exact absurd hu hlt.ne
  · exact Nat.div_le_div_right htag

/-- The user key lies in the range of the file. -/
def Covers (f : FileMetaData α) (u : α) : Prop := f.smallest.userKey ≤ u ∧ u ≤ f.largest.userKey

namespace DropState

/-! ## `IsBaseLevelForKey` -/

/-- The pointer passes files that end before the key, and finds the one that covers it. -/
theorem levelPtrLoop_spec {u : α} {files : List (FileMetaData α)} (hs : LevelSorted files) (ptr : Nat) :
    (∃ n, (levelPtrLoop u files ptr).1 = ptr + n ∧ ∀ f ∈ files.take n, f.largest.userKey < u) ∧
      ((levelPtrLoop u files ptr).2 = true ↔ ∃ f ∈ files, Covers f u) := by
  induction files generalizing ptr with
  | nil => exact ⟨⟨0, rfl, by simp⟩, by simp [levelPtrLoop]⟩
  | cons f files ih =>
    obtain ⟨hf, hs⟩ := List.pairwise_cons.1 hs
    rw [levelPtrLoop]
    split
    · rename_i hle
      refine ⟨⟨0, rfl, by simp⟩, ?_⟩
      simp only [decide_eq_true_eq, List.mem_cons, exists_eq_or_imp]
      refine ⟨fun h => Or.inl ⟨h, hle⟩, ?_⟩
      rintro (h | ⟨g, hg, hcover⟩)
      · exact h.1
      · -- all later files start after this one
        exact (f.ordered.trans (hf g hg).le |> InternalKey.userKey_le).trans hcover.1
    · rename_i hlt
      obtain ⟨⟨n, hn, hbefore⟩, hfound⟩ := ih hs (ptr + 1)
      refine ⟨⟨n + 1, by rw [hn]; omega, ?_⟩, ?_⟩
      · simp only [List.take_succ_cons, List.forall_mem_cons]
        exact ⟨not_le.1 hlt, hbefore⟩
      · rw [hfound]
        simp [Covers, hlt]

/-- The files the pointers have passed end before the user key. -/
def Passed (v : Version α) (levelPtrs : Nat → Nat) (u : α) : Prop :=
  ∀ lvl, ∀ f ∈ (v.files lvl).take (levelPtrs lvl), f.largest.userKey < u

theorem baseLevelLoop_spec {v : Version α} (hs : v.SortedLevels) {u : α} {lvls : List Nat}
    (hl : ∀ lvl ∈ lvls, 1 ≤ lvl) {levelPtrs : Nat → Nat} (hp : Passed v levelPtrs u) :
    Passed v (baseLevelLoop v u lvls levelPtrs).2 u ∧
      ((baseLevelLoop v u lvls levelPtrs).1 = true ↔ ∀ lvl ∈ lvls, ∀ f ∈ v.files lvl, ¬ Covers f u) := by
  induction lvls generalizing levelPtrs with
  | nil => exact ⟨hp, by simp [baseLevelLoop]⟩
  | cons lvl lvls ih =>
    have hsorted := hs lvl (hl lvl List.mem_cons_self)
    obtain ⟨⟨n, hn, hbefore⟩, hfound⟩ := levelPtrLoop_spec (u := u)
      (hsorted.sublist (List.drop_sublist (levelPtrs lvl) _)) (levelPtrs lvl)
    -- no file the pointer has passed covers the key
    have hcovers : (∃ f ∈ (v.files lvl).drop (levelPtrs lvl), Covers f u) ↔ ∃ f ∈ v.files lvl, Covers f u := by
      constructor
      · rintro ⟨f, hf, hcover⟩
        exact ⟨f, List.mem_of_mem_drop hf, hcover⟩
      · rintro ⟨f, hf, hcover⟩
        rw [← List.take_append_drop (levelPtrs lvl) (v.files lvl), List.mem_append] at hf
        rcases hf with hf | hf
        · exact absurd hcover.2 (not_le.2 (hp lvl f hf))
        · exact ⟨f, hf, hcover⟩
    rw [hcovers] at hfound
    have hp' : Passed v (fun l => if l = lvl then
        (levelPtrLoop u ((v.files lvl).drop (levelPtrs lvl)) (levelPtrs lvl)).1 else levelPtrs l) u := by
      intro l f hf
      by_cases he : l = lvl
      · subst he
        simp only [if_true, hn, List.take_add, List.mem_append] at hf
        exact hf.elim (hp l f) (hbefore f)
      · simp only [he, if_false] at hf
        exact hp l f hf
    rw [baseLevelLoop]
    dsimp only
    split
    · rename_i hin
      refine ⟨hp', ?_⟩
      obtain ⟨f, hf, hcover⟩ := hfound.1 hin
      simp only [Bool.false_eq_true, false_iff, not_forall, not_not]
      exact ⟨lvl, List.mem_cons_self, f, hf, hcover⟩
    · rename_i hout
      obtain ⟨hpassed, hbase⟩ := ih (fun l hl' => hl l (List.mem_cons_of_mem lvl hl')) hp'
      refine ⟨hpassed, ?_⟩
      rw [hbase, List.forall_mem_cons]
      refine (and_iff_right fun f hf hcover => ?_).symm
      exact hout (hfound.2 ⟨f, hf, hcover⟩)

/-! ## The two drop rules -/

/-- "Hidden by an newer entry for same user key". -/
def Hidden (smallestSnapshot : Nat) (input : List (InternalKey α × Bytes)) (x : InternalKey α × Bytes) : Prop :=
  ∃ y ∈ input, y.1 < x.1 ∧ y.1.userKey = x.1.userKey ∧ y.1.sequence ≤ smallestSnapshot

/-- "Therefore this deletion marker is obsolete and can be dropped". -/
def Obsolete (job : CompactionJob α) (x : InternalKey α × Bytes) : Prop :=
  (∃ p, parseInternalKey x.1 = some p ∧ p.type = .deletion) ∧ x.1.sequence ≤ job.smallestSnapshot ∧
    ∀ lvl ∈ levelsBelow job.compaction.level, ∀ f ∈ job.inputVersion.files lvl, ¬ Covers f x.1.userKey

/-- What the loop remembers of the entries `past`. -/
structure Remembers (job : CompactionJob α) (past : List (InternalKey α × Bytes)) (st : DropState α) : Prop where
  currentUserKey : st.currentUserKey = past.getLast?.map (·.1.userKey)
  lastSequence : ∀ z, past.getLast? = some z → st.lastSequenceForKey = z.1.sequence
  passed : ∀ u, (∀ y ∈ past, y.1.userKey ≤ u) → Passed job.inputVersion st.levelPtrs u

theorem remembers_nil (job : CompactionJob α) : Remembers job [] ({} : DropState α) :=
  ⟨rfl, by simp, by simp [Passed]⟩

variable {job : CompactionJob α} {past : List (InternalKey α × Bytes)} {st : DropState α}
  {x : InternalKey α × Bytes}

/-- **Rule (A).** -/
theorem Remembers.hidden_iff (h : Remembers job past st)
    (hsorted : (past ++ [x]).Pairwise fun a b => a.1 < b.1) (hss : job.smallestSnapshot < kMaxSequenceNumber) :
    (st.enter x.1.userKey).lastSequenceForKey ≤ job.smallestSnapshot ↔ Hidden job.smallestSnapshot past x := by
  obtain ⟨hpast, -, hx⟩ := List.pairwise_append.1 hsorted
  have hx : ∀ y ∈ past, y.1 < x.1 := fun y hy => hx y hy x List.mem_cons_self
  cases hlast : past.getLast? with
  | none =>
    obtain rfl := List.getLast?_eq_none_iff.1 hlast
    rw [enter, if_neg (by rw [h.currentUserKey]; simp)]
    simp [Hidden, hss]
  | some z =>
    have hz : z ∈ past := List.mem_of_getLast? hlast
    have hzmax : ∀ y ∈ past, y.1 ≤ z.1 := by
      obtain ⟨ys, rfl⟩ := List.getLast?_eq_some_iff.1 hlast
      intro y hy
      rcases List.mem_append.1 hy with hy | hy
      · exact ((List.pairwise_append.1 hpast).2.2 y hy z List.mem_cons_self).le
      · rw [List.mem_singleton.1 hy]
    by_cases hu : z.1.userKey = x.1.userKey
    · rw [enter, if_pos (by rw [h.currentUserKey, hlast, Option.map_some, hu]), h.lastSequence z hlast]
      constructor
      · exact fun hle => ⟨z, hz, hx z hz, hu, hle⟩
      · rintro ⟨y, hy, -, hyu, hle⟩
        exact (InternalKey.sequence_le (hzmax y hy) (hyu.trans hu.symm)).trans hle
    · rw [enter, if_neg (by rw [h.currentUserKey, hlast, Option.map_some]; simpa using hu)]
      refine iff_of_false (not_le.2 hss) ?_
      rintro ⟨y, hy, -, hyu, -⟩
      -- `z` lies between `y` and `x`
      exact hu (le_antisymm (InternalKey.userKey_le (hx z hz).le) (hyu ▸ InternalKey.userKey_le (hzmax y hy)))

/-- After one more entry. -/
theorem remembers_push (past : List (InternalKey α × Bytes)) {levelPtrs : Nat → Nat}
    (hp : Passed job.inputVersion levelPtrs x.1.userKey) :
    Remembers job (past ++ [x])
      { levelPtrs, currentUserKey := some x.1.userKey, lastSequenceForKey := x.1.sequence } where
  currentUserKey := by simp
  lastSequence z hz := by
    rw [List.getLast?_concat, Option.some.injEq] at hz
    rw [hz]
  passed u hu lvl f hf := lt_of_lt_of_le (hp lvl f hf) (hu x (by simp))

@[simp] theorem enter_currentUserKey (st : DropState α) (u : α) : (st.enter u).currentUserKey = some u := by
  unfold enter
  split
  · assumption
  · rfl

@[simp] theorem enter_levelPtrs (st : DropState α) (u : α) : (st.enter u).levelPtrs = st.levelPtrs := by
  unfold enter
  split <;> rfl

/-- **One entry.** -/
theorem dropEntry_spec (hs : job.inputVersion.SortedLevels) (hss : job.smallestSnapshot < kMaxSequenceNumber)
    (h : Remembers job past st) (hsorted : (past ++ [x]).Pairwise fun a b => a.1 < b.1)
    (hparse : (parseInternalKey x.1).isSome) :
    Remembers job (past ++ [x]) (st.dropEntry job x.1).2 ∧
      ((st.dropEntry job x.1).1 = true ↔ Hidden job.smallestSnapshot past x ∨ Obsolete job x) := by
  obtain ⟨p, hp⟩ := Option.isSome_iff_exists.1 hparse
  have hu := (parseInternalKey_some hp).1
  have hseq := sequence_of_parse hp
  have hpassed : Passed job.inputVersion st.levelPtrs x.1.userKey := h.passed _ fun y hy =>
    InternalKey.userKey_le ((List.pairwise_append.1 hsorted).2.2 y hy x List.mem_cons_self).le
  have hhidden := h.hidden_iff hsorted hss
  have hdeletion : (∃ p, parseInternalKey x.1 = some p ∧ p.type = .deletion) ↔ p.type = .deletion := by
    simp [hp]
  unfold dropEntry
  rw [hp]
  dsimp only
  rw [hu, hseq]
  split
  · rename_i hA
    refine ⟨?_, iff_of_true rfl (Or.inl (hhidden.1 hA))⟩
    rw [enter_currentUserKey, enter_levelPtrs]
    exact remembers_push past hpassed
  · rename_i hA
    split
    · rename_i hB
      obtain ⟨hpassed', hbase⟩ := baseLevelLoop_spec hs (u := x.1.userKey)
        (show ∀ lvl ∈ levelsBelow job.compaction.level, 1 ≤ lvl from fun lvl hl => by
          have := (List.mem_range'_1.1 hl).1
          omega) hpassed
      unfold isBaseLevelForKey
      dsimp only
      rw [enter_currentUserKey, enter_levelPtrs]
      refine ⟨remembers_push past hpassed', hbase.trans ?_⟩
      have hnot : ¬ Hidden job.smallestSnapshot past x := fun hh => hA (hhidden.2 hh)
      simp only [Obsolete, hdeletion, hB, true_and, hnot, false_or]
    · rename_i hB
      rw [enter_currentUserKey, enter_levelPtrs]
      refine ⟨remembers_push past hpassed, iff_of_false Bool.false_ne_true ?_⟩
      rintro (hh | ⟨hdel, hle, -⟩)
      · exact hA (hhidden.2 hh)
      · exact hB ⟨hdeletion.1 hdel, hle⟩

theorem kept_sublist (st : DropState α) (input : List (InternalKey α × Bytes)) :
    (kept job st input).Sublist input := by
  induction input generalizing st with
  | nil => exact List.Sublist.refl _
  | cons x input ih =>
    rw [kept]
    dsimp only
    split
    · exact (ih _).cons x
    · exact (ih _).cons_cons x

/-- What is kept of the rest of the input. -/
theorem mem_kept_of_remembers (hs : job.inputVersion.SortedLevels)
    (hss : job.smallestSnapshot < kMaxSequenceNumber) {input : List (InternalKey α × Bytes)}
    (h : Remembers job past st) (hsorted : (past ++ input).Pairwise fun a b => a.1 < b.1)
    (hparse : ∀ x ∈ input, (parseInternalKey x.1).isSome) {y : InternalKey α × Bytes} :
    y ∈ kept job st input ↔
      y ∈ input ∧ ¬ Hidden job.smallestSnapshot (past ++ input) y ∧ ¬ Obsolete job y := by
  induction input generalizing past st with
  | nil => simp [kept]
  | cons x input ih =>
    have hsplit : past ++ x :: input = (past ++ [x]) ++ input := by simp
    rw [hsplit] at hsorted
    obtain ⟨hremembers, hdrop⟩ := dropEntry_spec hs hss h (List.pairwise_append.1 hsorted).1
      (hparse x List.mem_cons_self)
    have ih := ih hremembers hsorted fun z hz => hparse z (List.mem_cons_of_mem x hz)
    -- what hides `x` comes before it
    have hhidden : Hidden job.smallestSnapshot (past ++ x :: input) x ↔ Hidden job.smallestSnapshot past x := by
      rw [hsplit]
      constructor
      · rintro ⟨z, hz, hlt, hrest⟩
        refine ⟨z, ?_, hlt, hrest⟩
        simp only [List.mem_append, List.mem_singleton] at hz
        rcases hz with (hz | rfl) | hz
        · exact hz
        · exact absurd hlt (lt_irrefl _)
        · exact absurd hlt ((List.pairwise_append.1 hsorted).2.2 x (by simp) z hz).asymm
      · rintro ⟨z, hz, hrest⟩
        exact ⟨z, by simp [hz], hrest⟩
    rw [kept]
    dsimp only
    rw [← hhidden] at hdrop
    split
    · rename_i hdropped
      rw [ih, ← hsplit, List.mem_cons]
      constructor
      · exact fun hy => ⟨Or.inr hy.1, hy.2⟩
      · rintro ⟨rfl | hy, hkept⟩
        · exact absurd (hdrop.1 hdropped) (not_or.2 hkept)
        · exact ⟨hy, hkept⟩
    · rename_i hkept
      rw [List.mem_cons, ih, ← hsplit, List.mem_cons]
      constructor
      · rintro (rfl | hy)
        · exact ⟨Or.inl rfl, not_or.1 fun h => hkept (hdrop.2 h)⟩
        · exact ⟨Or.inr hy.1, hy.2⟩
      · rintro ⟨rfl | hy, hkept'⟩
        · exact Or.inl rfl
        · exact Or.inr ⟨hy, hkept'⟩

/-- **What is kept.** -/
theorem mem_kept (hs : job.inputVersion.SortedLevels) (hss : job.smallestSnapshot < kMaxSequenceNumber)
    {input : List (InternalKey α × Bytes)} (hsorted : input.Pairwise fun a b => a.1 < b.1)
    (hparse : ∀ x ∈ input, (parseInternalKey x.1).isSome) {y : InternalKey α × Bytes} :
    y ∈ kept job {} input ↔ y ∈ input ∧ ¬ Hidden job.smallestSnapshot input y ∧ ¬ Obsolete job y :=
  mem_kept_of_remembers hs hss (remembers_nil job) hsorted hparse

end DropState

/-! ## The outputs -/

namespace CompactionWork

open DropState

variable {job : CompactionJob α}

/-- Everything added to output files so far. -/
def written (st : CompactionWork α) : List (InternalKey α × Bytes) :=
  st.outputs.flatMap (·.entries) ++ st.building.toList.flatMap (·.entries)

/-- The numbers of the output files opened so far. -/
def numbers (st : CompactionWork α) : List UInt64 :=
  st.outputs.map (·.number) ++ st.building.toList.map (·.number)

omit [LinearOrder α] in
theorem length_numbers (st : CompactionWork α) : st.numbers.length = st.opened := by
  unfold numbers opened
  cases st.building <;> simp

/-- The output is not empty, and records its first and its last key. -/
structure Recorded (out : Output α) : Prop where
  nonempty : out.entries ≠ []
  smallest : out.smallest = out.entries.head?.map (·.1)
  largest : out.largest = out.entries.getLast?.map (·.1)

/-- All outputs so far do. -/
def AllRecorded (st : CompactionWork α) : Prop :=
  (∀ out ∈ st.outputs, Recorded out) ∧ ∀ out ∈ st.building, Recorded out

omit [LinearOrder α] in
theorem Recorded.finished {out : Output α} (h : Recorded out) (fileSize : UInt64) :
    Recorded { out with fileSize } :=
  ⟨h.nonempty, h.smallest, h.largest⟩

section FinishOutput
variable (job) (st : CompactionWork α)

@[simp] theorem finishOutput_written : (st.finishOutput job).written = st.written := by
  unfold finishOutput written
  split
  · rename_i hb
    rw [hb]
  · rename_i out hb
    simp [hb]

@[simp] theorem finishOutput_numbers : (st.finishOutput job).numbers = st.numbers := by
  unfold finishOutput numbers
  split
  · rename_i hb
    rw [hb]
  · rename_i out hb
    simp [hb]

@[simp] theorem finishOutput_opened : (st.finishOutput job).opened = st.opened := by
  rw [← length_numbers, ← length_numbers, finishOutput_numbers]

@[simp] theorem finishOutput_building : (st.finishOutput job).building = none := by
  unfold finishOutput
  split
  · assumption
  · rfl

@[simp] theorem finishOutput_drop : (st.finishOutput job).drop = st.drop := by
  unfold finishOutput
  split <;> rfl

variable {st}

theorem AllRecorded.finishOutput (h : st.AllRecorded) : (st.finishOutput job).AllRecorded := by
  refine ⟨?_, by simp⟩
  unfold CompactionWork.finishOutput
  split
  · exact h.1
  · rename_i out hb
    simp only [List.forall_mem_append, List.forall_mem_singleton]
    exact ⟨h.1, (h.2 out hb).finished _⟩

end FinishOutput

omit [LinearOrder α] in
/-- The current output, opened if necessary, after one more entry. -/
theorem Recorded.add {out : Output α} (h : out.entries ≠ [] → Recorded out) (x : InternalKey α × Bytes) :
    Recorded (out.add x) where
  nonempty := by simp [Output.add]
  smallest := by
    cases hentries : out.entries with
    | nil => simp [Output.add, hentries]
    | cons y entries =>
      have hy := (h (by simp [hentries])).smallest
      simp [Output.add, hy, hentries]
  largest := by simp [Output.add]

section Step
variable {st : CompactionWork α}

/-- Adding an entry, whether or not it ends the file. -/
theorem addEntry_spec (job : CompactionJob α) (number : UInt64) (x : InternalKey α × Bytes) (h : st.AllRecorded) :
    (st.addEntry job number x).AllRecorded ∧ (st.addEntry job number x).written = st.written ++ [x] ∧
      (st.addEntry job number x).numbers = (if st.building.isSome then st.numbers else st.numbers ++ [number]) ∧
      (st.addEntry job number x).drop = st.drop := by
  have hout : (st.building.getD { number }).entries ≠ [] → Recorded (st.building.getD { number }) := by
    intro hne
    cases hb : st.building with
    | none => simp [hb] at hne
    | some out => exact h.2 out hb
  have hall : AllRecorded { st with building := some ((st.building.getD { number }).add x) } := by
    refine ⟨h.1, ?_⟩
    rintro out ⟨⟩
    exact Recorded.add hout x
  have hwritten : written { st with building := some ((st.building.getD { number }).add x) } =
      st.written ++ [x] := by
    cases hb : st.building <;> simp [written, Output.add, hb]
  have hnumbers : numbers { st with building := some ((st.building.getD { number }).add x) } =
      if st.building.isSome then st.numbers else st.numbers ++ [number] := by
    cases hb : st.building <;> simp [numbers, Output.add, hb]
  unfold addEntry
  dsimp only
  split
  · exact ⟨hall.finishOutput job, by simp [hwritten], by simp [hnumbers], by simp⟩
  · exact ⟨hall, hwritten, hnumbers, rfl⟩

/-- **Step.** -/
theorem step_spec (job : CompactionJob α) (number : UInt64) (x : InternalKey α × Bytes) (h : st.AllRecorded) :
    (st.step job number x).AllRecorded ∧
      (st.step job number x).written = st.written ++ (if (st.drop.dropEntry job x.1).1 then [] else [x]) ∧
      ((st.step job number x).numbers = st.numbers ∨ (st.step job number x).numbers = st.numbers ++ [number]) ∧
      (st.step job number x).drop = (st.drop.dropEntry job x.1).2 := by
  unfold step
  dsimp only
  generalize hcut : (if (st.stop.shouldStopBefore job x.1).1 then
    finishOutput job { st with stop := (st.stop.shouldStopBefore job x.1).2 }
    else { st with stop := (st.stop.shouldStopBefore job x.1).2 }) = cut
  have hcut' : cut.AllRecorded ∧ cut.written = st.written ∧ cut.numbers = st.numbers ∧ cut.drop = st.drop := by
    have hstop : AllRecorded { st with stop := (st.stop.shouldStopBefore job x.1).2 } := h
    rw [← hcut]
    split
    · exact ⟨hstop.finishOutput job, finishOutput_written job _, finishOutput_numbers job _, finishOutput_drop job _⟩
    · exact ⟨hstop, rfl, rfl, rfl⟩
  obtain ⟨hrecorded, hwritten, hnumbers, hdrop⟩ := hcut'
  rw [hdrop]
  split
  · exact ⟨hrecorded, by simpa [written] using hwritten, Or.inl hnumbers, rfl⟩
  · obtain ⟨h1, h2, h3, h4⟩ := addEntry_spec job number x
      (show AllRecorded { cut with drop := (st.drop.dropEntry job x.1).2 } from hrecorded)
    refine ⟨h1, by rw [h2, ← hwritten]; rfl, ?_, h4⟩
    rw [h3]
    split
    · exact Or.inl hnumbers
    · exact Or.inr (by rw [← hnumbers]; rfl)

/-- **Run.** -/
theorem run_spec (job : CompactionJob α) (newFileNumber : Nat → UInt64) (input : List (InternalKey α × Bytes)) (h : st.AllRecorded)
    (hnumbers : st.numbers = (List.range st.opened).map newFileNumber) :
    (run job newFileNumber st input).AllRecorded ∧
      (run job newFileNumber st input).written = st.written ++ kept job st.drop input ∧
      (run job newFileNumber st input).numbers =
        (List.range (run job newFileNumber st input).opened).map newFileNumber := by
  induction input generalizing st with
  | nil => exact ⟨h, by simp [run, kept], hnumbers⟩
  | cons x input ih =>
    obtain ⟨h1, h2, h3, h4⟩ := step_spec job (newFileNumber st.opened) x h
    have hnumbers' : (st.step job (newFileNumber st.opened) x).numbers =
        (List.range (st.step job (newFileNumber st.opened) x).opened).map newFileNumber := by
      have hopened := (length_numbers (st.step job (newFileNumber st.opened) x)).symm
      rw [hopened]
      rcases h3 with h3 | h3
      · rw [h3, length_numbers]
        exact hnumbers
      · rw [h3, List.length_append, length_numbers, List.length_singleton, List.range_succ, List.map_append,
          ← hnumbers]
        rfl
    obtain ⟨r1, r2, r3⟩ := ih h1 hnumbers'
    refine ⟨r1, ?_, r3⟩
    rw [show run job newFileNumber st (x :: input) = run job newFileNumber (st.step job (newFileNumber st.opened) x)
      input from rfl, r2, h2, h4, kept]
    dsimp only
    split <;> simp

end Step

end CompactionWork

variable {job : CompactionJob α}

/-- **The outputs** hold what is kept, in order; each records its first and its last key, and they are
numbered as opened. -/
theorem doCompactionWork_spec (job : CompactionJob α) (newFileNumber : Nat → UInt64) (input : List (InternalKey α × Bytes)) :
    (∀ out ∈ doCompactionWork job newFileNumber input, CompactionWork.Recorded out) ∧
      (doCompactionWork job newFileNumber input).flatMap (·.entries) = DropState.kept job {} input ∧
      (doCompactionWork job newFileNumber input).map (·.number) =
        (List.range (doCompactionWork job newFileNumber input).length).map newFileNumber := by
  obtain ⟨h1, h2, h3⟩ := CompactionWork.run_spec job newFileNumber input
    (show CompactionWork.AllRecorded {} from ⟨by simp, by simp⟩) rfl
  have hwritten := (CompactionWork.finishOutput_written job (CompactionWork.run job newFileNumber {} input)).trans h2
  have hnumbers := (CompactionWork.finishOutput_numbers job (CompactionWork.run job newFileNumber {} input)).trans h3
  rw [← CompactionWork.finishOutput_opened job] at hnumbers
  have hbuilding := CompactionWork.finishOutput_building job (CompactionWork.run job newFileNumber {} input)
  refine ⟨(h1.finishOutput job).1, ?_, ?_⟩
  · unfold doCompactionWork
    simpa [CompactionWork.written, hbuilding] using hwritten
  · unfold doCompactionWork
    simpa [CompactionWork.numbers, CompactionWork.opened, hbuilding] using hnumbers

end LevelDbSurf
