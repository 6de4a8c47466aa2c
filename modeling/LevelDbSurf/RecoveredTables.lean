import LevelDbSurf.DescriptorRecords

/-!
# What recovery makes of the log files

The loop of `RecoverLogFile` puts the entries of the log files into tables of level 0, in order, and those that come
last may stay in a memtable (`Recovering.Sound`). Each of the tables is newer than all before it, and than the tables
of the version, so one after the other they could be flushed into the version (`Recovering.Sound.writeLevel0Table`).
`RecoverLogFile` fails on no file that `Write` has written.
-/

namespace LevelDbSurf

open Cursors Versions

variable {α : Type} [LinearOrder α]

@[simp] theorem added_addFile (edit : VersionEdit α) (l : Nat) (f : FileMetaData α) (level : Nat) :
    (edit.addFile l f).added level = edit.added level ++ if level = l then [f] else [] := by
  unfold VersionEdit.addFile VersionEdit.added
  rw [List.filter_append, List.map_append]
  by_cases hl : level = l
  · subst hl
    simp
  · have hl' : ¬ l = level := fun h => hl h.symm
    simp [hl, hl']

/-- Only the files of the base count. -/
theorem Builder.saveTo_files_congr {v w : Version α} (h : v.files = w.files) (edit : VersionEdit α) :
    ((Builder.apply { base := v } edit).saveTo).files = ((Builder.apply { base := w } edit).saveTo).files := by
  funext level
  unfold Builder.saveTo
  dsimp only
  rw [Builder.apply_base, Builder.apply_base, Builder.apply_levels, Builder.apply_levels, h]

/-- **A table for level 0**, newer than all others, can be put into a version. -/
theorem ValidVersion.addTable {contents contents' : UInt64 → List (InternalKey α × Bytes)} {w : Version α}
    (hw : ValidVersion contents w) (f₀ : FileMetaData α)
    (hcontents : ∀ level, ∀ f ∈ w.files level, contents' f.number = contents f.number)
    (htable : TableOf (contents' f₀.number) f₀) (hnumber : ∀ level, ∀ f ∈ w.files level, f.number < f₀.number)
    (hnewer : ∀ level, ∀ f ∈ w.files level, ∀ x ∈ contents' f₀.number, ∀ y ∈ contents f.number,
      y.1.sequence < x.1.sequence)
    (hsequences : ∀ x ∈ contents' f₀.number, ∀ y ∈ contents' f₀.number, x.1.sequence = y.1.sequence → x.1 = y.1) :
    ∃ w' : Version α, ValidVersion contents' w' ∧
      ∀ level f, f ∈ w'.files level ↔ (level = 0 ∧ f = f₀) ∨ f ∈ w.files level := by
  obtain ⟨hfiled, hmem⟩ := Builder.saveTo_apply hw.filed (VersionEdit.addFile {} 0 f₀)
    (fun level => by
      rw [added_addFile]
      by_cases hl : level = 0 <;> simp [hl, VersionEdit.added])
    (fun level g hg => by
      rw [added_addFile] at hg
      by_cases hl : level = 0
      · rw [if_pos hl] at hg
        obtain rfl : g = f₀ := by simpa [VersionEdit.added] using hg
        rintro ⟨f, hf, hn⟩
        exact absurd (hn ▸ hnumber level f hf) (UInt64.lt_irrefl _)
      · simp [hl, VersionEdit.added] at hg)
  have hmem' : ∀ level f, f ∈ ((Builder.apply { base := w } (VersionEdit.addFile {} 0 f₀)).saveTo).files level ↔
      (level = 0 ∧ f = f₀) ∨ f ∈ w.files level := by
    intro level f
    by_cases hl : level < kNumLevels
    · rw [hmem level hl f, added_addFile]
      by_cases h0 : level = 0 <;> simp [h0, VersionEdit.added, VersionEdit.addFile, VersionEdit.deleted]
    · rw [hfiled.none_beyond level (not_lt.1 hl), hw.filed.none_beyond level (not_lt.1 hl)]
      have h0 : level ≠ 0 := by
        rintro rfl
        exact hl (by decide)
      simp [h0]
  exact ⟨_, hw.flush hfiled hmem' hcontents htable hnumber hnewer hsequences fun hl => absurd rfl hl, hmem'⟩

/-- What is there before the log files are read: a valid version, its tables, and the numbers in use; `save` is whether
a new descriptor is to be written anyway. -/
structure Recovering.Base (α : Type) [LinearOrder α] where
  version : Version α
  contents : UInt64 → List (InternalKey α × Bytes)
  tables : List UInt64
  nextFileNumber : Nat
  save : Bool
  valid : ValidVersion contents version
  used : ∀ level, ∀ f ∈ version.files level, f.number.toNat < nextFileNumber

namespace Recovering

/-- The entry is in a table of the version. -/
def Base.InTables (b : Base α) (y : InternalKey α × Bytes) : Prop :=
  ∃ level, ∃ f ∈ b.version.files level, y ∈ b.contents f.number

/-- The entries of the log files: in order, and newer than the tables. -/
structure Base.Extends (b : Base α) (L : List (InternalKey α × Bytes)) : Prop where
  order : L.Pairwise fun x y => x.1.sequence < y.1.sequence
  newer : ∀ y, b.InTables y → ∀ x ∈ L, y.1.sequence < x.1.sequence
  inFormat : ∀ x ∈ L, x.1.InFormat

theorem Base.Extends.initial {b : Base α} {L more : List (InternalKey α × Bytes)} (h : b.Extends (L ++ more)) :
    b.Extends L :=
  ⟨(List.pairwise_append.1 h.order).1, fun y hy x hx => h.newer y hy x (List.mem_append_left _ hx),
    fun x hx => h.inFormat x (List.mem_append_left _ hx)⟩

/-- The new tables hold the entries `L`, and could have been flushed into the version one after the other. -/
structure Sound (b : Base α) (L : List (InternalKey α × Bytes)) (st : Recovering α) : Prop where
  version : ∃ w : Version α, ValidVersion st.contents w ∧
    ∀ level f, f ∈ w.files level ↔ (level = 0 ∧ f ∈ st.edit.added 0) ∨ f ∈ b.version.files level
  added : ∀ level, level ≠ 0 → st.edit.added level = []
  once : (st.edit.added 0).Pairwise fun f g => f.number ≠ g.number
  numbers : ∀ f ∈ st.edit.added 0, b.nextFileNumber ≤ f.number.toNat ∧ f.number.toNat < st.nextFileNumber
  contents : ∀ n : UInt64, n.toNat < b.nextFileNumber → st.contents n = b.contents n
  edit : st.edit.deletedFiles = [] ∧ st.edit.comparator = none
  entries : ∀ x, (∃ f ∈ st.edit.added 0, x ∈ st.contents f.number) ↔ x ∈ L
  largest : ∀ f ∈ st.edit.added 0, ∃ x ∈ st.contents f.number, x.1 = f.largest
  tables : (∀ f ∈ st.edit.added 0, f.number ∈ st.tables) ∧ ∀ n ∈ b.tables, n ∈ st.tables
  next : b.nextFileNumber ≤ st.nextFileNumber
  saved : b.save = true → st.saveManifest = true
  unsaved : st.saveManifest = false → L = []

section Tables
variable {b : Base α} {L : List (InternalKey α × Bytes)} {st : Recovering α} {env : Environment α}

/-- No number that is given out next is in use. -/
theorem Sound.number_lt (h : Sound b L st) {w : Version α}
    (hmem : ∀ level f, f ∈ w.files level ↔ (level = 0 ∧ f ∈ st.edit.added 0) ∨ f ∈ b.version.files level)
    {level : Nat} {f : FileMetaData α} (hf : f ∈ w.files level) : f.number.toNat < st.nextFileNumber := by
  rcases (hmem level f).1 hf with ⟨-, hf⟩ | hf
  · exact (h.numbers f hf).2
  · exact (b.used level f hf).trans_le h.next

/-- **A table of level 0.** -/
theorem Sound.writeLevel0Table (h : Sound b L st) (hlt : st.nextFileNumber < 2 ^ 64)
    {mem : List (InternalKey α × Bytes)} (hext : b.Extends (L ++ mem)) :
    Sound b (L ++ mem) (st.writeLevel0Table env mem) := by
  obtain ⟨w, hvalid, hmem⟩ := h.version
  have hnumber : (UInt64.ofNat st.nextFileNumber).toNat = st.nextFileNumber := UInt64.toNat_ofNat_of_lt' hlt
  have horder := hext.order
  obtain ⟨-, hmemOrder, hafter⟩ := List.pairwise_append.1 horder
  have hsorted := sorted_of_sequences hmemOrder
  have hmerge : ∀ {x}, x ∈ mergeAll [mem] ↔ x ∈ mem := by
    intro x
    simpa using (mergeAll_perm [mem]).mem_iff (a := x)
  unfold Recovering.writeLevel0Table
  dsimp only
  -- only the new table is written
  generalize hc : (fun n => if n = UInt64.ofNat st.nextFileNumber then mergeAll [mem] else st.contents n) = contents'
  have hself : contents' (UInt64.ofNat st.nextFileNumber) = mergeAll [mem] := by
    rw [← hc]
    exact if_pos rfl
  have hold : ∀ n : UInt64, n.toNat < st.nextFileNumber → contents' n = st.contents n := by
    intro n hn
    rw [← hc]
    refine if_neg ?_
    rintro rfl
    rw [hnumber] at hn
    exact lt_irrefl _ hn
  have holdw : ∀ level, ∀ f ∈ w.files level, contents' f.number = st.contents f.number :=
    fun level f hf => hold f.number (h.number_lt hmem hf)
  have holda : ∀ f ∈ st.edit.added 0, contents' f.number = st.contents f.number :=
    fun f hf => hold f.number (h.numbers f hf).2
  have holdb : ∀ n : UInt64, n.toNat < b.nextFileNumber → contents' n = b.contents n :=
    fun n hn => (hold n (hn.trans_le h.next)).trans (h.contents n hn)
  cases hbuilt : buildTable (UInt64.ofNat st.nextFileNumber) (env.fileSize (mergeAll [mem])) (mergeAll [mem]) with
  | none =>
    dsimp only
    -- no entries, no file
    have hnil : mem = [] := by
      have hnone := buildTable_none hsorted hbuilt
      exact List.eq_nil_iff_forall_not_mem.2 fun x hx => by
        have := hmerge.2 hx
        rw [hnone] at this
        cases this
    rw [hnil, List.append_nil]
    refine ⟨⟨w, hvalid.congr rfl holdw, hmem⟩, h.added, h.once,
      fun f hf => ⟨(h.numbers f hf).1, (h.numbers f hf).2.trans (Nat.lt_succ_self _)⟩, holdb, h.edit, fun x => ?_,
      fun f hf => ?_, h.tables, h.next.trans (Nat.le_succ _), fun _ => rfl, by rintro ⟨⟩⟩
    · rw [← h.entries x]
      constructor
      · rintro ⟨f, hf, hx⟩
        exact ⟨f, hf, (holda f hf) ▸ hx⟩
      · rintro ⟨f, hf, hx⟩
        exact ⟨f, hf, show x ∈ contents' f.number from by rw [holda f hf]; exact hx⟩
    · show ∃ x ∈ contents' f.number, _
      rw [holda f hf]
      exact h.largest f hf
  | some f₀ =>
    dsimp only
    obtain ⟨hn₀, hfirst, hlast⟩ := buildTable_some hbuilt
    have htable : TableOf (mergeAll [mem]) f₀ := tableOf_of_sorted hsorted
      (fun x hx => hext.inFormat x (List.mem_append_right _ (hmerge.1 hx))) hfirst hlast
    rw [← hn₀] at hself
    have hlt₀ : ∀ level, ∀ f ∈ w.files level, f.number < f₀.number := by
      intro level f hf
      rw [hn₀, UInt64.lt_iff_toNat_lt, hnumber]
      exact h.number_lt hmem hf
    have hfresh : ∀ level, ∀ f ∈ w.files level, f.number ≠ f₀.number := fun level f hf heq =>
      absurd (heq ▸ hlt₀ level f hf) (UInt64.lt_irrefl _)
    have hentry : ∀ level, ∀ f ∈ w.files level, ∀ y ∈ st.contents f.number, y ∈ L ∨ b.InTables y := by
      intro level f hf y hy
      rcases (hmem level f).1 hf with ⟨-, hf⟩ | hf
      · exact Or.inl ((h.entries y).1 ⟨f, hf, hy⟩)
      · rw [h.contents _ (b.used level f hf)] at hy
        exact Or.inr ⟨level, f, hf, hy⟩
    -- the version with this table, too
    obtain ⟨w', hvalid', hmemw⟩ := hvalid.addTable f₀ holdw (by rw [hself]; exact htable) hlt₀
      (fun level f hf x hx y hy => by
        rw [hself] at hx
        rcases hentry level f hf y hy with hy | hy
        · exact hafter y hy x (hmerge.1 hx)
        · exact hext.newer y hy x (List.mem_append_right _ (hmerge.1 hx)))
      (fun x hx y hy hseq => by
        rw [hself] at hx hy
        by_contra hne
        have : Std.Symm fun x y : InternalKey α × Bytes => x.1.sequence ≠ y.1.sequence := ⟨fun _ _ => Ne.symm⟩
        exact (hmemOrder.imp fun {_ _} hlt => hlt.ne).forall (hmerge.1 hx) (hmerge.1 hy)
          (fun hxy => hne (congrArg _ hxy)) hseq)
    have hadded : ∀ {f}, f ∈ (st.edit.addFile 0 f₀).added 0 ↔ f ∈ st.edit.added 0 ∨ f = f₀ := by
      intro f
      rw [added_addFile, if_pos rfl, List.mem_append, List.mem_singleton]
    refine ⟨⟨w', hvalid', fun level f => ?_⟩, fun level hl => ?_, ?_, fun f hf => ?_, holdb, h.edit, fun x => ?_,
      fun f hf => ?_, ⟨fun f hf => ?_, fun n hn => List.mem_append_left _ (h.tables.2 n hn)⟩,
      h.next.trans (Nat.le_succ _), fun _ => rfl, by rintro ⟨⟩⟩
    · rw [hmemw, hmem, hadded]
      tauto
    · rw [added_addFile, if_neg hl, List.append_nil]
      exact h.added level hl
    · rw [added_addFile, if_pos rfl, List.pairwise_append]
      refine ⟨h.once, List.pairwise_singleton _ _, fun f hf g hg => ?_⟩
      rw [List.mem_singleton.1 hg]
      exact hfresh 0 f ((hmem 0 f).2 (Or.inl ⟨rfl, hf⟩))
    · rcases hadded.1 hf with hf | rfl
      · exact ⟨(h.numbers f hf).1, (h.numbers f hf).2.trans (Nat.lt_succ_self _)⟩
      · rw [hn₀, hnumber]
        exact ⟨h.next, Nat.lt_succ_self _⟩
    · rw [List.mem_append, ← h.entries x, ← hmerge]
      constructor
      · rintro ⟨f, hf, hx⟩
        rcases hadded.1 hf with hf | rfl
        · exact Or.inl ⟨f, hf, (holda f hf) ▸ hx⟩
        · exact Or.inr (hself ▸ hx)
      · rintro (⟨f, hf, hx⟩ | hx)
        · exact ⟨f, hadded.2 (Or.inl hf), show x ∈ contents' f.number from by rw [holda f hf]; exact hx⟩
        · exact ⟨f₀, hadded.2 (Or.inr rfl), show x ∈ contents' f₀.number from by rw [hself]; exact hx⟩
    · rcases hadded.1 hf with hf | rfl
      · show ∃ x ∈ contents' f.number, _
        rw [holda f hf]
        exact h.largest f hf
      · obtain ⟨x, hx, hlargest⟩ := Option.map_eq_some_iff.1 hlast
        exact ⟨x, show x ∈ contents' f.number from by rw [hself]; exact List.mem_of_getLast? hx, hlargest⟩
    · rcases hadded.1 hf with hf | rfl
      · exact List.mem_append_left _ (h.tables.1 f hf)
      · rw [hn₀]
        exact List.mem_append_right _ (List.mem_singleton.2 rfl)

/-- A later number may come next. -/
theorem Sound.congr (h : Sound b L st) {st' : Recovering α} (hcontents : st'.contents = st.contents)
    (htables : st'.tables = st.tables) (hedit : st'.edit = st.edit) (hnext : st.nextFileNumber ≤ st'.nextFileNumber)
    (hsave : st'.saveManifest = st.saveManifest) : Sound b L st' where
  version := hcontents.symm ▸ hedit.symm ▸ h.version
  added := hedit.symm ▸ h.added
  once := hedit.symm ▸ h.once
  numbers f hf := ⟨(h.numbers f (hedit ▸ hf)).1, (h.numbers f (hedit ▸ hf)).2.trans_le hnext⟩
  contents := hcontents.symm ▸ h.contents
  edit := hedit.symm ▸ h.edit
  entries := hcontents.symm ▸ hedit.symm ▸ h.entries
  largest := hcontents.symm ▸ hedit.symm ▸ h.largest
  tables := htables.symm ▸ hedit.symm ▸ h.tables
  next := h.next.trans hnext
  saved := hsave.symm ▸ h.saved
  unsaved := hsave.symm ▸ h.unsaved

/-- What is in the tables then. -/
theorem Sound.inTables (h : Sound b L st) {w : Version α}
    (hmem : ∀ level f, f ∈ w.files level ↔ (level = 0 ∧ f ∈ st.edit.added 0) ∨ f ∈ b.version.files level)
    (y : InternalKey α × Bytes) :
    (∃ level, ∃ f ∈ w.files level, y ∈ st.contents f.number) ↔ y ∈ L ∨ b.InTables y := by
  constructor
  · rintro ⟨level, f, hf, hy⟩
    rcases (hmem level f).1 hf with ⟨-, hf⟩ | hf
    · exact Or.inl ((h.entries y).1 ⟨f, hf, hy⟩)
    · exact Or.inr ⟨level, f, hf, h.contents _ (b.used level f hf) ▸ hy⟩
  · rintro (hy | ⟨level, f, hf, hy⟩)
    · obtain ⟨f, hf, hy⟩ := (h.entries y).2 hy
      exact ⟨0, f, (hmem 0 f).2 (Or.inl ⟨rfl, hf⟩), hy⟩
    · exact ⟨level, f, (hmem level f).2 (Or.inr hf), (h.contents _ (b.used level f hf)).symm ▸ hy⟩

/-- The new tables are under new numbers. -/
theorem Sound.fits (h : Sound b L st) (seen : Nat → UInt64 → Prop)
    (hseen : ∀ level n, seen level n → n.toNat < b.nextFileNumber) : st.edit.Fits seen where
  fresh level f hf hs := by
    by_cases hl : level = 0
    · subst hl
      exact absurd (hseen 0 _ hs) (not_lt.2 (h.numbers f hf).1)
    · rw [h.added level hl] at hf
      cases hf
  once level := by
    by_cases hl : level = 0
    · exact hl ▸ h.once
    · rw [h.added level hl]
      exact List.Pairwise.nil

/-- **The edit** puts the new tables into the version. -/
theorem Sound.applied (h : Sound b L st) {v w : Version α} (hv : v.files = b.version.files)
    (hw : ValidVersion st.contents w)
    (hmem : ∀ level f, f ∈ w.files level ↔ (level = 0 ∧ f ∈ st.edit.added 0) ∨ f ∈ b.version.files level) :
    ((Builder.apply { base := v } st.edit).saveTo).files = w.files := by
  have hfits := h.fits b.version.Holds (by rintro level n ⟨f, hf, rfl⟩; exact b.used level f hf)
  obtain ⟨hfiled, hmem'⟩ := Builder.saveTo_apply b.valid.filed st.edit hfits.once hfits.fresh
  rw [Builder.saveTo_files_congr hv]
  funext level
  by_cases hl : level < kNumLevels
  · refine (hfiled.filed level).ext (hw.filed.filed level) fun f => ?_
    have hdeleted : f.number ∉ st.edit.deleted level := by
      unfold VersionEdit.deleted
      rw [h.edit.1]
      exact List.not_mem_nil
    rw [hmem' level hl, hmem]
    by_cases h0 : level = 0
    · simp [h0, h0 ▸ hdeleted]
    · simp [h0, h.added level h0, hdeleted]
  · rw [hfiled.none_beyond level (not_lt.1 hl), hw.filed.none_beyond level (not_lt.1 hl)]

/-- If nothing is to be saved, there are no new tables. -/
theorem Sound.added_of_unsaved (h : Sound b L st) (hsave : st.saveManifest = false) : st.edit.added 0 = [] := by
  refine List.eq_nil_iff_forall_not_mem.2 fun f hf => ?_
  obtain ⟨x, hx, -⟩ := h.largest f hf
  have hL := (h.entries x).1 ⟨f, hf, hx⟩
  rw [h.unsaved hsave] at hL
  cases hL

end Tables

/-! ## Records -/

/-- The entries of records. -/
def entriesOf (records : List (LoggedBatch α)) : List (InternalKey α × Bytes) := records.flatMap (·.entries)

omit [LinearOrder α] in
@[simp] theorem entriesOf_append (records more : List (LoggedBatch α)) :
    entriesOf (records ++ more) = entriesOf records ++ entriesOf more := List.flatMap_append

omit [LinearOrder α] in
@[simp] theorem entriesOf_singleton (r : LoggedBatch α) : entriesOf [r] = r.entries := List.flatMap_singleton ..

/-- Records after the tables, with sequence numbers below a bound. -/
structure Base.Records (b : Base α) (bound : Nat) (records : List (LoggedBatch α)) : Prop where
  extends_ : b.Extends (entriesOf records)
  bounds : ∀ r ∈ records, 0 < r.sequence ∧ r.sequence + r.batch.length ≤ bound
  small : 0 < bound ∧ bound ≤ 2 ^ 56

theorem Base.Records.initial {b : Base α} {bound : Nat} {records more : List (LoggedBatch α)}
    (h : b.Records bound (records ++ more)) : b.Records bound records :=
  ⟨(entriesOf_append records more ▸ h.extends_).initial, fun r hr => h.bounds r (List.mem_append_left _ hr), h.small⟩

/-- `mem_`, if a log file is reused. -/
def memory (st : Recovering α) : List (InternalKey α × Bytes) := (st.reused.map Prod.snd).getD []

/-- These records are in tables, and the last of them in the memtable. -/
structure Has (b : Base α) (bound : Nat) (records : List (LoggedBatch α)) (st : Recovering α) : Prop where
  stored : ∃ L, st.Sound b L ∧ entriesOf records = L ++ st.memory
  sequences : ∀ r ∈ records, r.sequence + r.batch.length ≤ st.maxSequence + 1
  bounded : st.maxSequence < bound

/-- The same while a file is read; `records` are those of the files before, `file` those of this one. -/
structure Reads (b : Base α) (bound : Nat) (records file : List (LoggedBatch α)) (st : LogReading α) : Prop where
  stored : ∃ L, st.db.Sound b L ∧ entriesOf records ++ entriesOf file = L ++ st.mem.getD [] ∧
    (st.compactions = 0 → L = entriesOf records)
  sequences : ∀ r ∈ records ++ file, r.sequence + r.batch.length ≤ st.db.maxSequence + 1
  bounded : st.db.maxSequence < bound
  status : st.status = .ok
  reused : st.db.reused = none

section Records
variable {b : Base α} {bound : Nat} {records file : List (LoggedBatch α)} {st : LogReading α} {env : Environment α}
  {o : OpenCall α}

@[simp] theorem writeLevel0Table_next (st : Recovering α) (mem : List (InternalKey α × Bytes)) :
    (st.writeLevel0Table env mem).nextFileNumber = st.nextFileNumber + 1 := by
  unfold Recovering.writeLevel0Table
  dsimp only
  split <;> rfl

@[simp] theorem writeLevel0Table_maxSequence (st : Recovering α) (mem : List (InternalKey α × Bytes)) :
    (st.writeLevel0Table env mem).maxSequence = st.maxSequence := by
  unfold Recovering.writeLevel0Table
  dsimp only
  split <;> rfl

@[simp] theorem writeLevel0Table_reused (st : Recovering α) (mem : List (InternalKey α × Bytes)) :
    (st.writeLevel0Table env mem).reused = st.reused := by
  unfold Recovering.writeLevel0Table
  dsimp only
  split <;> rfl

variable (env o) in
/-- What the loop leaves alone. -/
theorem step_frame (st : LogReading α) (read : LogRead α) :
    st.db.nextFileNumber ≤ (st.step env o read).db.nextFileNumber ∧
      (st.step env o read).db.reused = st.db.reused := by
  cases read with
  | corruption status =>
    simp only [LogReading.step, LogReading.report]
    split <;> exact ⟨le_refl _, rfl⟩
  | small =>
    simp only [LogReading.step, LogReading.report]
    split
    · split <;> exact ⟨le_refl _, rfl⟩
    · exact ⟨le_refl _, rfl⟩
  | batch sequence count entries status =>
    simp only [LogReading.step, LogReading.insert]
    split
    · split
      · split
        · simp
        · exact ⟨le_refl _, rfl⟩
      · exact ⟨le_refl _, rfl⟩
    · exact ⟨le_refl _, rfl⟩

variable (env o) in
theorem foldl_frame (reads : List (LogRead α)) (st : LogReading α) :
    st.db.nextFileNumber ≤ (reads.foldl (LogReading.step env o) st).db.nextFileNumber ∧
      (reads.foldl (LogReading.step env o) st).db.reused = st.db.reused := by
  induction reads generalizing st with
  | nil => exact ⟨le_refl _, rfl⟩
  | cons read reads ih =>
    obtain ⟨hnext, hreused⟩ := step_frame env o st read
    obtain ⟨hnext', hreused'⟩ := ih (st.step env o read)
    exact ⟨hnext.trans hnext', hreused'.trans hreused⟩

/-- A batch as it was written. -/
theorem step_batch (h : st.status = .ok) (sequence count : Nat) (entries : WriteBatch α) :
    st.step env o (.batch sequence count entries .ok) =
      let mem := st.mem.getD [] ++ Database.insertInto sequence entries
      let db := { st.db with maxSequence := max st.db.maxSequence ((sequence + count + (2 ^ 64 - 1)) % 2 ^ 64) }
      if o.memory.approximateMemoryUsage mem > o.memory.writeBufferSize then
        { db := db.writeLevel0Table env mem, mem := none, compactions := st.compactions + 1, status := .ok }
      else { db, mem := some mem, compactions := st.compactions, status := .ok } := by
  have hok : st.status.isOk = true := by
    rw [h]
    rfl
  unfold LogReading.step LogReading.insert
  dsimp only
  rw [if_pos hok, if_pos (show (LogReading.maybeIgnoreError o.options .ok).isOk = true from rfl)]
  rfl

/-- **One record.** -/
theorem Reads.step (h : Reads b bound records file st) {r : LoggedBatch α}
    (hrecords : b.Records bound (records ++ (file ++ [r])))
    (hlt : (st.step env o (.batch r.sequence r.batch.length r.batch .ok)).db.nextFileNumber < 2 ^ 64) :
    Reads b bound records (file ++ [r]) (st.step env o (.batch r.sequence r.batch.length r.batch .ok)) := by
  obtain ⟨L, hsound, hstored, hfirst⟩ := h.stored
  obtain ⟨hpos, hle⟩ := hrecords.bounds r (by simp)
  have hsmall := hrecords.small
  have hlast : (r.sequence + r.batch.length + (2 ^ 64 - 1)) % 2 ^ 64 = r.sequence + r.batch.length - 1 := by omega
  have hext : b.Extends (L ++ (st.mem.getD [] ++ r.entries)) := by
    have hall := hrecords.extends_
    rwa [entriesOf_append, entriesOf_append, entriesOf_singleton, ← List.append_assoc, hstored,
      List.append_assoc] at hall
  have hsequences : ∀ r' ∈ records ++ (file ++ [r]), r'.sequence + r'.batch.length ≤
      max st.db.maxSequence (r.sequence + r.batch.length - 1) + 1 := by
    intro r' hr'
    rw [← List.append_assoc, List.mem_append, List.mem_singleton] at hr'
    rcases hr' with hr' | rfl
    · have := h.sequences r' hr'
      omega
    · omega
  have hbounded : max st.db.maxSequence (r.sequence + r.batch.length - 1) < bound := by
    have := h.bounded
    omega
  have hsame : entriesOf records ++ entriesOf (file ++ [r]) = L ++ (st.mem.getD [] ++ r.entries) := by
    rw [entriesOf_append, entriesOf_singleton, ← List.append_assoc, hstored, List.append_assoc]
  rw [step_batch h.status, hlast] at hlt ⊢
  dsimp only at hlt ⊢
  split
  · rename_i hbig
    rw [if_pos hbig] at hlt
    simp only [writeLevel0Table_next] at hlt
    have hdb : ({ st.db with maxSequence := max st.db.maxSequence (r.sequence + r.batch.length - 1) } :
        Recovering α).Sound b L := hsound.congr rfl rfl rfl (le_refl _) rfl
    refine ⟨⟨_, hdb.writeLevel0Table ((Nat.lt_succ_self _).trans hlt) hext, ?_, ?_⟩, ?_, ?_, rfl, ?_⟩
    · rw [hsame, Option.getD_none, List.append_nil]
      rfl
    · intro hzero
      exact absurd hzero (Nat.succ_ne_zero _)
    · simpa using hsequences
    · simpa using hbounded
    · simpa using h.reused
  · exact ⟨⟨L, hsound.congr rfl rfl rfl (le_refl _) rfl, hsame, hfirst⟩, hsequences, hbounded, rfl, h.reused⟩

variable (env o) in
/-- **The loop.** -/
theorem Reads.foldl (h : Reads b bound records file st) (rest : List (LoggedBatch α))
    (hrecords : b.Records bound (records ++ (file ++ rest)))
    (hlt : ((rest.map fun r => LogRead.batch r.sequence r.batch.length r.batch .ok).foldl (LogReading.step env o)
      st).db.nextFileNumber < 2 ^ 64) :
    Reads b bound records (file ++ rest)
      ((rest.map fun r => LogRead.batch r.sequence r.batch.length r.batch .ok).foldl (LogReading.step env o) st) := by
  induction rest generalizing file st with
  | nil => simpa using h
  | cons r rest ih =>
    rw [List.map_cons, List.foldl_cons] at hlt ⊢
    rw [List.append_cons] at hrecords ⊢
    have hfirst : b.Records bound (records ++ (file ++ [r])) := by
      rw [← List.append_assoc] at hrecords
      exact hrecords.initial
    exact ih (h.step hfirst ((foldl_frame env o _ _).1.trans_lt hlt)) hrecords hlt

variable (env o) in
theorem status_foldl (h : st.status = .ok) (rest : List (LoggedBatch α)) :
    ((rest.map fun r => LogRead.batch r.sequence r.batch.length r.batch .ok).foldl (LogReading.step env o)
      st).status = .ok := by
  induction rest generalizing st with
  | nil => exact h
  | cons r rest ih =>
    rw [List.map_cons, List.foldl_cons]
    refine ih ?_
    rw [step_batch h]
    dsimp only
    split <;> rfl

variable (env o) in
/-- **`RecoverLogFile`** of a file that `Write` has written. -/
theorem Has.recoverLogFile {st : Recovering α} (h : st.nextFileNumber < 2 ^ 64 → Has b bound records st)
    (hreused : st.reused = none) {log : LogFile α} (hrecords : b.Records bound (records ++ log.records))
    (lastLog : Bool) :
    ∃ st', recoverLogFile env o log.number lastLog log.reads st = .ok st' ∧
      st.nextFileNumber ≤ st'.nextFileNumber ∧
      (st'.nextFileNumber < 2 ^ 64 → Has b bound (records ++ log.records) st') ∧
      (st'.reused = none ∨ lastLog = true ∧ o.options.reuseLogs = true ∧
        ∃ mem, st'.reused = some (log.number, mem) ∧
          (st'.nextFileNumber < 2 ^ 64 → mem = entriesOf log.records)) := by
  have hstart : st.nextFileNumber < 2 ^ 64 → Reads b bound records [] { db := st } := by
    intro hlt
    obtain ⟨L, hsound, hstored⟩ := (h hlt).stored
    have hmemory : st.memory = [] := by simp [memory, hreused]
    rw [hmemory, List.append_nil] at hstored
    exact ⟨⟨L, hsound, by simpa [entriesOf] using hstored, fun _ => hstored.symm⟩, by simpa using (h hlt).sequences,
      (h hlt).bounded, rfl, hreused⟩
  obtain ⟨hnext, hnone⟩ := foldl_frame env o log.reads { db := st }
  have hreads := fun hlt => (hstart (hnext.trans_lt hlt)).foldl env o log.records (by simpa using hrecords) hlt
  rw [hreused] at hnone
  have hstatus := status_foldl env o (show (LogReading.mk st none 0 .ok).status = .ok from rfl) log.records
  unfold LevelDbSurf.recoverLogFile LogFile.reads at *
  generalize (log.records.map fun r => LogRead.batch r.sequence r.batch.length r.batch .ok).foldl
    (LogReading.step env o) { db := st } = st₁ at hreads hnext hstatus hnone ⊢
  have hok : st₁.status.isOk = true := by
    rw [hstatus]
    rfl
  dsimp only
  rw [if_pos hok]
  split
  · rename_i hreuse
    simp only [Bool.and_eq_true, decide_eq_true_eq] at hreuse
    refine ⟨_, rfl, hnext, fun hlt => ?_, Or.inr ⟨hreuse.1.1.2, hreuse.1.1.1, _, rfl, fun hlt => ?_⟩⟩
    · have hr := hreads hlt
      obtain ⟨L', hsound', hstored', -⟩ := hr.stored
      refine ⟨⟨L', hsound'.congr rfl rfl rfl (le_refl _) rfl, ?_⟩, by simpa using hr.sequences, hr.bounded⟩
      simpa [memory] using hstored'
    · obtain ⟨L', -, hstored', hfirst⟩ := (hreads hlt).stored
      rw [hfirst hreuse.1.2] at hstored'
      simpa using (List.append_cancel_left hstored').symm
  · split
    · rename_i mem hmem
      refine ⟨_, rfl, by simpa using hnext.trans (Nat.le_succ _), fun hlt => ?_, Or.inl (by simpa using hnone)⟩
      rw [writeLevel0Table_next] at hlt
      have hlt' := (Nat.lt_succ_self _).trans hlt
      have hr := hreads hlt'
      obtain ⟨L', hsound', hstored', -⟩ := hr.stored
      rw [hmem, Option.getD_some] at hstored'
      have hall := hrecords.extends_
      rw [entriesOf_append] at hall
      have hstored'' : entriesOf records ++ entriesOf log.records = L' ++ mem := by simpa using hstored'
      rw [hstored''] at hall
      refine ⟨⟨_, hsound'.writeLevel0Table hlt' hall, ?_⟩, by simpa using hr.sequences, by simpa using hr.bounded⟩
      rw [entriesOf_append, hstored'']
      simp [memory, hnone]
    · rename_i hmem
      refine ⟨_, rfl, hnext, fun hlt => ?_, Or.inl hnone⟩
      have hr := hreads hlt
      obtain ⟨L', hsound', hstored', -⟩ := hr.stored
      rw [hmem, Option.getD_none] at hstored'
      exact ⟨⟨L', hsound', by simpa [memory, hnone] using hstored'⟩, by simpa using hr.sequences, hr.bounded⟩

omit [LinearOrder α] in
theorem markFileNumberUsed_spec [LinearOrder α] (st : Recovering α) (number : UInt64) :
    number.toNat < (st.markFileNumberUsed number).nextFileNumber ∧
      st.nextFileNumber ≤ (st.markFileNumberUsed number).nextFileNumber ∧
      (st.markFileNumberUsed number).reused = st.reused := by
  unfold markFileNumberUsed
  split
  · rename_i hle
    exact ⟨Nat.lt_succ_self _, hle.trans (Nat.le_succ _), rfl⟩
  · rename_i hlt
    exact ⟨not_le.1 hlt, le_refl _, rfl⟩

theorem Has.markFileNumberUsed {st : Recovering α} (h : Has b bound records st) (number : UInt64) :
    Has b bound records (st.markFileNumberUsed number) := by
  unfold Recovering.markFileNumberUsed
  split
  · rename_i hle
    obtain ⟨L, hsound, hstored⟩ := h.stored
    exact ⟨⟨L, hsound.congr rfl rfl rfl (hle.trans (Nat.le_succ _)) rfl, hstored⟩, h.sequences, h.bounded⟩
  · exact h

variable (env o) in
/-- **All log files**, in order. Only the last one may be reused. -/
theorem Has.recoverLogs {st : Recovering α} (h : st.nextFileNumber < 2 ^ 64 → Has b bound records st)
    (hreused : st.reused = none) (logs : List (LogFile α))
    (hrecords : b.Records bound (records ++ logs.flatMap (·.records))) :
    ∃ st', recoverLogs env o logs st = .ok st' ∧ st.nextFileNumber ≤ st'.nextFileNumber ∧
      (∀ log ∈ logs, log.number.toNat < st'.nextFileNumber) ∧
      (st'.nextFileNumber < 2 ^ 64 → Has b bound (records ++ logs.flatMap (·.records)) st') ∧
      (st'.reused = none ∨ ∃ front log, logs = front ++ [log] ∧ o.options.reuseLogs = true ∧
        ∃ mem, st'.reused = some (log.number, mem) ∧
          (st'.nextFileNumber < 2 ^ 64 → mem = entriesOf log.records)) := by
  induction logs generalizing records st with
  | nil => exact ⟨st, rfl, le_refl _, by rintro log ⟨⟩, by simpa using h, Or.inl hreused⟩
  | cons log logs ih =>
    have hfirst : b.Records bound (records ++ log.records) := by
      rw [List.flatMap_cons, ← List.append_assoc] at hrecords
      exact hrecords.initial
    obtain ⟨st₁, hst₁, hnext₁, hhas₁, hreused₁⟩ := Has.recoverLogFile env o h hreused hfirst logs.isEmpty
    obtain ⟨hmark, hle, hsame⟩ := markFileNumberUsed_spec st₁ log.number
    have hhas : (st₁.markFileNumberUsed log.number).nextFileNumber < 2 ^ 64 →
        Has b bound (records ++ log.records) (st₁.markFileNumberUsed log.number) := fun hlt =>
      (hhas₁ (hle.trans_lt hlt)).markFileNumberUsed log.number
    have hrun : ∀ r, recoverLogs env o logs (st₁.markFileNumberUsed log.number) = r →
        recoverLogs env o (log :: logs) st = r := by
      rintro r rfl
      rw [recoverLogs, hst₁]
      rfl
    cases logs with
    | nil =>
      refine ⟨_, hrun _ rfl, hnext₁.trans hle, ?_, ?_, ?_⟩
      · intro log' hlog'
        rw [List.mem_singleton.1 hlog']
        exact hmark
      · simpa using hhas
      · rw [hsame]
        rcases hreused₁ with hnone | ⟨-, hreuse, mem, hmem, heq⟩
        · exact Or.inl hnone
        · exact Or.inr ⟨[], log, rfl, hreuse, mem, hmem, fun hlt => heq (hle.trans_lt hlt)⟩
    | cons log₂ logs =>
      have hnone : (st₁.markFileNumberUsed log.number).reused = none := by
        rw [hsame]
        exact hreused₁.resolve_right fun hlast => Bool.noConfusion hlast.1
      obtain ⟨st', hst', hnext', hnumbers', hhas', hreused'⟩ := ih hhas hnone (by
        rw [List.append_assoc, ← List.flatMap_cons]
        exact hrecords)
      refine ⟨st', hrun _ hst', (hnext₁.trans hle).trans hnext', ?_, ?_, ?_⟩
      · intro log' hlog'
        rcases List.mem_cons.1 hlog' with rfl | hlog'
        · exact hmark.trans_le hnext'
        · exact hnumbers' log' hlog'
      · rw [List.flatMap_cons, ← List.append_assoc]
        exact hhas'
      · rcases hreused' with hnone | ⟨front, last, hsplit, hreuse, hmem⟩
        · exact Or.inl hnone
        · exact Or.inr ⟨log :: front, last, by rw [hsplit, List.cons_append], hreuse, hmem⟩

end Records

end Recovering

end LevelDbSurf
