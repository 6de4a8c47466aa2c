import LevelDbSurf.BackgroundWork
import LevelDbSurf.CompactionWorkProofs

/-!
# Levels stay disjoint, and lower levels newer

`ValidVersion` is what flushes and compactions keep: `SortedLevels`, `LowerNewer`, and what these rest on
(files within their bounds, each number once, each sequence number of a user key once). A flush adds a table
that is newer than all others, and shares no user key with its own level or those above unless it goes to
level 0 (`ValidVersion.flush`). A compaction or a trivial move replaces its inputs (`ValidVersion.replace`).

Only one thing can go wrong. The outputs of a compaction reach over the gaps between its inputs, and a
memtable flushed in the meantime may have been put into such a gap on the level of the outputs. The runs are
those whose steps install no outputs around such a table.
-/

namespace LevelDbSurf

open Cursors

variable {α : Type} [LinearOrder α]

/-! ## Valid versions -/

section Valid

/-- Of every user key, the entries of `f` have larger sequence numbers than those of `g`. -/
def SeqNewer (contents : UInt64 → List (InternalKey α × Bytes)) (f g : FileMetaData α) : Prop :=
  ∀ x ∈ contents f.number, ∀ y ∈ contents g.number, x.1.userKey = y.1.userKey → y.1.sequence < x.1.sequence

/-- "Lower levels are newer", and on level 0 higher file numbers. -/
structure LowerNewer (contents : UInt64 → List (InternalKey α × Bytes)) (v : Version α) : Prop where
  levels : ∀ level level', level < level' → ∀ f ∈ v.files level, ∀ g ∈ v.files level', SeqNewer contents f g
  level0 : ∀ f ∈ v.files 0, ∀ g ∈ v.files 0, g.number < f.number → SeqNewer contents f g

/-- The table of a file: sorted, and within the bounds the file records. -/
structure TableOf (entries : List (InternalKey α × Bytes)) (f : FileMetaData α) : Prop where
  sorted : entries.Pairwise fun x y => x.1 < y.1
  within : ∀ x ∈ entries, f.smallest ≤ x.1 ∧ x.1 ≤ f.largest
  inFormat : f.largest.InFormat ∧ ∀ x ∈ entries, x.1.InFormat

/-- What holds of the current version. -/
structure ValidVersion (contents : UInt64 → List (InternalKey α × Bytes)) (v : Version α) : Prop where
  filed : v.FiledLevels
  sortedLevels : v.SortedLevels
  lowerNewer : LowerNewer contents v
  tables : ∀ level, ∀ f ∈ v.files level, TableOf (contents f.number) f
  oneLevel : ∀ level level', ∀ f ∈ v.files level, ∀ g ∈ v.files level', f.number = g.number → level = level'
  sequences : ∀ level level', ∀ f ∈ v.files level, ∀ g ∈ v.files level', ∀ x ∈ contents f.number,
    ∀ y ∈ contents g.number, x.1.userKey = y.1.userKey → x.1.sequence = y.1.sequence → x.1 = y.1

/-- On a level from 1 on, files in order are sorted if no two overlap. -/
theorem levelSorted_of_disjoint {files : List (FileMetaData α)} (h : Filed files)
    (hdisjoint : ∀ f ∈ files, ∀ g ∈ files, f.number ≠ g.number → f.largest < g.smallest ∨ g.largest < f.smallest) :
    LevelSorted files := by
  refine List.Pairwise.imp_of_mem (fun {f g} hf hg hfg => ?_) h
  refine (hdisjoint f hf g hg hfg.2).resolve_right fun hgf => ?_
  -- `g` would start before `f`
  have hlt : g.smallest < f.smallest := g.ordered.trans_lt hgf
  rcases hfg.1 with hle | ⟨heq, -⟩
  · exact absurd hle hlt.asymm
  · exact absurd heq hlt.ne'

theorem SeqNewer.key_lt {contents : UInt64 → List (InternalKey α × Bytes)} {f g : FileMetaData α}
    (h : SeqNewer contents f g) : NewerBy (fun f => contents f.number) f g := by
  intro x hx y hy hu
  have hseq := h x hx y hy hu
  exact InternalKey.lt_iff.2 (Or.inr ⟨hu, Nat.lt_of_div_lt_div hseq⟩)

variable {contents contents' : UInt64 → List (InternalKey α × Bytes)} {v v' : Version α}

theorem ValidVersion.eq_of_number (hv : ValidVersion contents v) {level level' : Nat} {f g : FileMetaData α}
    (hf : f ∈ v.files level) (hg : g ∈ v.files level') (hn : f.number = g.number) : level = level' ∧ f = g := by
  obtain rfl := hv.oneLevel level level' f hf g hg hn
  exact ⟨rfl, (hv.filed.filed level).eq_of_number hf hg hn⟩

theorem ValidVersion.layers (hv : ValidVersion contents v) : Layers (fun f => contents f.number) v where
  sorted level f hf := (hv.tables level f hf).sorted
  within level f hf := (hv.tables level f hf).within
  sortedLevels := hv.sortedLevels
  levels level level' hlt f hf g hg := (hv.lowerNewer.levels level level' hlt f hf g hg).key_lt
  level0 := by
    refine List.Pairwise.imp_of_mem (fun {f g} hf hg hfg => ?_) (hv.filed.filed 0)
    rcases UInt64.lt_or_lt_of_ne hfg.2 with hlt | hlt
    · exact Or.inr (hv.lowerNewer.level0 g hg f hf hlt).key_lt
    · exact Or.inl (hv.lowerNewer.level0 f hf g hg hlt).key_lt

theorem ValidVersion.inFormat (hv : ValidVersion contents v) :
    ∀ level, ∀ f ∈ v.files level, f.largest.InFormat := fun level f hf => (hv.tables level f hf).inFormat.1

/-- Only the files and what is in them matter. -/
theorem ValidVersion.congr (hv : ValidVersion contents v) (hfiles : v'.files = v.files)
    (hcontents : ∀ level, ∀ f ∈ v.files level, contents' f.number = contents f.number) :
    ValidVersion contents' v' := by
  have hmem : ∀ {level f}, f ∈ v'.files level → f ∈ v.files level := fun h => hfiles ▸ h
  refine ⟨⟨fun level => ?_, fun level hl => ?_⟩, fun level hl => ?_, ⟨?_, ?_⟩, ?_, ?_, ?_⟩
  · exact hfiles ▸ hv.filed.filed level
  · exact hfiles ▸ hv.filed.none_beyond level hl
  · exact hfiles ▸ hv.sortedLevels level hl
  · intro level level' hlt f hf g hg
    rw [SeqNewer, hcontents _ f (hmem hf), hcontents _ g (hmem hg)]
    exact hv.lowerNewer.levels level level' hlt f (hmem hf) g (hmem hg)
  · intro f hf g hg hlt
    rw [SeqNewer, hcontents _ f (hmem hf), hcontents _ g (hmem hg)]
    exact hv.lowerNewer.level0 f (hmem hf) g (hmem hg) hlt
  · intro level f hf
    rw [hcontents _ f (hmem hf)]
    exact hv.tables level f (hmem hf)
  · exact fun level level' f hf g hg => hv.oneLevel level level' f (hmem hf) g (hmem hg)
  · intro level level' f hf g hg
    rw [hcontents _ f (hmem hf), hcontents _ g (hmem hg)]
    exact hv.sequences level level' f (hmem hf) g (hmem hg)

/-! ## A flush -/

/-- **A new table**, newer than all others, and apart from its level and those above unless it is put on
level 0. -/
theorem ValidVersion.flush (hv : ValidVersion contents v) {level₀ : Nat} {f₀ : FileMetaData α}
    (hfiled : v'.FiledLevels)
    (hmem : ∀ level f, f ∈ v'.files level ↔ (level = level₀ ∧ f = f₀) ∨ f ∈ v.files level)
    (hcontents : ∀ level, ∀ f ∈ v.files level, contents' f.number = contents f.number)
    (htable : TableOf (contents' f₀.number) f₀)
    (hnumber : ∀ level, ∀ f ∈ v.files level, f.number < f₀.number)
    (hnewer : ∀ level, ∀ f ∈ v.files level, ∀ x ∈ contents' f₀.number, ∀ y ∈ contents f.number,
      y.1.sequence < x.1.sequence)
    (hsequences : ∀ x ∈ contents' f₀.number, ∀ y ∈ contents' f₀.number, x.1.sequence = y.1.sequence → x.1 = y.1)
    (hapart : level₀ ≠ 0 → ∀ level ≤ level₀, ∀ f ∈ v.files level,
      OutOfRange f₀.smallest.userKey f₀.largest.userKey f) : ValidVersion contents' v' := by
  have hshared : level₀ ≠ 0 → ∀ level ≤ level₀, ∀ f ∈ v.files level, ∀ x ∈ contents f.number,
      ∀ y ∈ contents' f₀.number, x.1.userKey ≠ y.1.userKey := by
    intro hl level hle f hf x hx y hy heq
    have hxf := (hv.tables level f hf).within x hx
    have hyf := htable.within y hy
    rcases hapart hl level hle f hf with hlt | hlt
    · exact absurd heq ((InternalKey.userKey_le hxf.2).trans_lt
        (hlt.trans_le (InternalKey.userKey_le hyf.1))).ne
    · exact absurd heq ((InternalKey.userKey_le hyf.2).trans_lt
        (hlt.trans_le (InternalKey.userKey_le hxf.1))).ne'
  refine ⟨hfiled, fun level hl => ?_, ⟨?_, ?_⟩, ?_, ?_, ?_⟩
  · -- the new file overlaps none of its level
    have hside : level = level₀ → ∀ f ∈ v.files level, f.largest < f₀.smallest ∨ f₀.largest < f.smallest := by
      rintro rfl f hf
      exact (hapart (Nat.pos_iff_ne_zero.1 hl) level (le_refl _) f hf).imp
        (fun hlt => InternalKey.lt_iff.2 (Or.inl hlt)) fun hlt => InternalKey.lt_iff.2 (Or.inl hlt)
    refine levelSorted_of_disjoint (hfiled.filed level) fun f hf g hg hn => ?_
    rcases (hmem level f).1 hf with ⟨hl₀, rfl⟩ | hf
    · rcases (hmem level g).1 hg with ⟨-, rfl⟩ | hg
      · exact absurd rfl hn
      · exact (hside hl₀ g hg).symm
    · rcases (hmem level g).1 hg with ⟨hl₀, rfl⟩ | hg
      · exact hside hl₀ f hf
      · exact ((hv.sortedLevels level hl).before_or_after hf hg).resolve_left fun heq => hn (congrArg _ heq)
  · intro level level' hlt f hf g hg
    rcases (hmem level f).1 hf with ⟨rfl, rfl⟩ | hf
    · rcases (hmem level' g).1 hg with ⟨rfl, -⟩ | hg
      · omega
      · rw [SeqNewer, hcontents _ g hg]
        exact fun x hx y hy _ => hnewer level' g hg x hx y hy
    · rw [SeqNewer, hcontents _ f hf]
      rcases (hmem level' g).1 hg with ⟨rfl, rfl⟩ | hg
      · exact fun x hx y hy heq => absurd heq (hshared (by omega) level hlt.le f hf x hx y hy)
      · rw [hcontents _ g hg]
        exact hv.lowerNewer.levels level level' hlt f hf g hg
  · intro f hf g hg hlt
    rcases (hmem 0 f).1 hf with ⟨-, rfl⟩ | hf
    · rcases (hmem 0 g).1 hg with ⟨-, rfl⟩ | hg
      · exact absurd hlt (UInt64.lt_irrefl _)
      · rw [SeqNewer, hcontents _ g hg]
        exact fun x hx y hy _ => hnewer 0 g hg x hx y hy
    · rcases (hmem 0 g).1 hg with ⟨-, rfl⟩ | hg
      · exact absurd (UInt64.lt_trans hlt (hnumber 0 f hf)) (UInt64.lt_irrefl _)
      · rw [SeqNewer, hcontents _ f hf, hcontents _ g hg]
        exact hv.lowerNewer.level0 f hf g hg hlt
  · intro level f hf
    rcases (hmem level f).1 hf with ⟨-, rfl⟩ | hf
    · exact htable
    · rw [hcontents _ f hf]
      exact hv.tables level f hf
  · intro level level' f hf g hg hn
    rcases (hmem level f).1 hf with ⟨rfl, rfl⟩ | hf
    · rcases (hmem level' g).1 hg with ⟨rfl, -⟩ | hg
      · rfl
      · exact absurd (hn ▸ hnumber level' g hg) (UInt64.lt_irrefl _)
    · rcases (hmem level' g).1 hg with ⟨rfl, rfl⟩ | hg
      · exact absurd (hn ▸ hnumber level f hf) (UInt64.lt_irrefl _)
      · exact hv.oneLevel level level' f hf g hg hn
  · intro level level' f hf g hg x hx y hy hu hseq
    rcases (hmem level f).1 hf with ⟨-, rfl⟩ | hf
    · rcases (hmem level' g).1 hg with ⟨-, rfl⟩ | hg
      · exact hsequences x hx y hy hseq
      · rw [hcontents _ g hg] at hy
        exact absurd hseq (hnewer level' g hg x hx y hy).ne'
    · rw [hcontents _ f hf] at hx
      rcases (hmem level' g).1 hg with ⟨-, rfl⟩ | hg
      · exact absurd hseq (hnewer level f hf y hy x hx).ne
      · rw [hcontents _ g hg] at hy
        exact hv.sequences level level' f hf g hg x hx y hy hu hseq

/-! ## A compaction -/

/-- `g` was flushed to this level while `v₀` was the input version of a compaction. -/
structure FlushedOver (contents : UInt64 → List (InternalKey α × Bytes)) (v₀ : Version α) (level : Nat)
    (g : FileMetaData α) : Prop where
  apart : level ≠ 0 → ∀ level' ≤ level, ∀ f ∈ v₀.files level', Apart f g
  newer : ∀ level', ∀ f ∈ v₀.files level', ∀ x ∈ contents g.number, ∀ y ∈ contents f.number,
    y.1.sequence < x.1.sequence

/-- The file holds entries of inputs, and its bounds lie within inputs. -/
structure OutputOf (contents contents' : UInt64 → List (InternalKey α × Bytes)) (c : Compaction α)
    (out : FileMetaData α) : Prop where
  table : TableOf (contents' out.number) out
  entries : ∀ x ∈ contents' out.number, ∃ level f, c.IsInput level f ∧ x ∈ contents f.number
  smallest : ∃ level f, c.IsInput level f ∧ f.smallest ≤ out.smallest ∧ out.smallest ≤ f.largest
  largest : ∃ level f, c.IsInput level f ∧ f.smallest ≤ out.largest ∧ out.largest ≤ f.largest

/-- The file does not lie inside the range of the output. -/
def NotInside (out f : FileMetaData α) : Prop :=
  ¬ (out.smallest.userKey < f.smallest.userKey ∧ f.largest.userKey < out.largest.userKey)

variable {c : Compaction α} {v₀ : Version α}

theorem Compaction.IsInput.level_le {level : Nat} {f : FileMetaData α} (h : c.IsInput level f) :
    c.level ≤ level ∧ level ≤ c.level + 1 := by
  rcases h with ⟨rfl, -⟩ | ⟨rfl, -⟩ <;> omega

/-- An output overlaps no file that stays on its level. -/
theorem OutputOf.disjoint {out : FileMetaData α} (h : OutputOf contents contents' c out) (hsetup : c.SetUp v₀)
    {g : FileMetaData α} (hnot : ¬ c.IsInput (c.level + 1) g)
    (hflushed : g ∉ v₀.files (c.level + 1) → FlushedOver contents v₀ (c.level + 1) g)
    (hclear : g ∉ v₀.files (c.level + 1) → NotInside out g) :
    out.largest < g.smallest ∨ g.largest < out.smallest := by
  obtain ⟨level, i, hi, hi₁, hi₂⟩ := h.smallest
  obtain ⟨level', i', hi', hi₁', hi₂'⟩ := h.largest
  by_cases hg : g ∈ v₀.files (c.level + 1)
  · rcases hsetup.closed.lower g hg (fun hin => hnot (Or.inr ⟨rfl, hin⟩)) with ⟨h0, h1⟩ | ⟨h0, h1⟩
    · have hlt : g.largest < i.smallest := by
        rcases hi with ⟨-, hi⟩ | ⟨-, hi⟩
        · exact InternalKey.lt_iff.2 (Or.inl (h0 i hi))
        · exact h1 i hi
      exact Or.inr (hlt.trans_le hi₁)
    · have hlt : i'.largest.userKey < g.smallest.userKey := by
        rcases hi' with ⟨-, hi'⟩ | ⟨-, hi'⟩
        · exact h0 i' hi'
        · exact h1 i' hi'
      exact Or.inl (hi₂'.trans_lt (InternalKey.lt_iff.2 (Or.inl hlt)))
  · -- `g` is apart from the files the bounds lie in, so it is inside or outside
    have hapart := (hflushed hg).apart (Nat.succ_ne_zero _)
    rcases hapart level' hi'.level_le.2 i' (hsetup.mem hi') with hlt | hlt
    · exact Or.inl (hi₂'.trans_lt (InternalKey.lt_iff.2 (Or.inl hlt)))
    · rcases hapart level hi.level_le.2 i (hsetup.mem hi) with hlt' | hlt'
      · exact absurd ⟨(InternalKey.userKey_le hi₂).trans_lt hlt', hlt.trans_le (InternalKey.userKey_le hi₁')⟩
          (hclear hg)
      · exact Or.inr ((InternalKey.lt_iff.2 (Or.inl hlt')).trans_le hi₁)

/-- What stays above the outputs is newer than the inputs. -/
theorem ValidVersion.newer_than_input (hv : ValidVersion contents v) (hsetup : c.SetUp v₀)
    (hkept : ∀ level, ∀ f ∈ v₀.files level, f ∈ v.files level) {level level' : Nat} {f g : FileMetaData α}
    (hf : c.IsInput level f) (hl : level' ≤ c.level) (hg : g ∈ v.files level') (hnot : ¬ c.IsInput level' g)
    (hflushed : g ∉ v₀.files level' → FlushedOver contents v₀ level' g) : SeqNewer contents g f := by
  have hfv₀ := hsetup.mem hf
  have hfv := hkept level f hfv₀
  rcases lt_or_ge level' level with hlt | hge
  · exact hv.lowerNewer.levels level' level hlt g hg f hfv
  · -- `f` is an input of the upper level, and `g` stays there
    obtain ⟨rfl, hf₀⟩ : level = c.level ∧ f ∈ c.inputs0 := by
      rcases hf with hf | ⟨rfl, -⟩
      · exact hf
      · omega
    obtain rfl : level' = c.level := by omega
    intro x hx y hy hu
    by_cases hgv₀ : g ∈ v₀.files c.level
    · have hxg := (hv.tables _ g hg).within x hx
      have hyf := (hv.tables _ f hfv).within y hy
      have hout : g ∉ c.inputs0 := fun hin => hnot (Or.inl ⟨rfl, hin⟩)
      have huser : ¬ f.largest.userKey < g.smallest.userKey := fun hfg =>
        absurd hu.symm ((InternalKey.userKey_le hyf.2).trans_lt (hfg.trans_le (InternalKey.userKey_le hxg.1))).ne
      have huser' : ¬ g.largest.userKey < f.smallest.userKey := fun hgf =>
        absurd hu ((InternalKey.userKey_le hxg.2).trans_lt (hgf.trans_le (InternalKey.userKey_le hyf.1))).ne
      by_cases hzero : c.level = 0
      · rcases hsetup.closed.upper.zero hzero g hgv₀ hout f hf₀ with hapart | hapart
        · exact absurd hapart huser
        · exact absurd hapart huser'
      · rcases hsetup.closed.upper.deeper (Nat.pos_of_ne_zero hzero) g hgv₀ hout with hside | hside
        · have hlt : x.1 < y.1 := hxg.2.trans_lt ((hside f hf₀).trans_le hyf.1)
          refine lt_of_le_of_ne (InternalKey.sequence_le hlt.le hu) fun heq => ?_
          exact hlt.ne (hv.sequences _ _ g hg f hfv x hx y hy hu heq.symm)
        · exact absurd (hside f hf₀) huser
    · exact (hflushed hgv₀).newer _ f hfv₀ x hx y hy

/-- **The outputs replace the inputs.** -/
theorem ValidVersion.replace (hv : ValidVersion contents v) (hsetup : c.SetUp v₀)
    (hkept : ∀ level, ∀ f ∈ v₀.files level, f ∈ v.files level)
    (hflushed : ∀ level, ∀ g ∈ v.files level, g ∉ v₀.files level → FlushedOver contents v₀ level g)
    (hfiled : v'.FiledLevels) {outs : List (FileMetaData α)}
    (hmem : ∀ level f, f ∈ v'.files level ↔
      (level = c.level + 1 ∧ f ∈ outs) ∨ (f ∈ v.files level ∧ ¬ c.IsInput level f))
    (hcontents : ∀ level, ∀ f ∈ v.files level, ¬ c.IsInput level f → contents' f.number = contents f.number)
    (houts : ∀ out ∈ outs, OutputOf contents contents' c out)
    (hdisjoint : ∀ out ∈ outs, ∀ out' ∈ outs, out.number ≠ out'.number →
      out.largest < out'.smallest ∨ out'.largest < out.smallest)
    (hnumber : ∀ out ∈ outs, ∀ level, ∀ f ∈ v.files level, ¬ c.IsInput level f → f.number ≠ out.number)
    (hclear : ∀ g ∈ v.files (c.level + 1), g ∉ v₀.files (c.level + 1) → ∀ out ∈ outs, NotInside out g) :
    ValidVersion contents' v' := by
  have horigin : ∀ out ∈ outs, ∀ x ∈ contents' out.number, ∃ level f, c.IsInput level f ∧ f ∈ v.files level ∧
      x ∈ contents f.number := by
    intro out hout x hx
    obtain ⟨level, f, hf, hxf⟩ := (houts out hout).entries x hx
    exact ⟨level, f, hf, hkept level f (hsetup.mem hf), hxf⟩
  -- every entry was in a file of `v`
  have hold : ∀ level f, f ∈ v'.files level → ∀ x ∈ contents' f.number, ∃ level' f', f' ∈ v.files level' ∧
      x ∈ contents f'.number := by
    intro level f hf x hx
    rcases (hmem level f).1 hf with ⟨-, hf⟩ | ⟨hf, hnot⟩
    · obtain ⟨level', f', -, hf', hxf'⟩ := horigin f hf x hx
      exact ⟨level', f', hf', hxf'⟩
    · rw [hcontents level f hf hnot] at hx
      exact ⟨level, f, hf, hx⟩
  refine ⟨hfiled, fun level hl => ?_, ⟨?_, ?_⟩, ?_, ?_, ?_⟩
  · refine levelSorted_of_disjoint (hfiled.filed level) fun f hf g hg hn => ?_
    rcases (hmem level f).1 hf with ⟨rfl, hfo⟩ | ⟨hfv, hnotf⟩
    · rcases (hmem _ g).1 hg with ⟨-, hgo⟩ | ⟨hgv, hnotg⟩
      · exact hdisjoint f hfo g hgo hn
      · exact (houts f hfo).disjoint hsetup hnotg (hflushed _ g hgv) fun hnew => hclear g hgv hnew f hfo
    · rcases (hmem _ g).1 hg with ⟨rfl, hgo⟩ | ⟨hgv, hnotg⟩
      · exact ((houts g hgo).disjoint hsetup hnotf (hflushed _ f hfv) fun hnew => hclear f hfv hnew g hgo).symm
      · exact ((hv.sortedLevels level hl).before_or_after hfv hgv).resolve_left fun heq => hn (congrArg _ heq)
  · intro level level' hlt f hf g hg x hx y hy hu
    rcases (hmem level f).1 hf with ⟨rfl, hfo⟩ | ⟨hfv, hnotf⟩
    · -- an entry of an output was above `g` before
      obtain ⟨level₀, f₀, hf₀, hf₀v, hxf₀⟩ := horigin f hfo x hx
      rcases (hmem level' g).1 hg with ⟨rfl, -⟩ | ⟨hgv, hnotg⟩
      · omega
      · rw [hcontents _ g hgv hnotg] at hy
        exact hv.lowerNewer.levels level₀ level' (hf₀.level_le.2.trans_lt hlt) f₀ hf₀v g hgv x hxf₀ y hy hu
    · rw [hcontents _ f hfv hnotf] at hx
      rcases (hmem level' g).1 hg with ⟨rfl, hgo⟩ | ⟨hgv, hnotg⟩
      · obtain ⟨level₀, f₀, hf₀, -, hyf₀⟩ := horigin g hgo y hy
        exact hv.newer_than_input hsetup hkept hf₀ (Nat.le_of_lt_succ hlt) hfv hnotf (hflushed _ f hfv) x hx y
          hyf₀ hu
      · rw [hcontents _ g hgv hnotg] at hy
        exact hv.lowerNewer.levels level level' hlt f hfv g hgv x hx y hy hu
  · intro f hf g hg hlt
    rcases (hmem 0 f).1 hf with ⟨hzero, -⟩ | ⟨hfv, hnotf⟩
    · omega
    · rcases (hmem 0 g).1 hg with ⟨hzero, -⟩ | ⟨hgv, hnotg⟩
      · omega
      · rw [SeqNewer, hcontents _ f hfv hnotf, hcontents _ g hgv hnotg]
        exact hv.lowerNewer.level0 f hfv g hgv hlt
  · intro level f hf
    rcases (hmem level f).1 hf with ⟨-, hfo⟩ | ⟨hfv, hnotf⟩
    · exact (houts f hfo).table
    · rw [hcontents _ f hfv hnotf]
      exact hv.tables level f hfv
  · intro level level' f hf g hg hn
    rcases (hmem level f).1 hf with ⟨rfl, hfo⟩ | ⟨hfv, hnotf⟩
    · rcases (hmem level' g).1 hg with ⟨rfl, -⟩ | ⟨hgv, hnotg⟩
      · rfl
      · exact absurd hn.symm (hnumber f hfo level' g hgv hnotg)
    · rcases (hmem level' g).1 hg with ⟨rfl, hgo⟩ | ⟨hgv, hnotg⟩
      · exact absurd hn (hnumber g hgo level f hfv hnotf)
      · exact hv.oneLevel level level' f hfv g hgv hn
  · intro level level' f hf g hg x hx y hy
    obtain ⟨l, f', hf', hx'⟩ := hold level f hf x hx
    obtain ⟨l', g', hg', hy'⟩ := hold level' g hg y hy
    exact hv.sequences l l' f' hf' g' hg' x hx' y hy'

end Valid

end LevelDbSurf
