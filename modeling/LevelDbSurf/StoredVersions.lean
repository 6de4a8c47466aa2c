import LevelDbSurf.LevelRuns
import LevelDbSurf.Lib.Versions

/-!
# What is stored, as versions of a map

An entry is a write with a sequence number (`stampedOf`). `Sources` is what a read goes through, memtables and the
tables of a version; of good sources the first entry a snapshot sees of a user key, in internal-key order, is the newest
one (`live_eq_view`).
-/

namespace LevelDbSurf

open Cursors Versions

variable {α : Type} [LinearOrder α]

/-! ## Entries as writes -/

/-- What a write of this type does. -/
def ValueType.written : ValueType → Bytes → Option Bytes
  | .value, v => some v
  | .deletion, _ => none

/-- The write an entry records. -/
def stampedOf (x : InternalKey α × Bytes) : Option (Stamped α Bytes) :=
  (parseInternalKey x.1).map fun p => ⟨p.userKey, p.sequence, p.type.written x.2⟩

/-- The writes that entries record. -/
def versionsOf (S : Set (InternalKey α × Bytes)) : Set (Stamped α Bytes) := {w | ∃ x ∈ S, stampedOf x = some w}

omit [LinearOrder α] in
theorem stampedOf_some {x : InternalKey α × Bytes} {w : Stamped α Bytes} (h : stampedOf x = some w) :
    w.key = x.1.userKey ∧ w.stamp = x.1.sequence ∧ (parseInternalKey x.1).isSome := by
  obtain ⟨p, hp, rfl⟩ := Option.map_eq_some_iff.1 h
  exact ⟨(parseInternalKey_some hp).1, sequence_of_parse hp, by simp [hp]⟩

omit [LinearOrder α] in
theorem exists_stampedOf {x : InternalKey α × Bytes} (h : (parseInternalKey x.1).isSome) :
    ∃ w, stampedOf x = some w := by
  obtain ⟨p, hp⟩ := Option.isSome_iff_exists.1 h
  exact ⟨_, Option.map_eq_some_iff.2 ⟨p, hp, rfl⟩⟩

omit [LinearOrder α] in
theorem liveValue_eq {x : InternalKey α × Bytes} {w : Stamped α Bytes} (h : stampedOf x = some w) :
    liveValue x = w.value := by
  obtain ⟨p, hp, rfl⟩ := Option.map_eq_some_iff.1 h
  unfold liveValue
  rw [hp]
  cases p with
  | mk u s t => cases t <;> rfl

theorem sees_eq {s : Nat} {u : α} {x : InternalKey α × Bytes} {w : Stamped α Bytes} (h : stampedOf x = some w) :
    sees s u x = true ↔ w.VisibleAt s u := by
  obtain ⟨p, hp, rfl⟩ := Option.map_eq_some_iff.1 h
  rw [sees_iff]
  constructor
  · rintro ⟨q, hq, hu, hs⟩
    cases hp.symm.trans hq
    exact ⟨hu, hs⟩
  · rintro ⟨hu, hs⟩
    exact ⟨p, hp, hu, hs⟩

omit [LinearOrder α] in
@[simp] theorem versionsOf_union (S T : Set (InternalKey α × Bytes)) :
    versionsOf (S ∪ T) = versionsOf S ∪ versionsOf T := by
  ext w
  constructor
  · rintro ⟨x, hx | hx, hw⟩
    · exact Or.inl ⟨x, hx, hw⟩
    · exact Or.inr ⟨x, hx, hw⟩
  · rintro (⟨x, hx, hw⟩ | ⟨x, hx, hw⟩)
    · exact ⟨x, Or.inl hx, hw⟩
    · exact ⟨x, Or.inr hx, hw⟩

/-- The first entry a snapshot sees, in internal-key order, is the newest one. -/
theorem live_eq_view {Ls : List (List (InternalKey α × Bytes))} {S : Set (InternalKey α × Bytes)}
    (hmem : ∀ x, x ∈ S ↔ ∃ L ∈ Ls, x ∈ L) (hunique : StampsUnique (versionsOf S)) (s : Nat) (u : α) :
    live s u (mergeAll Ls) = view (versionsOf S) s u := by
  unfold live
  cases hd : newest s u (mergeAll Ls) with
  | none =>
    rw [Option.bind_none, view_eq_none]
    rintro w ⟨x, hx, hw⟩ hvisible
    exact List.find?_eq_none.1 hd x (mem_mergeAll.2 ((hmem x).1 hx)) ((sees_eq hw).2 hvisible)
  | some d =>
    obtain ⟨hmemd, hsees⟩ := mem_of_newest hd
    obtain ⟨p, hp, -⟩ := sees_iff.1 hsees
    obtain ⟨w, hw⟩ := exists_stampedOf (x := d) (by simp [hp])
    have hnewest : Newest (versionsOf S) s u w := by
      refine ⟨⟨d, (hmem d).2 (mem_mergeAll.1 hmemd), hw⟩, (sees_eq hw).1 hsees, ?_⟩
      rintro w' ⟨y, hy, hw'⟩ hvisible
      have hysees := (sees_eq hw').2 hvisible
      have hle := (mergeAll_sorted Ls).find?_le hd (mem_mergeAll.2 ((hmem y).1 hy)) hysees
      rw [(stampedOf_some hw).2.1, (stampedOf_some hw').2.1]
      exact InternalKey.sequence_le hle ((userKey_of_sees hsees).trans (userKey_of_sees hysees).symm)
    rw [Option.bind_some, liveValue_eq hw, hunique.view_eq hnewest]

/-! ## Sources -/

/-- What a read goes through: what is in memtables, oldest first, and the tables of a version. -/
structure Sources (α : Type) [LinearOrder α] where
  unflushed : List (InternalKey α × Bytes)
  version : Version α
  contents : UInt64 → List (InternalKey α × Bytes)

namespace Sources

def InTables (S : Sources α) (y : InternalKey α × Bytes) : Prop :=
  ∃ level, ∃ f ∈ S.version.files level, y ∈ S.contents f.number

def entries (S : Sources α) : Set (InternalKey α × Bytes) := {x | x ∈ S.unflushed ∨ S.InTables x}

def versions (S : Sources α) : Set (Stamped α Bytes) := versionsOf S.entries

/-- The version is valid, memtables are newer than tables, keys parse, and each file's largest key is in it. -/
structure Good (S : Sources α) : Prop where
  valid : ValidVersion S.contents S.version
  order : S.unflushed.Pairwise fun x y => x.1.sequence < y.1.sequence
  newer : ∀ y, S.InTables y → ∀ x ∈ S.unflushed, y.1.sequence < x.1.sequence
  parses : ∀ x ∈ S.entries, (parseInternalKey x.1).isSome
  largest : ∀ level, ∀ f ∈ S.version.files level, ∃ x ∈ S.contents f.number, x.1 = f.largest

variable {S S' : Sources α}

/-- Of a user key each sequence number is used once. -/
theorem Good.eq_of_sequence (h : S.Good) {x y : InternalKey α × Bytes} (hx : x ∈ S.entries) (hy : y ∈ S.entries)
    (hu : x.1.userKey = y.1.userKey) (hseq : x.1.sequence = y.1.sequence) : x = y := by
  rcases hx with hx | hx
  · rcases hy with hy | hy
    · by_contra hne
      have : Std.Symm fun x y : InternalKey α × Bytes => x.1.sequence ≠ y.1.sequence := ⟨fun _ _ => Ne.symm⟩
      exact (h.order.imp fun {_ _} hlt => hlt.ne).forall hx hy hne hseq
    · exact absurd hseq (h.newer y hy x hx).ne'
  · rcases hy with hy | hy
    · exact absurd hseq (h.newer x hx y hy).ne
    · obtain ⟨level, f, hf, hxf⟩ := hx
      obtain ⟨level', g, hg, hyg⟩ := hy
      have hkey := h.valid.sequences level level' f hf g hg x hxf y hyg hu hseq
      by_cases hsame : level = level' ∧ f = g
      · -- a table is strictly sorted
        obtain ⟨rfl, rfl⟩ := hsame
        by_contra hne
        have : Std.Symm fun x y : InternalKey α × Bytes => x.1 ≠ y.1 := ⟨fun _ _ => Ne.symm⟩
        exact ((h.valid.tables level f hf).sorted.imp fun {_ _} hlt => hlt.ne).forall hxf hyg hne hkey
      · exact absurd hkey (h.valid.layers.key_ne hf hg (fun hl hfg => hsame ⟨hl, hfg⟩) hxf hyg)

theorem Good.unique (h : S.Good) : StampsUnique S.versions := by
  rintro w ⟨x, hx, hw⟩ w' ⟨y, hy, hw'⟩ hkey hstamp
  obtain ⟨hu, hseq, -⟩ := stampedOf_some hw
  obtain ⟨hu', hseq', -⟩ := stampedOf_some hw'
  have hxy := h.eq_of_sequence hx hy (hu.symm.trans (hkey.trans hu')) (hseq.symm.trans (hstamp.trans hseq'))
  rw [hxy, hw'] at hw
  exact (Option.some.inj hw).symm

/-- Only the version's files and what is in them matter. -/
theorem entries_congr (hunflushed : ∀ x, x ∈ S'.unflushed ↔ x ∈ S.unflushed)
    (hfiles : S'.version.files = S.version.files)
    (hcontents : ∀ level, ∀ f ∈ S.version.files level, S'.contents f.number = S.contents f.number) :
    S'.entries = S.entries := by
  ext x
  refine or_congr (hunflushed x) ?_
  unfold InTables
  rw [hfiles]
  constructor
  · rintro ⟨level, f, hf, hx⟩
    exact ⟨level, f, hf, hcontents level f hf ▸ hx⟩
  · rintro ⟨level, f, hf, hx⟩
    exact ⟨level, f, hf, (hcontents level f hf).symm ▸ hx⟩

/-- What a snapshot shows of all sources, put in order. -/
theorem Good.live_eq (h : S.Good) {Ls : List (List (InternalKey α × Bytes))}
    (hmem : ∀ x, x ∈ S.entries ↔ ∃ L ∈ Ls, x ∈ L) (s : Nat) (u : α) :
    live s u (mergeAll Ls) = view S.versions s u :=
  live_eq_view hmem h.unique s u

/-- More entries in the memtable, newer than all others. -/
theorem Good.push (h : S.Good) {more : List (InternalKey α × Bytes)}
    (horder : more.Pairwise fun x y => x.1.sequence < y.1.sequence)
    (hnewer : ∀ x ∈ S.entries, ∀ y ∈ more, x.1.sequence < y.1.sequence)
    (hparses : ∀ x ∈ more, (parseInternalKey x.1).isSome) :
    Good { S with unflushed := S.unflushed ++ more } ∧
      ({ S with unflushed := S.unflushed ++ more } : Sources α).versions =
        S.versions ∪ versionsOf {x | x ∈ more} := by
  have hentries : ({ S with unflushed := S.unflushed ++ more } : Sources α).entries =
      S.entries ∪ {x | x ∈ more} := by
    ext x
    simp only [entries, InTables, List.mem_append, Set.mem_union, Set.mem_ofPred_eq]
    exact or_right_comm
  refine ⟨⟨h.valid, ?_, fun y hy x hx => ?_, ?_, h.largest⟩, ?_⟩
  · exact List.pairwise_append.2 ⟨h.order, horder, fun x hx y hy => hnewer x (Or.inl hx) y hy⟩
  · rcases List.mem_append.1 hx with hx | hx
    · exact h.newer y hy x hx
    · exact hnewer y (Or.inr hy) x hx
  · rw [hentries]
    rintro x (hx | hx)
    · exact h.parses x hx
    · exact hparses x hx
  · rw [versions, hentries, versionsOf_union]
    rfl

/-- Of the contents only those of the version's files matter. -/
theorem Good.congr (h : S.Good) {contents : UInt64 → List (InternalKey α × Bytes)}
    (hcontents : ∀ level, ∀ f ∈ S.version.files level, contents f.number = S.contents f.number) :
    Good { S with contents } ∧ ({ S with contents } : Sources α).versions = S.versions := by
  have hentries : ({ S with contents } : Sources α).entries = S.entries :=
    entries_congr (fun _ => Iff.rfl) rfl hcontents
  refine ⟨⟨h.valid.congr rfl hcontents, h.order, ?_, ?_, fun level f hf => ?_⟩, ?_⟩
  · rintro y ⟨level, f, hf, hy⟩
    exact h.newer y ⟨level, f, hf, hcontents level f hf ▸ hy⟩
  · rw [hentries]
    exact h.parses
  · dsimp only
    rw [hcontents level f hf]
    exact h.largest level f hf
  · rw [versions, hentries]
    rfl

end Sources

/-! ## Batches -/

/-- The writes of a batch. -/
def writesOf (batch : List (α × ValueType × Bytes)) : List (α × Option Bytes) :=
  batch.map fun w => (w.1, w.2.1.written w.2.2)

omit [LinearOrder α] in
theorem stampedOf_pack (u : α) (n : Nat) (t : ValueType) (v : Bytes) :
    stampedOf (⟨u, packSequenceAndType n t⟩, v) = some ⟨u, n, t.written v⟩ := by
  have hparse : parseInternalKey (⟨u, packSequenceAndType n t⟩ : InternalKey α) = some ⟨u, n, t⟩ := by
    unfold parseInternalKey packSequenceAndType
    cases t with
    | deletion => simp [ValueType.toNat]
    | value =>
      have hmod : (n * 256 + 1) % 256 = 1 := by omega
      have hdiv : (n * 256 + 1) / 256 = n := by omega
      simp [ValueType.toNat, hmod, hdiv]
  rw [stampedOf, hparse, Option.map_some]

omit [LinearOrder α] in
theorem insertInto_cons (n : Nat) (w : α × ValueType × Bytes) (batch : List (α × ValueType × Bytes)) :
    Database.insertInto n (w :: batch) =
      (⟨w.1, packSequenceAndType n w.2.1⟩, w.2.2) :: Database.insertInto (n + 1) batch := by
  obtain ⟨u, t, v⟩ := w
  unfold Database.insertInto
  rw [List.zipIdx_cons, List.map_cons, List.zipIdx_succ, List.map_map]
  refine congrArg₂ _ (by simp) (List.map_congr_left fun e _ => ?_)
  obtain ⟨⟨u', t', v'⟩, i⟩ := e
  simp only [Function.comp_apply]
  rw [Nat.add_right_comm, Nat.add_assoc]

omit [LinearOrder α] in
/-- The entries of a batch record its writes, one after the other. -/
theorem versionsOf_insertInto (n : Nat) (batch : List (α × ValueType × Bytes)) :
    versionsOf {x | x ∈ Database.insertInto n batch} = {w | w ∈ stamp n (writesOf batch)} := by
  induction batch generalizing n with
  | nil =>
    ext w
    simp [versionsOf, Database.insertInto, writesOf, stamp]
  | cons b batch ih =>
    have hcons : {x | x ∈ Database.insertInto n (b :: batch)} =
        {(⟨b.1, packSequenceAndType n b.2.1⟩, b.2.2)} ∪ {x | x ∈ Database.insertInto (n + 1) batch} := by
      ext x
      simp [insertInto_cons]
    rw [hcons, versionsOf_union, ih]
    ext w
    simp only [versionsOf, Set.mem_union, Set.mem_ofPred_eq, Set.mem_singleton_iff, exists_eq_left, stampedOf_pack,
      writesOf, List.map_cons, stamp, List.mem_cons, Option.some.injEq]
    rw [eq_comm]

omit [LinearOrder α] in
theorem parses_insertInto {n : Nat} {batch : List (α × ValueType × Bytes)} {x : InternalKey α × Bytes}
    (hx : x ∈ Database.insertInto n batch) : (parseInternalKey x.1).isSome := by
  obtain ⟨⟨⟨u, t, v⟩, i⟩, -, rfl⟩ := List.mem_map.1 hx
  exact (stampedOf_some (stampedOf_pack u (n + i) t v)).2.2

end LevelDbSurf
