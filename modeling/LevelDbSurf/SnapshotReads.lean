import LevelDbSurf.MapRefinement

/-!
# What a read returns

A read of the database is a read of the map it stands for. It sees the copy that was made when it began, or that its
snapshot is: all of a batch or nothing of it, nothing written later, and nothing lost, whatever flushes, moves and
compactions there have been since, and while they are under way.
-/

namespace LevelDbSurf

open Cursors Versions

variable {α : Type} [LinearOrder α]

section Reads
variable [Slice α] [Coding] [TableFormat]

/-- **`Get` reads the map.** In every run of a database opened without users, at every moment, `Get` through the
memtables and the version a reader has referenced answers with the copy of the map the reader has. -/
theorem SharedDatabase.get_refines_map (env : Environment α) (rawOptions : Options)
    (hP : ∀ P, rawOptions.filterPolicy = some P → P.AcceptsAdded) (cache : TableCache α)
    (hcache : cache.options = sanitizeOptions rawOptions) {db : Database α} (hdb : db.Intact)
    (hidle : db.running = none) (hlast : db.lastSequence < kMaxSequenceNumber) {events : List (SharedEvent α)}
    {states : List (SharedDatabase α × MapStore α Bytes)} (hclear : (opened db).ClearRun env events)
    (hrun : (opened db).run env { current := view db.sources.versions db.lastSequence } events = some states)
    {s : SharedDatabase α} {m : MapStore α Bytes} (hs : (s, m) ∈ states) {r : Reader α} (hr : r ∈ s.readers)
    (hserved : (s.readerSources r).Served cache rawOptions.filterPolicy) :
    ∃ copy, m.reader r.handle = some copy ∧
      ∀ (options : ReadOptions α), options.snapshot.getD r.snapshot = r.snapshot →
      ∀ u value metrics,
        (((s.readerImpl r cache).get options u value metrics).status,
          ((s.readerImpl r cache).get options u value metrics).value) = answerOf value (copy u) := by
  have hrefines := (refines_opened hdb hidle hlast).run hclear hrun (s, m) hs
  obtain ⟨copy, hcopy, hpinned⟩ := hrefines.reader hr
  refine ⟨copy, hcopy, fun options hoptions u value metrics => ?_⟩
  have hsequence : (s.readerImpl r cache).snapshotOf options = r.snapshot := hoptions
  rw [DBImpl.get_eq_view rawOptions hP hcache hpinned.good (hpinned.reads cache) hserved options u value metrics,
    hsequence, hpinned.shows]

/-- **Iterators show the map.** An iterator without bounds over what a reader has referenced is a cursor over the
reader's copy: its keys in order, each once, with their values. -/
theorem SharedDatabase.newIterator_refines_map (env : Environment α) (M : Merger (InternalKey α) Bytes)
    (D : DBIterators α) (userPolicy : Option FilterPolicy) (cache : TableCache α) {db : Database α}
    (hdb : db.Intact) (hidle : db.running = none) (hlast : db.lastSequence < kMaxSequenceNumber)
    {events : List (SharedEvent α)} {states : List (SharedDatabase α × MapStore α Bytes)}
    (hclear : (opened db).ClearRun env events)
    (hrun : (opened db).run env { current := view db.sources.versions db.lastSequence } events = some states)
    {s : SharedDatabase α} {m : MapStore α Bytes} (hs : (s, m) ∈ states) {r : Reader α} (hr : r ∈ s.readers)
    (hserved : (s.readerSources r).Served cache userPolicy) :
    ∃ copy, m.reader r.handle = some copy ∧
      ∀ (options : ReadOptions α), options.snapshot.getD r.snapshot = r.snapshot →
      bounded options.lo options.hi = false → ∀ metrics, ∃ L : List (α × Bytes),
        (s.readerImpl r cache).newIterator M D.newDBIterator options metrics = cursor L ∧
          (L.Pairwise fun x y => x.1 < y.1) ∧ ∀ u v, (u, v) ∈ L ↔ copy u = some v := by
  have hrefines := (refines_opened hdb hidle hlast).run hclear hrun (s, m) hs
  obtain ⟨copy, hcopy, hpinned⟩ := hrefines.reader hr
  refine ⟨copy, hcopy, fun options hoptions hbounds metrics => ?_⟩
  obtain ⟨L, hcursor, hsorted, hmem⟩ := DBImpl.newIterator_eq_view M D hpinned.good (hpinned.reads cache) hserved
    options hbounds metrics
  have hsequence : (s.readerImpl r cache).snapshotOf options = r.snapshot := hoptions
  refine ⟨L, hcursor, hsorted, fun u v => ?_⟩
  rw [hmem, hsequence, hpinned.shows]

end Reads

/-! ### A deletion while a read is under way -/

namespace SampleReader

/-- The two tables of the lookup, and nothing in memory. -/
def db : Database Bytes where
  vset :=
    { options := {}
      tableCache := OneBlock.cache {} fun _ => none
      current := SampleLookup.version }
  contents number := if number = 7 then [SampleLookup.deletedA] else [SampleLookup.oldA, SampleLookup.entryB]
  nextFileNumber := 9
  lastSequence := 3

def env : Environment Bytes := { score := fun _ _ => 0, fileSize := fun _ => 0, finishedSize := fun _ => 0 }

/-- `b` is read from the tables by a reader who came before its deletion. -/
def events : List (SharedEvent Bytes) :=
  [.beginRead 1 none, .beginWrite [([98], .deletion, [])], .insert, .endWrite]

open SampleLookup in
theorem mem_contents {level : Nat} {f : FileMetaData Bytes} (hf : f ∈ version.files level)
    {x : InternalKey Bytes × Bytes} (hx : x ∈ db.contents f.number) :
    (level = 0 ∧ f = fileMarker ∧ x = deletedA) ∨ (level = 1 ∧ f = fileOld ∧ (x = oldA ∨ x = entryB)) := by
  rcases mem_files hf with ⟨rfl, rfl⟩ | ⟨rfl, rfl⟩
  · exact Or.inl ⟨rfl, rfl, List.mem_singleton.1 hx⟩
  · have hcontents : db.contents fileOld.number = [oldA, entryB] := rfl
    rw [hcontents] at hx
    exact Or.inr ⟨rfl, rfl, by simpa using hx⟩

open SampleLookup in
theorem validVersion : ValidVersion db.contents db.vset.current := by
  refine ⟨⟨fun level => ?_, fun level hl => ?_⟩, fun level hl => ?_, ⟨?_, ?_⟩, ?_, ?_, ?_⟩
  · match level with
    | 0 => exact List.pairwise_singleton _ _
    | 1 => exact List.pairwise_singleton _ _
    | _ + 2 => exact List.Pairwise.nil
  · match level with
    | _ + 7 => rfl
  · match level with
    | 1 => exact List.pairwise_singleton _ _
    | _ + 2 => exact List.Pairwise.nil
  · intro level level' hlt f hf g hg x hx y hy
    rcases mem_contents hf hx with ⟨rfl, rfl, rfl⟩ | ⟨rfl, rfl, -⟩
    · rcases mem_contents hg hy with ⟨rfl, -⟩ | ⟨rfl, rfl, rfl | rfl⟩
      · omega
      · decide
      · decide
    · rcases mem_contents hg hy with ⟨rfl, -⟩ | ⟨rfl, -⟩ <;> omega
  · intro f hf g hg hlt
    obtain rfl : f = fileMarker := List.mem_singleton.1 hf
    obtain rfl : g = fileMarker := List.mem_singleton.1 hg
    exact absurd hlt (UInt64.lt_irrefl _)
  · intro level f hf
    rcases mem_files hf with ⟨rfl, rfl⟩ | ⟨rfl, rfl⟩
    · have hcontents : db.contents fileMarker.number = [deletedA] := rfl
      rw [hcontents]
      exact ⟨List.pairwise_singleton _ _, by decide, by decide, by decide⟩
    · have hcontents : db.contents fileOld.number = [oldA, entryB] := rfl
      rw [hcontents]
      exact ⟨List.pairwise_pair.2 (by decide), by decide, by decide, by decide⟩
  · intro level level' f hf g hg hn
    rcases mem_files hf with ⟨rfl, rfl⟩ | ⟨rfl, rfl⟩ <;> rcases mem_files hg with ⟨rfl, rfl⟩ | ⟨rfl, rfl⟩ <;>
      first | rfl | cases hn
  · intro level level' f hf g hg x hx y hy
    rcases mem_contents hf hx with ⟨-, -, rfl⟩ | ⟨-, -, rfl | rfl⟩ <;>
      rcases mem_contents hg hy with ⟨-, -, rfl⟩ | ⟨-, -, rfl | rfl⟩ <;> decide

open SampleLookup in
theorem intact : db.Intact := by
  have hparses : ∀ {x}, db.InTables x → (parseInternalKey x.1).isSome ∧ x.1.sequence ≤ 3 := by
    rintro x ⟨level, f, hf, hx⟩
    rcases mem_contents hf hx with ⟨-, -, rfl⟩ | ⟨-, -, rfl | rfl⟩ <;> decide
  refine ⟨⟨validVersion, by rintro f ⟨⟩, ⟨List.Pairwise.nil, by rintro x ⟨⟩, fun y hy => (hparses hy).2,
    by rintro y - x ⟨⟩, by decide⟩, ⟨by decide, fun level f hf => ?_⟩, by rintro r ⟨⟩⟩, ?_, fun level f hf => ?_,
    by rintro r ⟨⟩⟩
  · rcases mem_files hf with ⟨rfl, rfl⟩ | ⟨rfl, rfl⟩ <;> decide
  · rintro x (hx | hx)
    · cases hx
    · exact (hparses hx).1
  · rcases mem_files hf with ⟨rfl, rfl⟩ | ⟨rfl, rfl⟩
    · exact ⟨deletedA, by decide, rfl⟩
    · exact ⟨entryB, by decide, rfl⟩

/-! The states of the run. -/

def reader : Reader Bytes := ⟨1, 3, 1, none, SampleLookup.version⟩

def reading : SharedDatabase Bytes := { SharedDatabase.opened db with readers := [reader] }

def writing : SharedDatabase Bytes := (reading.beginWrite [([98], .deletion, [])]).getD reading

def inserted : SharedDatabase Bytes := writing.insert.getD writing

def deleted : SharedDatabase Bytes := inserted.endWrite.getD inserted

theorem run_eq (m : MapStore Bytes Bytes) : (SharedDatabase.opened db).run env m events =
    some [(SharedDatabase.opened db, m), (reading, m.step (.beginRead 1 none)),
      (writing, m.step (.beginRead 1 none)), (inserted, m.step (.beginRead 1 none)),
      (deleted, inserted.follow .endWrite (m.step (.beginRead 1 none)))] := rfl

theorem clearRun : (SharedDatabase.opened db).ClearRun env events := by
  refine ⟨by rintro e ⟨⟩, fun s _ => ⟨by rintro e ⟨⟩, fun s _ => ⟨by rintro e ⟨⟩, fun s _ =>
    ⟨by rintro e ⟨⟩, fun s _ => trivial⟩⟩⟩⟩

/-- What the map has for `b`. -/
theorem view_b : view db.sources.versions 3 [98] = some [2] := by
  let layers := [[SampleLookup.deletedA], [SampleLookup.oldA, SampleLookup.entryB]]
  have hlayers : ∀ x, x ∈ db.sources.entries ↔ ∃ L ∈ layers, x ∈ L := by
    intro x
    constructor
    · rintro (hx | ⟨level, f, hf, hx⟩)
      · cases hx
      · rcases mem_contents hf hx with ⟨-, -, rfl⟩ | ⟨-, -, rfl | rfl⟩ <;> simp [layers]
    · rintro ⟨L, hL, hx⟩
      rcases List.mem_cons.1 hL with rfl | hL
      · exact Or.inr ⟨0, SampleLookup.fileMarker, List.mem_singleton.2 rfl, hx⟩
      · rw [List.mem_singleton.1 hL] at hx
        exact Or.inr ⟨1, SampleLookup.fileOld, List.mem_singleton.2 rfl, hx⟩
  rw [← intact.sources_good.live_eq hlayers]
  rfl

theorem served [Coding] :
    letI := smallHandles
    (deleted.readerSources reader).Served SampleLookup.cache SampleLookup.rawOptions.filterPolicy := by
  let _ := smallHandles
  refine ⟨SampleLookup.searchable.readable, fun level f hf => ?_, SampleLookup.filterWritten⟩
  rcases SampleLookup.mem_files hf with ⟨rfl, rfl⟩ | ⟨rfl, rfl⟩
  · exact SampleLookup.entries_marker
  · exact SampleLookup.entries_old

end SampleReader

theorem SharedDatabase.get_refines_map_sample :
    letI := littleEndian
    letI := smallHandles
    (((SampleReader.deleted.readerImpl SampleReader.reader SampleLookup.cache).get {} [98] [] none).status,
      ((SampleReader.deleted.readerImpl SampleReader.reader SampleLookup.cache).get {} [98] [] none).value) =
        (.ok, [2]) := by
  let _ := littleEndian
  let _ := smallHandles
  obtain ⟨copy, hcopy, hget⟩ := SharedDatabase.get_refines_map SampleReader.env SampleLookup.rawOptions
    (by rintro P ⟨⟩; exact SampleLookup.acceptsAdded) SampleLookup.cache rfl SampleReader.intact rfl (by decide)
    SampleReader.clearRun (SampleReader.run_eq _) (List.mem_of_getLast? rfl)
    (r := SampleReader.reader) (List.mem_singleton.2 rfl) SampleReader.served
  obtain rfl : view SampleReader.db.sources.versions 3 = copy := Option.some.inj hcopy
  rw [hget {} rfl, SampleReader.view_b]
  rfl

theorem SharedDatabase.newIterator_refines_map_sample :
    letI := littleEndian
    letI := smallHandles
    ∃ ops, (SampleReader.deleted.readerImpl SampleReader.reader SampleLookup.cache).newIterator
      (Merger.ofCursors _ _) (DBIterators.ofCursors _).newDBIterator {} none ops = some ([98], [2]) := by
  let _ := littleEndian
  let _ := smallHandles
  obtain ⟨copy, hcopy, hiterator⟩ := SharedDatabase.newIterator_refines_map SampleReader.env (Merger.ofCursors _ _)
    (DBIterators.ofCursors _) SampleLookup.rawOptions.filterPolicy SampleLookup.cache SampleReader.intact rfl
    (by decide) SampleReader.clearRun (SampleReader.run_eq _) (List.mem_of_getLast? rfl)
    (r := SampleReader.reader) (List.mem_singleton.2 rfl) SampleReader.served
  obtain rfl : view SampleReader.db.sources.versions 3 = copy := Option.some.inj hcopy
  obtain ⟨L, hcursor, -, hmem⟩ := hiterator {} rfl bounded_nil none
  rw [hcursor]
  exact exists_cursor_eq.2 ((hmem _ _).2 SampleReader.view_b)

end LevelDbSurf
