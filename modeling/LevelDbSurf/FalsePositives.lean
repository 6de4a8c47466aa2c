import LevelDbSurf.QueryEvents

/-!
# The `false_positive` flag

`RecordQueryEvent` derives it from the counter of opened blocks and the final status. The filters were
wrong about something else: a block they passed of a table without the key. A lookup goes on over tables
that miss the key until one answers, so the two agree iff those misses settle the matter
(`FlagExact`, `falsePositive_exact_iff`).
-/

namespace LevelDbSurf

open Cursors

variable {α : Type} [LinearOrder α]

section Blocks
variable [Slice α] [Coding] [TableFormat]

/-- `KeyMayMatch` was true of the block, of a filter its table has. -/
def ConsultedBlock.passed (b : ConsultedBlock α) : Bool :=
  match b.table.filter, decodeFrom b.handleValue with
  | some filter, .ok handle => filter.keyMayMatch handle.offset b.key.encode
  | _, _ => false

/-- The filter passed the block although its table holds no entry of the key. -/
def ConsultedBlock.FalsePositive (b : ConsultedBlock α) : Prop :=
  b.passed = true ∧ ∀ x ∈ b.table.entries, x.1.userKey ≠ b.key.userKey

instance (b : ConsultedBlock α) : Decidable b.FalsePositive := inferInstanceAs (Decidable (_ ∧ _))

omit [LinearOrder α] in
theorem ConsultedBlock.not_rejected {b : ConsultedBlock α} (h : b.passed = true) : b.rejected = false := by
  unfold passed at h
  unfold rejected Table.filterRejects
  cases hf : b.table.filter with
  | none => simp [hf] at h
  | some filter =>
    cases hd : decodeFrom b.handleValue with
    | error s => simp [hd] at h
    | ok handle => simpa [hf, hd] using h

/-! ## Answers and misses -/

/-- What a file answers a lookup with: the newest entry of the key, unless the filter rejects its block. -/
def TableCache.answer (cache : TableCache α) (u : α) (s : Nat) (f : FileMetaData α) :
    Option (InternalKey α × Bytes) :=
  match cache.consulted (lookupKey u s) f with
  | some (t, handleValue) => if t.filterRejects handleValue (lookupKey u s) then none else newest s u t.entries
  | none => none

namespace Version

/-- The first answer of the files that may hold the key. -/
def answer (v : Version α) (cache : TableCache α) (u : α) (s : Nat) : Option (InternalKey α × Bytes) :=
  (v.candidates u (lookupKey u s)).findSome? fun c => cache.answer u s c.2

/-- The files before it. -/
def misses (v : Version α) (cache : TableCache α) (u : α) (s : Nat) : List (FileMetaData α) :=
  ((v.candidates u (lookupKey u s)).takeWhile fun c => (cache.answer u s c.2).isNone).map (·.2)

/-- The blocks under the index iterators of the misses. -/
def missedBlocks (v : Version α) (cache : TableCache α) (u : α) (s : Nat) : List (ConsultedBlock α) :=
  (v.misses cache u s).filterMap fun f => (cache.consulted (lookupKey u s) f).map fun b =>
    { table := b.1, handleValue := b.2, key := lookupKey u s }

/-- When the flag says what it means. If the answer is a value: no miss is a false positive. If it is a deletion
marker: some miss is. If there is none: some miss is, or every block was rejected. -/
def FlagExact (v : Version α) (cache : TableCache α) (u : α) (s : Nat) : Prop :=
  match v.answer cache u s with
  | some d => (liveValue d).isSome = true ↔ ¬ ∃ b ∈ v.missedBlocks cache u s, b.FalsePositive
  | none => (∃ b ∈ v.missedBlocks cache u s, b.FalsePositive) ∨ ∀ b ∈ v.missedBlocks cache u s, b.rejected = true

end Version

end Blocks

/-! ## Lookups by answers -/

section Lookups
variable [Slice α] [Coding] [TableFormat] {cache : TableCache α} {v : Version α}

/-- A lookup in one file hands the saver its answer. -/
theorem TableCache.get_answer {f : FileMetaData α} {t : Table α} (h : Serves cache f t)
    (hparse : ∀ x ∈ t.entries, (parseInternalKey x.1).isSome) (s : Nat) (saver : Saver α)
    (options : ReadOptions α) (metrics : Option MetricsCounters) :
    ∃ m, cache.get options f.number f.fileSize (lookupKey saver.userKey s) saver saveValue metrics =
      (.ok, (cache.answer saver.userKey s f).elim saver saver.answered, m) := by
  have hconsulted : cache.consulted (lookupKey saver.userKey s) f =
      (t.consultedBlock (lookupKey saver.userKey s)).map fun handleValue => (t, handleValue) := by
    unfold consulted
    rw [h.found]
  unfold answer
  rw [hconsulted]
  cases hb : t.indexBlock[seekPos t.indexBlock (lookupKey saver.userKey s)]? with
  | none =>
    have hblock : t.consultedBlock (lookupKey saver.userKey s) = none := by
      simp [Table.consultedBlock, BlockIter.current_seek, hb]
    refine ⟨metrics, ?_⟩
    rw [hblock, get, h.found]
    simp [Table.internalGet, BlockIter.current_seek, BlockIter.status_seek, hb, Status.isOk]
  | some e =>
    have hblock : t.consultedBlock (lookupKey saver.userKey s) = some e.2 := by
      simp [Table.consultedBlock, BlockIter.current_seek, hb]
    rw [hblock]
    by_cases hr : t.filterRejects e.2 (lookupKey saver.userKey s) = true
    · refine ⟨metrics.map MetricsCounters.countPruned, ?_⟩
      rw [get, h.found]
      simp [Table.internalGet, Table.consultBlock, BlockIter.current_seek, BlockIter.status_seek, hb, hr, Status.isOk]
    · obtain ⟨m, hm⟩ := TableCache.get_eq h hparse s saver (fun e' he' hr' => by
        rw [hb] at he'
        cases he'
        exact absurd hr' hr) options metrics
      exact ⟨m, by simpa [hr] using hm⟩

/-- The candidates of a readable version answer. -/
theorem Version.Readable.get_answer (hr : v.Readable cache)
    (hparse : ∀ level, ∀ f ∈ v.files level, ∀ x ∈ fileEntries cache f, (parseInternalKey x.1).isSome) (u : α) (s : Nat)
    (options : ReadOptions α) :
    ∀ c ∈ v.candidates u (lookupKey u s), ∀ saver : Saver α, saver.userKey = u → ∀ metrics, ∃ m,
      cache.get options c.2.number c.2.fileSize (lookupKey u s) saver saveValue metrics =
        (.ok, (cache.answer u s c.2).elim saver saver.answered, m) := by
  rintro ⟨level, f⟩ hc saver rfl metrics
  have hfile := (Version.mem_candidates hc).1
  obtain ⟨t, ht⟩ := hr level f hfile
  exact TableCache.get_answer ht (by rw [← ht.entries]; exact hparse level f hfile) s saver options metrics

/-- **The files visited** are the misses and the one that answers. -/
theorem Version.visited_eq {options : ReadOptions α} {u : α} {s : Nat} {value : Bytes}
    (hget : ∀ c ∈ v.candidates u (lookupKey u s), ∀ saver : Saver α, saver.userKey = u → ∀ metrics, ∃ m,
      cache.get options c.2.number c.2.fileSize (lookupKey u s) saver saveValue metrics =
        (.ok, (cache.answer u s c.2).elim saver saver.answered, m)) :
    v.visited cache options u s value = v.misses cache u s ++
      (((v.candidates u (lookupKey u s)).find? fun c => (cache.answer u s c.2).isSome).map (·.2)).toList := by
  have hcollect := visit_collect (fun c : Nat × FileMetaData α => cache.answer u s c.2) []
    (v.candidates u (lookupKey u s))
  have hvisited : v.visited cache options u s value = ((visit (fun log c => (log ++ [c], (cache.answer u s c.2).isNone))
      ([] : List (Nat × FileMetaData α)) (v.candidates u (lookupKey u s))).1).map (·.2) := by
    unfold visited
    dsimp only
    rw [forEachOverlapping_eq]
    refine visit_rel
      (R := fun (st : GetState α × List (FileMetaData α)) (log : List (Nat × FileMetaData α)) =>
        st.1.Searching u value ∧ st.2 = log.map (·.2))
      (T := fun (st : GetState α × List (FileMetaData α)) log => st.2 = log.map (·.2)) (fun _ _ h => h.2) ?_
      ⟨⟨rfl, rfl⟩, rfl⟩
    rintro ⟨level, f⟩ hc ⟨state, files⟩ log ⟨⟨hsaver, hfound⟩, rfl⟩
    dsimp only at hsaver hfound ⊢
    obtain ⟨m, hm⟩ := hget _ hc state.saver (by rw [hsaver]) state.metrics
    obtain ⟨hafter, hgo⟩ := state.matchFile_of_get (by rw [hsaver]) hfound hm level
    refine ⟨hgo, by simp, fun hnone => ⟨?_, by simp⟩⟩
    rw [Option.isNone_iff_eq_none] at hnone
    dsimp only at hafter hnone
    rw [hnone] at hafter
    have hsearching := GetState.Searching.after ⟨hsaver, hfound⟩ level f
    exact ⟨(congrArg GetState.saver hafter).trans hsearching.1, (congrArg GetState.found hafter).trans hsearching.2⟩
  rw [hvisited, hcollect, misses]
  cases (v.candidates u (lookupKey u s)).find? fun c => (cache.answer u s c.2).isSome <;> simp

/-- The blocks looked at are those of the misses, and of the file that answers. -/
theorem Version.consulted_cases {options : ReadOptions α} {u : α} {s : Nat}
    (hget : ∀ c ∈ v.candidates u (lookupKey u s), ∀ saver : Saver α, saver.userKey = u → ∀ metrics, ∃ m,
      cache.get options c.2.number c.2.fileSize (lookupKey u s) saver saveValue metrics =
        (.ok, (cache.answer u s c.2).elim saver saver.answered, m)) (value : Bytes) :
    match v.answer cache u s with
    | none => GetCall.consulted cache { version := v, options, userKey := u, sequence := s, value } =
        v.missedBlocks cache u s
    | some d => ∃ t handleValue, newest s u t.entries = some d ∧ t.filterRejects handleValue (lookupKey u s) = false ∧
        GetCall.consulted cache { version := v, options, userKey := u, sequence := s, value } =
          v.missedBlocks cache u s ++ [{ table := t, handleValue, key := lookupKey u s }] := by
  have hblocks : ∀ files : List (FileMetaData α), ((files.filterMap (cache.consulted (lookupKey u s))).map fun b =>
      ({ table := b.1, handleValue := b.2, key := lookupKey u s } : ConsultedBlock α)) =
        files.filterMap fun f => (cache.consulted (lookupKey u s) f).map fun b =>
          { table := b.1, handleValue := b.2, key := lookupKey u s } := fun files => List.map_filterMap
  unfold GetCall.consulted Version.consulted missedBlocks
  dsimp only
  rw [visited_eq hget, hblocks, List.filterMap_append]
  cases ha : v.answer cache u s with
  | none =>
    have hnone : (v.candidates u (lookupKey u s)).find? (fun c => (cache.answer u s c.2).isSome) = none := by
      simpa [answer] using ha
    simp [hnone]
  | some d =>
    obtain ⟨c, hfind, hanswer⟩ := find?_of_findSome? ha
    dsimp only at hanswer ⊢
    unfold TableCache.answer at hanswer
    cases hc : cache.consulted (lookupKey u s) c.2 with
    | none => simp [hc] at hanswer
    | some b =>
      obtain ⟨t, handleValue⟩ := b
      by_cases hr : t.filterRejects handleValue (lookupKey u s) = true
      · simp [hc, hr] at hanswer
      · exact ⟨t, handleValue, by simpa [hc, hr] using hanswer, by simpa using hr, by simp [hfind, hc]⟩

/-- The key is found iff the answer is a value. -/
theorem Version.get_isOk {options : ReadOptions α} {u : α} {s : Nat} {value : Bytes}
    (hget : ∀ c ∈ v.candidates u (lookupKey u s), ∀ saver : Saver α, saver.userKey = u → ∀ metrics, ∃ m,
      cache.get options c.2.number c.2.fileSize (lookupKey u s) saver saveValue metrics =
        (.ok, (cache.answer u s c.2).elim saver saver.answered, m)) (metrics : Option MetricsCounters) :
    (v.get cache options u s value metrics).status.isOk = ((v.answer cache u s).bind liveValue).isSome := by
  have hsearch := Version.forEachOverlapping_answers options u s value metrics hget
  have hfound := congrArg GetState.found hsearch
  have hs := congrArg GetState.s hsearch
  simp only [GetState.uncounted] at hfound hs
  have hstatus : (v.get cache options u s value metrics).status =
      if (v.search (cache.answer u s) u s value).found then (v.search (cache.answer u s) u s value).s
      else .notFound "" := by
    rw [← hfound, ← hs]
    rfl
  obtain ⟨hnone, hsome⟩ := v.search_ends (cache.answer u s) u s value
  rw [hstatus]
  cases ha : v.answer cache u s with
  | none => simp [(hnone ha).2, Status.isOk]
  | some d =>
    obtain ⟨-, hfound', hs'⟩ := hsome d ha
    rw [hfound', hs']
    cases hd : liveValue d <;> simp [hd, Status.isOk]

end Lookups

/-! ## The flag -/

section Flag
variable [Slice α] [Coding] [TableFormat]

/-- The data blocks a read consults. -/
def DBImpl.consulted (db : DBImpl α) (key : α) (value : Bytes) : List (ConsultedBlock α) :=
  GetCall.consulted db.tableCache { version := db.current, userKey := key, sequence := db.lastSequence, value }

omit [LinearOrder α] in
/-- A block was opened iff one was not rejected. -/
theorem opened_pos_iff (blocks : List (ConsultedBlock α)) :
    0 < (MetricsCounters.countAll {} (blocks.map ConsultedBlock.rejected)).opened ↔
      ∃ b ∈ blocks, b.rejected = false := by
  rw [MetricsCounters.countAll_opened]
  simp only [Int.zero_add, Int.natCast_pos, List.count_pos_iff, List.mem_map]

/-- **A read the memtables do not answer.** -/
theorem DBImpl.pointGet_tables {db : DBImpl α} {key : α} (hmem : db.memtablesGet key db.lastSequence = none)
    (hr : db.current.Readable db.tableCache)
    (hparse : ∀ level, ∀ f ∈ db.current.files level, ∀ x ∈ fileEntries db.tableCache f, (parseInternalKey x.1).isSome)
    (value : Bytes) :
    db.pointGet key value = (((db.current.answer db.tableCache key db.lastSequence).bind liveValue).isSome,
      MetricsCounters.countAll {} ((db.consulted key value).map ConsultedBlock.rejected)) := by
  have hget := hr.get_answer hparse key db.lastSequence {}
  have hcounters := GetCall.countersAfter_eq db.tableCache
    [{ version := db.current, userKey := key, sequence := db.lastSequence, value }] (some {})
  have hsnapshot : db.snapshotOf {} = db.lastSequence := rfl
  unfold pointGet DBImpl.get
  rw [hsnapshot]
  dsimp only
  rw [hmem]
  dsimp only
  rw [Version.get_isOk hget]
  refine Prod.ext rfl ?_
  dsimp only
  simp only [GetCall.countersAfter, List.foldl_cons, List.foldl_nil, List.flatMap_cons, List.flatMap_nil,
    List.append_nil, Option.map_some] at hcounters
  rw [hcounters]
  rfl

/-- The flag says that a block was opened and no value found. -/
theorem DBImpl.pointGetEvent_falsePositive (db : DBImpl α) (queryId : UInt64) (filterType benchmarkName : String)
    (key : α) (value : Bytes) (start finish : Int) :
    (db.pointGetEvent queryId filterType benchmarkName key value start finish).falsePositive = some true ↔
      0 < (db.pointGet key value).2.opened ∧ (db.pointGet key value).1 = false := by
  unfold pointGetEvent queryEvent
  simp

/-- **What the flag means.** In any state of the database whose tables can be read, for a key the memtables do not
answer: the flag is set exactly when the filter of a table without the key has passed a block the read looked
at, if and only if `FlagExact` holds of the tables. -/
theorem falsePositive_exact_iff (db : DBImpl α) (key : α) (hmem : db.memtablesGet key db.lastSequence = none)
    (hr : db.current.Readable db.tableCache)
    (hparse : ∀ level, ∀ f ∈ db.current.files level, ∀ x ∈ fileEntries db.tableCache f, (parseInternalKey x.1).isSome)
    (queryId : UInt64) (filterType benchmarkName : String) (value : Bytes) (start finish : Int) :
    ((db.pointGetEvent queryId filterType benchmarkName key value start finish).falsePositive = some true ↔
        ∃ b ∈ db.consulted key value, b.FalsePositive) ↔
      db.current.FlagExact db.tableCache key db.lastSequence := by
  have hblocks := Version.consulted_cases (hr.get_answer hparse key db.lastSequence {}) value
  rw [DBImpl.pointGetEvent_falsePositive, DBImpl.pointGet_tables hmem hr hparse, opened_pos_iff]
  unfold Version.FlagExact
  cases ha : db.current.answer db.tableCache key db.lastSequence with
  | none =>
    rw [ha] at hblocks
    have hconsulted : db.consulted key value = db.current.missedBlocks db.tableCache key db.lastSequence := hblocks
    rw [hconsulted]
    simp only [Option.bind_none, Option.isSome_none, and_true]
    constructor
    · intro h
      by_cases hall : ∀ b ∈ db.current.missedBlocks db.tableCache key db.lastSequence, b.rejected = true
      · exact Or.inr hall
      · obtain ⟨b, hb, hopen⟩ : ∃ b ∈ db.current.missedBlocks db.tableCache key db.lastSequence, b.rejected = false := by
          simpa using hall
        exact Or.inl (h.1 ⟨b, hb, hopen⟩)
    · intro h
      rcases h with hfalse | hall
      · obtain ⟨b, hb, hpassed, -⟩ := id hfalse
        exact ⟨fun _ => hfalse, fun _ => ⟨b, hb, ConsultedBlock.not_rejected hpassed⟩⟩
      · constructor
        · rintro ⟨b, hb, hopen⟩
          simp [hall b hb] at hopen
        · rintro ⟨b, hb, hpassed, -⟩
          have := ConsultedBlock.not_rejected hpassed
          simp [hall b hb] at this
  | some d =>
    rw [ha] at hblocks
    obtain ⟨t, handleValue, hnewest, hopen, hblocks⟩ := hblocks
    have hconsulted : db.consulted key value = _ := hblocks
    -- the block of the answer is opened, and its table has the key
    have hnot : ¬ ConsultedBlock.FalsePositive
        ({ table := t, handleValue, key := lookupKey key db.lastSequence } : ConsultedBlock α) := by
      rintro ⟨-, habsent⟩
      obtain ⟨hmem', hsees⟩ := mem_of_newest hnewest
      exact habsent d hmem' (userKey_of_sees hsees)
    have hopened : ∃ b ∈ db.consulted key value, b.rejected = false :=
      ⟨{ table := t, handleValue, key := lookupKey key db.lastSequence }, by simp [hconsulted], hopen⟩
    have hfalse : (∃ b ∈ db.consulted key value, b.FalsePositive) ↔
        ∃ b ∈ db.current.missedBlocks db.tableCache key db.lastSequence, b.FalsePositive := by
      rw [hconsulted]
      simp [hnot]
    rw [hfalse]
    simp only [hopened, true_and, Option.bind_some]
    cases liveValue d <;> simp

end Flag

/-! ### A marker behind a filter, and a table without one -/

namespace SampleFlag

/-- `a` was deleted: the marker is in a table with a filter. The table below has none; it holds an older `a`, and `b`. -/
def db [Coding] : DBImpl Bytes where
  mem := []
  imm := none
  current := SampleLookup.version
  lastSequence := 3
  tableCache := SampleLookup.cache

end SampleFlag

/-- A read of `a`: the filter was right to pass the block of the marker. A read of a key between `a` and `b`: no
filter was asked. Both events call it a false positive. -/
theorem falsePositive_not_filter :
    letI := littleEndian
    letI := smallHandles
    ((SampleFlag.db.pointGetEvent 0 "surf" "readrandom" [97] [] 0 5).falsePositive = some true ∧
        ¬ ∃ b ∈ SampleFlag.db.consulted [97] [], b.FalsePositive) ∧
      (SampleFlag.db.pointGetEvent 0 "surf" "readrandom" [97, 0] [] 0 5).falsePositive = some true ∧
        ¬ ∃ b ∈ SampleFlag.db.consulted [97, 0] [], b.FalsePositive := by
  decide +kernel

theorem falsePositive_exact_iff_sample :
    letI := littleEndian
    letI := smallHandles
    ((SampleFlag.db.pointGetEvent 0 "surf" "readrandom" [97] [] 0 5).falsePositive = some true ↔
        ∃ b ∈ SampleFlag.db.consulted [97] [], b.FalsePositive) ↔
      SampleFlag.db.current.FlagExact SampleFlag.db.tableCache [97] SampleFlag.db.lastSequence := by
  let _ := littleEndian
  let _ := smallHandles
  exact falsePositive_exact_iff SampleFlag.db [97] rfl SampleLookup.searchable.readable SampleLookup.searchable.parses
    0 "surf" "readrandom" [] 0 5

end LevelDbSurf
