import LevelDbSurf.StoredTables

/-!
# Log files and what they show

The log files from the log number on hold what is not in tables (`recordsFrom`). Their records are in order (`InOrder`),
so what tables show with them is what the records write, one after the other (`shows_records`).
-/

namespace LevelDbSurf

open Versions

variable {α : Type} [LinearOrder α]

/-! ## Files -/

/-- The records of the log files from this number on. -/
def recordsFrom (logNumber : UInt64) (logs : List (LogFile α)) : List (LoggedBatch α) :=
  (logs.filter fun log => decide (logNumber ≤ log.number)).flatMap (·.records)

section Files
variable {logs more : List (LogFile α)} {number : UInt64}

omit [LinearOrder α] in
@[simp] theorem recordsFrom_append (number : UInt64) (logs more : List (LogFile α)) :
    recordsFrom number (logs ++ more) = recordsFrom number logs ++ recordsFrom number more := by
  rw [recordsFrom, List.filter_append, List.flatMap_append]
  rfl

omit [LinearOrder α] in
theorem recordsFrom_cons (number : UInt64) (log : LogFile α) (logs : List (LogFile α)) :
    recordsFrom number (log :: logs) =
      (if number ≤ log.number then log.records else []) ++ recordsFrom number logs := by
  by_cases hle : number ≤ log.number <;> simp [recordsFrom, hle]

omit [LinearOrder α] in
theorem recordsFrom_singleton {log : LogFile α} (h : number ≤ log.number) :
    recordsFrom number [log] = log.records := by
  rw [recordsFrom, List.filter_singleton, decide_eq_true h]
  exact List.flatMap_singleton ..

omit [LinearOrder α] in
theorem recordsFrom_eq_nil (h : ∀ log ∈ logs, log.number < number) : recordsFrom number logs = [] := by
  have hnone : logs.filter (fun log => decide (number ≤ log.number)) = [] := by
    refine List.filter_eq_nil_iff.2 fun log hlog => ?_
    simpa using h log hlog
  rw [recordsFrom, hnone, List.flatMap_nil]

omit [LinearOrder α] in
/-- Log files that do not count may go. -/
theorem recordsFrom_filter {p : LogFile α → Bool} (h : ∀ log ∈ logs, number ≤ log.number → p log = true) :
    recordsFrom number (logs.filter p) = recordsFrom number logs := by
  unfold recordsFrom
  rw [List.filter_filter]
  refine congrArg _ (List.filter_congr fun log hlog => ?_)
  by_cases hle : number ≤ log.number
  · simp [hle, h log hlog hle]
  · simp [hle]

omit [LinearOrder α] in
/-- Log files that are made anew are empty. -/
theorem recordsFrom_new (number : UInt64) (numbers : List UInt64) :
    recordsFrom number (numbers.map fun n => ({ number := n } : LogFile α)) = [] := by
  rw [recordsFrom, List.flatMap_eq_nil_iff]
  intro log hlog
  obtain ⟨n, -, rfl⟩ := List.mem_map.1 (List.mem_of_mem_filter hlog)
  rfl

omit [LinearOrder α] in
theorem liveLogs_eq (hsorted : logs.Pairwise fun a b => a.number < b.number) (hpos : ∀ log ∈ logs, 0 < log.number) :
    liveLogs number 0 logs = logs.filter fun log => decide (number ≤ log.number) := by
  have hfilter : (logs.filter fun log => decide (number ≤ log.number) || decide (log.number = 0)) =
      logs.filter fun log => decide (number ≤ log.number) := by
    refine List.filter_congr fun log hlog => ?_
    have hne : log.number ≠ 0 := (UInt64.ne_of_lt (hpos log hlog)).symm
    simp [hne]
  unfold liveLogs
  rw [hfilter]
  refine List.mergeSort_of_pairwise ((hsorted.filter _).imp fun {a b} hlt => ?_)
  exact decide_eq_true (UInt64.le_of_lt hlt)

omit [LinearOrder α] in
/-- The file is not there yet. -/
theorem newLogFile_eq (h : ∀ log ∈ logs, log.number < number) :
    newLogFile number logs = logs ++ [{ number := number }] := by
  unfold newLogFile
  rw [List.filter_eq_self.2 fun log hlog => by simpa using UInt64.ne_of_lt (h log hlog)]

end Files

/-! ## Records -/

open Recovering DurableDatabase

/-- The sequence numbers of the records follow each other, up to this one. -/
structure InOrder (records : List (LoggedBatch α)) (latest : Nat) : Prop where
  order : records.Pairwise fun r r' => r.sequence + r.batch.length ≤ r'.sequence
  bounds : ∀ r ∈ records, 0 < r.sequence ∧ r.sequence + r.batch.length ≤ latest + 1

section Records
variable {records more : List (LoggedBatch α)} {latest : Nat}

omit [LinearOrder α] in
theorem InOrder.sublist (h : InOrder records latest) (hsub : more.Sublist records) : InOrder more latest :=
  ⟨h.order.sublist hsub, fun r hr => h.bounds r (hsub.subset hr)⟩

omit [LinearOrder α] in
theorem InOrder.mono (h : InOrder records latest) {latest' : Nat} (hle : latest ≤ latest') :
    InOrder records latest' :=
  ⟨h.order, fun r hr => ⟨(h.bounds r hr).1, (h.bounds r hr).2.trans (Nat.succ_le_succ hle)⟩⟩

omit [LinearOrder α] in
/-- One more record. -/
theorem InOrder.concat (h : InOrder records latest) {r : LoggedBatch α} (hr : r.sequence = latest + 1) :
    InOrder (records ++ [r]) (latest + r.batch.length) := by
  refine ⟨List.pairwise_append.2 ⟨h.order, List.pairwise_singleton _ _, fun a ha b hb => ?_⟩, fun a ha => ?_⟩
  · rw [List.mem_singleton.1 hb, hr]
    exact (h.bounds a ha).2
  · rcases List.mem_append.1 ha with ha | ha
    · have := h.bounds a ha
      omega
    · rw [List.mem_singleton.1 ha]
      omega

omit [LinearOrder α] in
/-- An entry is one of a record. -/
theorem mem_entriesOf {x : InternalKey α × Bytes} :
    x ∈ entriesOf records ↔ ∃ r ∈ records, x ∈ r.entries := List.mem_flatMap

omit [LinearOrder α] in
theorem InOrder.entries_order (h : InOrder records latest) :
    (entriesOf records).Pairwise fun x y => x.1.sequence < y.1.sequence := by
  refine List.pairwise_flatMap.2 ⟨fun r _ => Database.insertInto_sorted _ _, h.order.imp fun {r r'} hle => ?_⟩
  intro x hx y hy
  have hx := Database.mem_insertInto hx
  have hy := Database.mem_insertInto hy
  omega

omit [LinearOrder α] in
theorem InOrder.entries_bounds (h : InOrder records latest) (hlast : latest ≤ kMaxSequenceNumber)
    {x : InternalKey α × Bytes} (hx : x ∈ entriesOf records) : x.1.InFormat ∧ x.1.sequence ≤ latest := by
  obtain ⟨r, hr, hx⟩ := mem_entriesOf.1 hx
  obtain ⟨-, hlt, htag⟩ := Database.mem_insertInto hx
  have hr := (h.bounds r hr).2
  refine ⟨htag.trans ?_, by omega⟩
  unfold packSequenceAndType
  omega

omit [LinearOrder α] in
theorem parses_entriesOf {x : InternalKey α × Bytes} (hx : x ∈ entriesOf records) : (parseInternalKey x.1).isSome := by
  obtain ⟨r, -, hx⟩ := mem_entriesOf.1 hx
  exact parses_insertInto hx

omit [LinearOrder α] in
theorem writesOf_length (batch : WriteBatch α) : (writesOf batch).length = batch.length := List.length_map _

/-- One more record, for the map. -/
theorem mapOf_concat (journal : List (LoggedBatch α)) (r : LoggedBatch α) :
    mapOf (journal ++ [r]) = putAll (mapOf journal) (writesOf r.batch) := by
  unfold mapOf putAll
  rw [List.flatMap_append, List.flatMap_singleton, List.foldl_append]

/-- **Records come to a store** that is older. -/
theorem shows_records {E : Set (Stamped α Bytes)} {flushed : List (LoggedBatch α)} (h : Shows E (mapOf flushed))
    (hE : StampsUnique E) (horder : InOrder records latest)
    (hnewer : ∀ w ∈ E, ∀ r ∈ records, w.stamp < r.sequence) :
    Shows (E ∪ versionsOf {x | x ∈ entriesOf records}) (mapOf (flushed ++ records)) := by
  induction records generalizing E flushed with
  | nil =>
    have hnone : versionsOf {x : InternalKey α × Bytes | x ∈ entriesOf []} = ∅ := by
      ext w
      simp [versionsOf, entriesOf]
    rwa [hnone, Set.union_empty, List.append_nil]
  | cons r records ih =>
    obtain ⟨hafter, hrest⟩ := List.pairwise_cons.1 horder.order
    have hpos := (horder.bounds r List.mem_cons_self).1
    obtain ⟨n, hn⟩ : ∃ n, r.sequence = n + 1 := ⟨r.sequence - 1, by omega⟩
    have hsplit : E ∪ versionsOf {x | x ∈ entriesOf (r :: records)} =
        (E ∪ {w | w ∈ stamp (n + 1) (writesOf r.batch)}) ∪ versionsOf {x | x ∈ entriesOf records} := by
      have hcons : {x | x ∈ entriesOf (r :: records)} =
          {x | x ∈ Database.insertInto r.sequence r.batch} ∪ {x | x ∈ entriesOf records} := by
        ext x
        simp [entriesOf, LoggedBatch.entries]
      rw [hcons, versionsOf_union, versionsOf_insertInto, hn, Set.union_assoc]
    have hle : ∀ w ∈ E, w.stamp ≤ n := by
      intro w hw
      have := hnewer w hw r List.mem_cons_self
      omega
    have hlt : ∀ w ∈ E, ∀ w' ∈ {w | w ∈ stamp (n + 1) (writesOf r.batch)}, w.stamp < w'.stamp :=
      fun w hw w' hw' => Nat.lt_of_lt_of_le (Nat.lt_succ_of_le (hle w hw)) (stamp_bounds hw').1
    rw [hsplit, List.append_cons]
    refine ih ?_ (hE.union_newer (stamp_unique _ _) hlt)
      ⟨hrest, fun r' hr' => horder.bounds r' (List.mem_cons_of_mem _ hr')⟩ ?_
    · rw [mapOf_concat]
      exact h.union_stamp hE hle _
    · rintro w (hw | hw) r' hr'
      · exact hnewer w hw r' (List.mem_cons_of_mem _ hr')
      · have hw := (stamp_bounds hw).2
        rw [writesOf_length] at hw
        have := hafter r' hr'
        omega

end Records

end LevelDbSurf
