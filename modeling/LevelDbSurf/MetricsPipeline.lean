import LevelDbSurf.MetricsFile

/-!
# Threads that record query events, and the file they leave (`db_bench.cc:652-708`, `metrics-parser.js`)

| here | there |
| --- | --- |
| `CString`              | a `const char*`: a string without a zero character |
| `QueryCall`            | the arguments of a call of `RecordQueryEvent`; the key bounds are UTF-8 |
| `Recording.step`       | the next step of a thread: the id, with the line made for it, or `WriteLine` under `metrics_mu_` |

Threads take turns in any order. Nothing is written between the two steps of a call by the thread itself, and
anything by the others.
-/

namespace LevelDbSurf

open Json Doubles

/-- A string that ends at its first zero. -/
structure CString where
  text : String
  noZero : '\x00' ∉ text.toList

/-- A call of `RecordQueryEvent`. The counters are of type `int`. -/
structure QueryCall where
  benchmarkName : CString
  queryType : CString
  lo : Option (List Char)
  hi : Option (List Char)
  actualMatch : Bool
  latencyUs : Int
  timestampUs : Int
  counters : Option MetricsCounters
  counters_int : ∀ c ∈ counters, |c.considered| ≤ 2 ^ 31 ∧ |c.pruned| ≤ 2 ^ 31 ∧ |c.opened| ≤ 2 ^ 31

namespace QueryCall

/-- The event, under an id. -/
def event (filter : CString) (call : QueryCall) (queryId : UInt64) : QueryEvent :=
  queryEvent queryId filter.text call.benchmarkName.text call.queryType.text (call.lo.map utf8) (call.hi.map utf8)
    call.actualMatch call.latencyUs call.timestampUs call.counters

/-- What is read of it. -/
def json (filter : CString) (call : QueryCall) (queryId : UInt64) : Value :=
  (call.event filter queryId).json call.lo call.hi

/-- The characters of its line. -/
def lineChars (filter : CString) (call : QueryCall) (queryId : UInt64) : List Char :=
  (call.event filter queryId).lineChars call.lo call.hi

theorem event_eq (filter : CString) (call : QueryCall) (queryId : UInt64) :
    call.event filter queryId =
      { queryId
        benchmarkName := call.benchmarkName.text
        filterType := filter.text
        queryType := call.queryType.text
        latencyUs := call.latencyUs
        timestampUs := call.timestampUs
        queryLo := call.lo.map utf8
        queryHi := call.hi.map utf8
        actualMatch := call.actualMatch
        filterMayMatch := (call.event filter queryId).filterMayMatch
        falsePositive := (call.event filter queryId).falsePositive
        sstables := call.counters } := by
  unfold event queryEvent
  dsimp only
  cases call.counters with
  | none => rfl
  | some counters => dsimp only; split_ifs <;> rfl

theorem line_event (filter : CString) (call : QueryCall) (queryId : UInt64) :
    (call.event filter queryId).line = utf8 (call.lineChars filter queryId) :=
  QueryEvent.line_eq _ _ _ (by rw [event_eq]) (by rw [event_eq])

/-- The value under a key. -/
def field (v : Value) (key : String) : Option Value := v.get (units key.toList)

/-- What is read says what was recorded, under this id. -/
structure Tells (filter : CString) (call : QueryCall) (k : Nat) (v : Value) : Prop where
  queryId : field v "query_id" = some (.number (.finite k))
  benchmarkName : field v "benchmark_name" = some (.string (units call.benchmarkName.text.toList))
  filterType : field v "filter_type" = some (.string (units filter.text.toList))
  queryType : field v "query_type" = some (.string (units call.queryType.text.toList))
  queryLo : field v "query_lo" = call.lo.map fun text => .string (units text)
  queryHi : field v "query_hi" = call.hi.map fun text => .string (units text)
  actualMatch : field v "actual_match" = some (.bool call.actualMatch)
  filterMayMatch : field v "filter_may_match" = (call.event filter (UInt64.ofNat k)).filterMayMatch.map .bool
  falsePositive : field v "false_positive" = (call.event filter (UInt64.ofNat k)).falsePositive.map .bool
  considered : field v "sstables_considered" = call.counters.map fun counters => .number (.finite counters.considered)
  pruned : field v "sstables_pruned" = call.counters.map fun counters => .number (.finite counters.pruned)
  opened : field v "sstables_opened" = call.counters.map fun counters => .number (.finite counters.opened)

/-- **What is read** is what was recorded: the id is a double, and so are the counters. -/
theorem json_tells (filter : CString) (call : QueryCall) {k : Nat} (hk : k ≤ 2 ^ 53) :
    Tells filter call k (call.json filter (UInt64.ofNat k)) := by
  have hid : Number.round ((UInt64.ofNat k).toNat : ℚ) = .finite k := by
    rw [UInt64.toNat_ofNat_of_lt' (hk.trans_lt (by decide))]
    exact Number.round_intCast (n := k) (by rw [abs_of_nonneg (by omega)]; omega)
  have hcounters : ∀ c ∈ call.counters, Number.round c.considered = .finite c.considered ∧
      Number.round c.pruned = .finite c.pruned ∧ Number.round c.opened = .finite c.opened := by
    intro c hc
    obtain ⟨h₁, h₂, h₃⟩ := call.counters_int c hc
    have hle : (2 : Int) ^ 31 ≤ 2 ^ 53 := by norm_num
    exact ⟨Number.round_intCast (h₁.trans hle), Number.round_intCast (h₂.trans hle), Number.round_intCast (h₃.trans hle)⟩
  have hget {key : String} (hkey : key ∈ eventKeys) :=
    QueryEvent.get_json (call.event filter (UInt64.ofNat k)) call.lo call.hi hkey
  constructor <;> rw [field, json, hget (by decide), event_eq]
  case queryId => rw [if_pos rfl, hid]
  case considered =>
    simp only [String.reduceEq, if_false, if_true]
    exact Option.map_congr fun c hc => by rw [(hcounters c hc).1]
  case pruned =>
    simp only [String.reduceEq, if_false, if_true]
    exact Option.map_congr fun c hc => by rw [(hcounters c hc).2.1]
  case opened =>
    simp only [String.reduceEq, if_false]
    exact Option.map_congr fun c hc => by rw [(hcounters c hc).2.2]
  all_goals simp

end QueryCall

/-! ## The threads -/

variable {ι : Type} [DecidableEq ι]

/-- The benchmark while its threads record: the next id, the file, for each thread the line it has made and not
written yet, and the calls it has before it. -/
structure Recording (ι : Type) where
  nextQueryId : UInt64 := 0
  file : Bytes := []
  waiting : ι → Option Bytes := fun _ => none
  todo : ι → List QueryCall

namespace Recording

/-- The next step of a thread. -/
def step (filter : CString) (s : Recording ι) (i : ι) : Recording ι :=
  match s.waiting i with
  | some line => { s with file := writeLine s.file line, waiting := Function.update s.waiting i none }
  | none =>
    match s.todo i with
    | [] => s
    | call :: rest =>
      { s with
        nextQueryId := s.nextQueryId + 1
        waiting := Function.update s.waiting i (some (call.event filter s.nextQueryId).line)
        todo := Function.update s.todo i rest }

section Step
variable {filter : CString} {s : Recording ι} {i : ι}

theorem step_of_waiting {line : Bytes} (h : s.waiting i = some line) :
    s.step filter i = { s with file := writeLine s.file line, waiting := Function.update s.waiting i none } := by
  simp only [step, h]

theorem step_of_nil (h : s.waiting i = none) (htodo : s.todo i = []) : s.step filter i = s := by
  simp only [step, h, htodo]

theorem step_of_cons {call : QueryCall} {rest : List QueryCall} (h : s.waiting i = none)
    (htodo : s.todo i = call :: rest) :
    s.step filter i =
      { s with
        nextQueryId := s.nextQueryId + 1
        waiting := Function.update s.waiting i (some (call.event filter s.nextQueryId).line)
        todo := Function.update s.todo i rest } := by
  simp only [step, h, htodo]

end Step

/-- Turns of the threads in some order. -/
def run (filter : CString) (s : Recording ι) (schedule : List ι) : Recording ι := schedule.foldl (step filter) s

/-- Every call has returned. -/
def Done (s : Recording ι) : Prop := ∀ i, s.waiting i = none ∧ s.todo i = []

/-- What a recording has come to, told by its history: the calls in the order of their ids, those whose line is
written, and those whose line waits. -/
structure Inv (filter : CString) (calls : ι → List QueryCall) (order : List (ι × QueryCall))
    (written : List (QueryCall × Nat)) (pending : List (ι × QueryCall × Nat)) (s : Recording ι) : Prop where
  nextQueryId : s.nextQueryId = UInt64.ofNat order.length
  file : s.file = utf8 (written.flatMap fun w => w.1.lineChars filter (UInt64.ofNat w.2) ++ ['\n'])
  todo : ∀ i, (order.filter fun o => o.1 = i).map Prod.snd ++ s.todo i = calls i
  nodup : (pending.map Prod.fst).Nodup
  waiting : ∀ i line, s.waiting i = some line ↔
    ∃ p, (i, p) ∈ pending ∧ line = utf8 (p.1.lineChars filter (UInt64.ofNat p.2))
  perm : (written ++ pending.map Prod.snd).Perm (order.zipIdx.map fun o => (o.1.2, o.2))

variable {filter : CString} {calls : ι → List QueryCall} {order : List (ι × QueryCall)}
  {written : List (QueryCall × Nat)} {pending : List (ι × QueryCall × Nat)} {s : Recording ι} {schedule : List ι}

omit [DecidableEq ι] in
/-- At the start nothing has happened. -/
theorem inv_start [DecidableEq ι] (filter : CString) (calls : ι → List QueryCall) :
    Inv filter calls [] [] [] { todo := calls } where
  nextQueryId := rfl
  file := rfl
  todo _ := rfl
  nodup := List.nodup_nil
  waiting i line := by simp
  perm := .refl _

/-- **One step.** -/
theorem Inv.step (h : Inv filter calls order written pending s) (i : ι) :
    ∃ order' written' pending', Inv filter calls order' written' pending' (s.step filter i) := by
  cases hwaiting : s.waiting i with
  | some line =>
    rw [step_of_waiting hwaiting]
    -- the line is written, and does not wait any longer
    obtain ⟨p, hp, rfl⟩ := (h.waiting i line).1 hwaiting
    obtain ⟨front, back, rfl⟩ := List.append_of_mem hp
    have hnodup := h.nodup
    rw [List.map_append, List.map_cons, List.nodup_middle, List.nodup_cons, ← List.map_append] at hnodup
    refine ⟨order, written ++ [p], front ++ back, h.nextQueryId, ?_, h.todo, hnodup.2, ?_, ?_⟩
    · have hprintable : Printable (p.1.lineChars filter (UInt64.ofNat p.2)) :=
        QueryEvent.printable_lineChars _ _ _
      rw [hprintable.writeLine, h.file, ← utf8_append, List.flatMap_append, List.flatMap_singleton]
    · intro j line
      by_cases hj : j = i
      · subst hj
        simp only [Function.update_self]
        have hnot : ∀ q, (j, q) ∉ front ++ back := by
          intro q hq
          exact hnodup.1 (List.mem_map.2 ⟨(j, q), hq, rfl⟩)
        simp only [reduceCtorEq, false_iff, not_exists, not_and]
        exact fun q hq => absurd hq (hnot q)
      · simp only [Function.update_of_ne hj, h.waiting]
        simp [hj]
    · refine List.Perm.trans ?_ h.perm
      rw [List.append_assoc, List.map_append, List.map_append, List.map_cons, List.singleton_append]
      exact (List.perm_middle.symm).append_left written
  | none =>
    cases htodo : s.todo i with
    | nil =>
      rw [step_of_nil hwaiting htodo]
      exact ⟨order, written, pending, h⟩
    | cons call rest =>
      rw [step_of_cons hwaiting htodo]
      -- the call gets the next id
      have hnot : i ∉ pending.map Prod.fst := by
        intro hmem
        obtain ⟨⟨j, p⟩, hp, rfl⟩ := List.mem_map.1 hmem
        have hsome := (h.waiting j _).2 ⟨p, hp, rfl⟩
        rw [hwaiting] at hsome
        cases hsome
      refine ⟨order ++ [(i, call)], written, (i, call, order.length) :: pending, ?_, h.file, ?_, ?_, ?_, ?_⟩
      · rw [h.nextQueryId, List.length_append, List.length_singleton, UInt64.ofNat_add]
        rfl
      · intro j
        by_cases hj : j = i
        · subst hj
          simp only [Function.update_self, ← h.todo j, htodo]
          simp
        · simp only [Function.update_of_ne hj, ← h.todo j]
          simp [Ne.symm hj]
      · exact List.nodup_cons.2 ⟨hnot, h.nodup⟩
      · intro j line
        by_cases hj : j = i
        · subst hj
          have hpending : ∀ q, (j, q) ∉ pending := fun q hq => hnot (List.mem_map_of_mem (f := Prod.fst) hq)
          simp only [Function.update_self, h.nextQueryId, QueryCall.line_event]
          simp [hpending, eq_comm]
        · simp only [Function.update_of_ne hj, h.waiting]
          simp [hj]
      · rw [List.zipIdx_append, List.map_append]
        refine List.Perm.trans ?_ (h.perm.append_right _)
        have htail : ([(i, call)].zipIdx (0 + order.length)).map (fun o => (o.1.2, o.2)) = [(call, order.length)] := by
          simp
        rw [htail, List.map_cons, List.append_assoc]
        exact (List.perm_append_singleton _ _).symm.append_left written

/-- **A run.** -/
theorem Inv.run (h : Inv filter calls order written pending s) (schedule : List ι) :
    ∃ order' written' pending', Inv filter calls order' written' pending' (s.run filter schedule) := by
  induction schedule generalizing order written pending s with
  | nil => exact ⟨order, written, pending, h⟩
  | cons i schedule ih =>
    obtain ⟨order', written', pending', h'⟩ := h.step i
    exact ih h'

/-- When every call has returned the file holds a line for each, in the order in which the lines were written. -/
theorem Done.file (hdone : Done (Recording.run filter { todo := calls } schedule)) :
    ∃ (order : List (ι × QueryCall)) (written : List (QueryCall × Nat)),
      (∀ i, (order.filter fun o => o.1 = i).map Prod.snd = calls i) ∧
      written.Perm (order.zipIdx.map fun o => (o.1.2, o.2)) ∧
      (Recording.run filter { todo := calls } schedule).file =
        utf8 (written.flatMap fun w => w.1.lineChars filter (UInt64.ofNat w.2) ++ ['\n']) := by
  obtain ⟨order, written, pending, h⟩ := (inv_start filter calls).run schedule
  have hpending : pending = [] := by
    rw [List.eq_nil_iff_forall_not_mem]
    rintro ⟨i, p⟩ hp
    have hsome := (h.waiting i _).2 ⟨p, hp, rfl⟩
    rw [(hdone i).1] at hsome
    cases hsome
  refine ⟨order, written, fun i => ?_, ?_, h.file⟩
  · have htodo := h.todo i
    rwa [(hdone i).2, List.append_nil] at htodo
  · have hperm := h.perm
    rwa [hpending, List.map_nil, List.append_nil] at hperm

/-- Each call is a call of one thread. -/
theorem length_eq_sum [Fintype ι] (order : List (ι × QueryCall)) :
    order.length = ∑ i, ((order.filter fun o => o.1 = i).map Prod.snd).length := by
  induction order with
  | nil => simp
  | cons o order ih =>
    have hcons : ∀ i, (((o :: order).filter fun o => o.1 = i).map Prod.snd).length =
        (if o.1 = i then 1 else 0) + ((order.filter fun o => o.1 = i).map Prod.snd).length := by
      intro i
      by_cases hi : o.1 = i
      · simp [hi, Nat.add_comm]
      · simp [hi]
    simp only [hcons, Finset.sum_add_distrib, Finset.sum_ite_eq, Finset.mem_univ, if_true, ← ih, List.length_cons]
    omega

/-- There is a byte for each call at least, the end of its line. -/
theorem length_le_utf8 {α : Type} (chars : α → List Char) (xs : List α) :
    xs.length ≤ (utf8 (xs.flatMap fun x => chars x ++ ['\n'])).length := by
  induction xs with
  | nil => simp
  | cons x xs ih =>
    have hnewline : (utf8 ['\n']).length = 1 := by decide
    rw [List.flatMap_cons, utf8_append, utf8_append, List.length_append, List.length_append, List.length_cons, hnewline]
    omega

/-- **The pipeline** loses and invents nothing: if the engine makes a string of a file of so many bytes, there is one
event for each call, and it tells what was recorded. -/
theorem parseJsonlFile_run [Fintype ι] (engine : Engine) (filter : CString) (calls : ι → List QueryCall)
    (schedule : List ι) (hdone : Done (Recording.run filter { todo := calls } schedule))
    (hfits : (Recording.run filter { todo := calls } schedule).file.length ≤ engine.maxFileLength) :
    let parsed := parseJsonlFile engine (.content (Recording.run filter { todo := calls } schedule).file)
    parsed.malformedLines = 0 ∧ parsed.totalLines = ∑ i, (calls i).length ∧
    (parsed.events.map fun v => QueryCall.field v "query_id").Perm
      ((List.range (∑ i, (calls i).length)).map fun k : Nat => some (.number (.finite k))) ∧
    ∃ order : List (ι × QueryCall), (∀ i, (order.filter fun o => o.1 = i).map Prod.snd = calls i) ∧
      parsed.events.Perm (order.zipIdx.map fun o => o.1.2.json filter (UInt64.ofNat o.2)) ∧
      ∀ o ∈ order.zipIdx, QueryCall.Tells filter o.1.2 o.2 (o.1.2.json filter (UInt64.ofNat o.2)) := by
  obtain ⟨order, written, horder, hperm, hfile⟩ := hdone.file
  rw [hfile] at hfits
  have hlength : written.length = order.length := by
    rw [hperm.length_eq, List.length_map, List.length_zipIdx]
  have hsum : order.length = ∑ i, (calls i).length := by
    rw [length_eq_sum order]
    exact Finset.sum_congr rfl fun i _ => by rw [horder i]
  have hparsed := parseJsonlFile_lines (fun w : QueryCall × Nat => w.1.lineChars filter (UInt64.ofNat w.2))
    (fun w => w.1.json filter (UInt64.ofNat w.2)) written (fun w _ => QueryEvent.oneLine_lineChars _ _ _)
    (fun w _ => QueryEvent.parse_lineChars _ _ _) hfits
  have hevents : (written.map fun w => w.1.json filter (UInt64.ofNat w.2)).Perm
      (order.zipIdx.map fun o => o.1.2.json filter (UInt64.ofNat o.2)) := by
    have h := hperm.map fun w => w.1.json filter (UInt64.ofNat w.2)
    rwa [List.map_map] at h
  -- there are no more calls than bytes, so that every id is a double
  have htells : ∀ o ∈ order.zipIdx, QueryCall.Tells filter o.1.2 o.2 (o.1.2.json filter (UInt64.ofNat o.2)) := by
    intro o ho
    have hindex : o.2 < order.length := List.snd_lt_of_mem_zipIdx ho
    have hmax := engine.maxFileLength_lt
    have hbytes := (length_le_utf8 _ written).trans hfits
    exact QueryCall.json_tells filter o.1.2 (by omega)
  have hids : (order.zipIdx.map fun o => QueryCall.field (o.1.2.json filter (UInt64.ofNat o.2)) "query_id") =
      (List.range order.length).map fun k : Nat => some (.number (.finite k)) := by
    rw [List.map_congr_left fun o ho => (htells o ho).queryId, List.range_eq_range', ← List.zipIdx_map_snd 0 order,
      List.map_map]
    rfl
  dsimp only
  rw [hfile, hparsed]
  refine ⟨rfl, hlength.trans hsum, ?_, order, horder, hevents, htells⟩
  have h := hevents.map fun v => QueryCall.field v "query_id"
  rwa [List.map_map (l := order.zipIdx), Function.comp_def, hids, hsum] at h

/-- A scan of two keys with no counters. -/
def quotedScan : QueryCall where
  benchmarkName := ⟨"scan\nrandom", by simp⟩
  queryType := ⟨"range_scan", by simp⟩
  lo := some ['"', '\x00']
  hi := some ['\\', 'é']
  actualMatch := true
  latencyUs := 3
  timestampUs := 7
  counters := some { considered := 4, pruned := 1, opened := 3 }
  counters_int := by
    intro c hc
    obtain rfl := Option.some.inj hc
    simp

/-- Node, on a machine of 64 bits. -/
def node : Engine where
  maxFileLength := 2 ^ 29 - 25
  maxFileLength_lt := by norm_num
  replacing _ := []

/-- `--filter=surf`. -/
def surf : CString := ⟨"surf", by simp⟩

/-- Two threads, each between the two steps of the other. -/
theorem parseJsonlFile_run_two :
    let s := Recording.run surf { todo := fun _ : Bool => [quotedScan] } [true, false, false, true]
    let parsed := parseJsonlFile node (.content s.file)
    Done s ∧ parsed.malformedLines = 0 ∧ parsed.totalLines = 2 := by
  have hdone : Done (Recording.run surf { todo := fun _ : Bool => [quotedScan] } [true, false, false, true]) := by
    intro i
    cases i <;> simp [Recording.run, step]
  have h := parseJsonlFile_run node surf (fun _ : Bool => [quotedScan]) [true, false, false, true] hdone ?_
  · exact ⟨hdone, h.1, h.2.1⟩
  · have hprintable (k : UInt64) : Printable (quotedScan.lineChars surf k) :=
      QueryEvent.printable_lineChars _ _ _
    have hfile : (Recording.run surf { todo := fun _ : Bool => [quotedScan] }
        [true, false, false, true]).file = utf8 (quotedScan.lineChars surf 1 ++ ['\n'] ++
          (quotedScan.lineChars surf 0 ++ ['\n'])) := by
      simp only [Recording.run, List.foldl_cons, List.foldl_nil]
      simp [step, QueryCall.line_event, (hprintable _).writeLine, ← utf8_append]
    rw [hfile]
    decide +kernel

/-- A thread alone needs two steps for each call. -/
theorem done_of_alone (filter : CString) (todo : List QueryCall) {s : Recording Unit} (hwaiting : s.waiting () = none)
    (htodo : s.todo () = todo) : Done (s.run filter (List.replicate (2 * todo.length) ())) := by
  induction todo generalizing s with
  | nil => exact fun _ => ⟨hwaiting, htodo⟩
  | cons call rest ih =>
    have hfirst : s.step filter () = _ := step_of_cons hwaiting htodo
    have hline : (s.step filter ()).waiting () = some (call.event filter s.nextQueryId).line := by simp [hfirst]
    have hsecond : (s.step filter ()).step filter () = _ := step_of_waiting hline
    refine ih (s := (s.step filter ()).step filter ()) ?_ ?_
    · rw [hsecond]
      simp
    · rw [hsecond]
      simp [hfirst]

/-- A file that is too long gives no event. -/
theorem parseJsonlFile_of_too_long {engine : Engine} {file : Bytes}
    (h : engine.maxFileLength < file.length) :
    parseJsonlFile engine (.content file) = {} := by
  have hread : engine.readFileSync file = none := if_neg (not_le.2 h)
  rw [parseJsonlFile, hread]

/-- `2 ^ 29` scans. -/
theorem parseJsonlFile_run_too_long :
    let s := Recording.run surf { todo := fun _ : Unit => List.replicate (2 ^ 29) quotedScan }
      (List.replicate (2 * 2 ^ 29) ())
    Done s ∧ (parseJsonlFile node (.content s.file)).events = [] ∧
      (parseJsonlFile node (.content s.file)).totalLines ≠ 2 ^ 29 := by
  intro s
  have hdone : Done s := by
    have h := done_of_alone surf (List.replicate (2 ^ 29) quotedScan)
      (s := { todo := fun _ => List.replicate (2 ^ 29) quotedScan }) rfl rfl
    rwa [List.length_replicate] at h
  obtain ⟨order, written, horder, hperm, hfile⟩ := hdone.file
  have hlength : written.length = 2 ^ 29 := by
    rw [hperm.length_eq, List.length_map, List.length_zipIdx, length_eq_sum order,
      Finset.sum_congr rfl fun i _ => by rw [horder i], Finset.univ_unique, Finset.sum_singleton, List.length_replicate]
  have hlong : node.maxFileLength < s.file.length := by
    have hbytes := length_le_utf8 (fun w : QueryCall × Nat => w.1.lineChars surf (UInt64.ofNat w.2)) written
    rw [hlength] at hbytes
    rw [hfile]
    exact lt_of_lt_of_le (by norm_num [node]) hbytes
  rw [parseJsonlFile_of_too_long hlong]
  exact ⟨hdone, rfl, by norm_num⟩

end Recording

end LevelDbSurf
