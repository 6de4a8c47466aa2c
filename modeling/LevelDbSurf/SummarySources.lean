import LevelDbSurf.SummaryLoop

/-!
# Summaries are free of order and add up over sources

`summariesAddUp_iff` says for which events.
-/

namespace LevelDbSurf.Dashboard

open PlainObjects

/-! ## The order of the events -/

/-- The same summary, but for the order of the keys. -/
structure Summary.Same (s s' : Summary) : Prop where
  rest :
    { s with
      countByFilterType := {}, countByQueryType := {}, countByBenchmarkName := {}
      avgLatencyByFilterType := {}, avgLatencyByQueryType := {} } =
    { s' with
      countByFilterType := {}, countByQueryType := {}, countByBenchmarkName := {}
      avgLatencyByFilterType := {}, avgLatencyByQueryType := {} }
  countByFilterType : s.countByFilterType.own.Perm s'.countByFilterType.own
  countByQueryType : s.countByQueryType.own.Perm s'.countByQueryType.own
  countByBenchmarkName : s.countByBenchmarkName.own.Perm s'.countByBenchmarkName.own
  avgLatencyByFilterType : s.avgLatencyByFilterType.own.Perm s'.avgLatencyByFilterType.own
  avgLatencyByQueryType : s.avgLatencyByQueryType.own.Perm s'.avgLatencyByQueryType.own

theorem tally_perm {keys keys' : List String} (h : ∀ key ∈ keys, inherited key = none) (hperm : keys.Perm keys') :
    (tally keys).own.Perm (tally keys').own := by
  refine PlainObject.perm_of_lookup fun key => ?_
  by_cases hmem : key ∈ keys
  · rw [lookup_tally (h key hmem) hmem, lookup_tally (h key hmem) (hperm.mem_iff.1 hmem), hperm.count_eq]
  · rw [lookup_tally_of_not_mem hmem, lookup_tally_of_not_mem (mt hperm.mem_iff.2 hmem)]

theorem min?_perm {l l' : List ℚ} (h : l.Perm l') : l.min? = l'.min? := by
  ext a
  simp [List.min?_eq_some_iff, h.mem_iff]

theorem max?_perm {l l' : List ℚ} (h : l.Perm l') : l.max? = l'.max? := by
  ext a
  simp [List.max?_eq_some_iff, h.mem_iff]

section Order
variable {events events' : List (Event ℚ)} {t t' : Accumulators}

theorem plainNames_keys (h : ∀ event ∈ events, event.PlainNames) :
    (∀ key ∈ events.map Event.filterTypeName, inherited key = none) ∧
      (∀ key ∈ events.map Event.queryTypeName, inherited key = none) ∧
      ∀ key ∈ events.map Event.benchmarkNameName, inherited key = none := by
  simp only [List.forall_mem_map]
  exact ⟨fun event he => (h event he).filterType, fun event he => (h event he).queryType,
    fun event he => (h event he).benchmarkName⟩

/-- A permutation of the events has the same summary. -/
theorem Accumulators.Of.summary_same (ht : t.Of events) (ht' : t'.Of events') (hperm : events.Perm events')
    (hplain : ∀ event ∈ events, event.PlainNames) :
    (t.summary events.length).Same (t'.summary events'.length) := by
  obtain ⟨hfilter, hquery, hbenchmark⟩ := plainNames_keys hplain
  have hlatencies : t.latencies.Perm t'.latencies := by
    rw [ht.latencies, ht'.latencies]
    exact hperm.filterMap _
  constructor
  case rest =>
    simp only [summary, hlatencies.length_eq, average_perm hlatencies, percentile_perm hlatencies, hperm.length_eq,
      ht.falsePositives, ht'.falsePositives, ht.falsePositiveCount, ht'.falsePositiveCount, ht.actualMatches,
      ht'.actualMatches, ht.filterMayMatches, ht'.filterMayMatches, ht.totalConsidered, ht'.totalConsidered,
      ht.totalPruned, ht'.totalPruned, ht.totalOpened, ht'.totalOpened, ht.minTimestamp, ht'.minTimestamp,
      ht.maxTimestamp, ht'.maxTimestamp, hperm.countP_eq, (hperm.filterMap _).sum_eq, min?_perm (hperm.filterMap _),
      max?_perm (hperm.filterMap _)]
  case countByFilterType =>
    simp only [summary, ht.countsByFilterType, ht'.countsByFilterType]
    exact tally_perm hfilter (hperm.map _)
  case countByQueryType =>
    simp only [summary, ht.countsByQueryType, ht'.countsByQueryType]
    exact tally_perm hquery (hperm.map _)
  case countByBenchmarkName =>
    simp only [summary, ht.countByBenchmarkName, ht'.countByBenchmarkName]
    exact tally_perm hbenchmark (hperm.map _)
  case avgLatencyByFilterType =>
    exact ht.latenciesByFilterType.averages_perm ht'.latenciesByFilterType (hperm.filterMap _)
  case avgLatencyByQueryType =>
    exact ht.latenciesByQueryType.averages_perm ht'.latenciesByQueryType (hperm.filterMap _)

end Order

/-! ## The sums over the sources -/

/-- The overall summary is the sum of those of the sources. -/
structure AddsUp (overall : Summary) (sources : List Summary) : Prop where
  totalEvents : overall.totalEvents = (sources.map (·.totalEvents)).sum
  totalConsidered : overall.totalConsidered = (sources.map (·.totalConsidered)).sum
  totalPruned : overall.totalPruned = (sources.map (·.totalPruned)).sum
  totalOpened : overall.totalOpened = (sources.map (·.totalOpened)).sum
  countByFilterType : ∀ key,
    entry overall.countByFilterType key = (sources.map fun s => entry s.countByFilterType key).sum
  countByQueryType : ∀ key,
    entry overall.countByQueryType key = (sources.map fun s => entry s.countByQueryType key).sum
  countByBenchmarkName : ∀ key,
    entry overall.countByBenchmarkName key = (sources.map fun s => entry s.countByBenchmarkName key).sum
  minTimestampUs : overall.minTimestampUs = (sources.filterMap (·.minTimestampUs)).min?
  maxTimestampUs : overall.maxTimestampUs = (sources.filterMap (·.maxTimestampUs)).max?

/-- The least of the least. -/
theorem min?_flatten (parts : List (List ℚ)) : parts.flatten.min? = (parts.filterMap (·.min?)).min? := by
  ext a
  simp only [List.min?_eq_some_iff, List.mem_flatten, List.mem_filterMap]
  constructor
  · rintro ⟨⟨part, hpart, ha⟩, hle⟩
    refine ⟨⟨part, hpart, ha, fun b hb => hle b ⟨part, hpart, hb⟩⟩, ?_⟩
    rintro b ⟨part', hpart', hb, -⟩
    exact hle b ⟨part', hpart', hb⟩
  · rintro ⟨⟨part, hpart, ha, -⟩, hle⟩
    refine ⟨⟨part, hpart, ha⟩, ?_⟩
    rintro b ⟨part', hpart', hb⟩
    obtain ⟨m, hm⟩ := Option.ne_none_iff_exists'.1 (mt List.min?_eq_none_iff.1 (List.ne_nil_of_mem hb))
    obtain ⟨hmem, hmin⟩ := List.min?_eq_some_iff.1 hm
    exact (hle m ⟨part', hpart', hmem, hmin⟩).trans (hmin b hb)

/-- The greatest of the greatest. -/
theorem max?_flatten (parts : List (List ℚ)) : parts.flatten.max? = (parts.filterMap (·.max?)).max? := by
  ext a
  simp only [List.max?_eq_some_iff, List.mem_flatten, List.mem_filterMap]
  constructor
  · rintro ⟨⟨part, hpart, ha⟩, hle⟩
    refine ⟨⟨part, hpart, ha, fun b hb => hle b ⟨part, hpart, hb⟩⟩, ?_⟩
    rintro b ⟨part', hpart', hb, -⟩
    exact hle b ⟨part', hpart', hb⟩
  · rintro ⟨⟨part, hpart, ha, -⟩, hle⟩
    refine ⟨⟨part, hpart, ha⟩, ?_⟩
    rintro b ⟨part', hpart', hb⟩
    obtain ⟨m, hm⟩ := Option.ne_none_iff_exists'.1 (mt List.max?_eq_none_iff.1 (List.ne_nil_of_mem hb))
    obtain ⟨hmem, hmax⟩ := List.max?_eq_some_iff.1 hm
    exact (hmax b hb).trans (hle m ⟨part', hpart', hmem, hmax⟩)

/-- The fields of a summary that are sums over the events. -/
structure TotalsOf (events : List (Event ℚ)) (s : Summary) : Prop where
  totalEvents : s.totalEvents = events.length
  totalConsidered : s.totalConsidered = (events.filterMap (·.sstablesConsidered)).sum
  totalPruned : s.totalPruned = (events.filterMap (·.sstablesPruned)).sum
  totalOpened : s.totalOpened = (events.filterMap (·.sstablesOpened)).sum
  countByFilterType : s.countByFilterType = tally (events.map Event.filterTypeName)
  countByQueryType : s.countByQueryType = tally (events.map Event.queryTypeName)
  countByBenchmarkName : s.countByBenchmarkName = tally (events.map Event.benchmarkNameName)
  minTimestampUs : s.minTimestampUs = (events.filterMap (·.timestampUs)).min?
  maxTimestampUs : s.maxTimestampUs = (events.filterMap (·.timestampUs)).max?

theorem computeSummary_totalsOf {events : List (Event ℚ)} {s : Summary} (h : computeSummary events = .ok s) :
    TotalsOf events s := by
  obtain ⟨t, ht, rfl⟩ := computeSummary_ok h
  exact ⟨rfl, ht.totalConsidered, ht.totalPruned, ht.totalOpened, ht.countsByFilterType, ht.countsByQueryType,
    ht.countByBenchmarkName, ht.minTimestamp, ht.maxTimestamp⟩

section Parts
variable {α β γ : Type} {R : α → β → Prop} {as : List α} {bs : List β}

theorem map_eq_map_of_forall₂ (h : List.Forall₂ R as bs) {f : β → γ} {g : α → γ}
    (hR : ∀ a b, a ∈ as → R a b → f b = g a) :
    bs.map f = as.map g := by
  induction h with
  | nil => rfl
  | cons hab _ ih =>
    rw [List.map_cons, List.map_cons, hR _ _ (List.mem_cons_self ..) hab,
      ih fun a b ha => hR a b (List.mem_cons_of_mem _ ha)]

theorem filterMap_eq_filterMap_of_forall₂ (h : List.Forall₂ R as bs) {f : β → Option γ} {g : α → Option γ}
    (hR : ∀ a b, a ∈ as → R a b → f b = g a) : bs.filterMap f = as.filterMap g := by
  have hmap := congrArg (List.filterMap id) (map_eq_map_of_forall₂ h hR)
  simpa [List.filterMap_map] using hmap

theorem mapM_isOk {ε : Type} {f : α → Except ε β} (h : ∀ a ∈ as, ∃ b, f a = .ok b) :
    ∃ bs, as.mapM f = .ok bs ∧ List.Forall₂ (fun a b => f a = .ok b) as bs := by
  induction as with
  | nil => exact ⟨[], rfl, .nil⟩
  | cons a as ih =>
    obtain ⟨b, hb⟩ := h a (List.mem_cons_self ..)
    obtain ⟨bs, hbs, hall⟩ := ih fun a' ha' => h a' (List.mem_cons_of_mem a ha')
    exact ⟨b :: bs, by simp [List.mapM_cons, hb, hbs, bind, Except.bind, pure, Except.pure], .cons hb hall⟩

end Parts

section Sums
variable {events : List (Event ℚ)} {parts : List (List (Event ℚ))} {overall : Summary} {sources : List Summary}

/-- A sum over all events is the sum of the sums over the parts. -/
theorem sum_filterMap_parts (f : Event ℚ → Option ℚ) (hperm : events.Perm parts.flatten) :
    (events.filterMap f).sum = (parts.map fun part => (part.filterMap f).sum).sum := by
  rw [(hperm.filterMap f).sum_eq, List.filterMap_flatten, List.sum_flatten, List.map_map]
  rfl

theorem entry_parts {name : Event ℚ → String} (hperm : events.Perm parts.flatten)
    (hplain : ∀ key ∈ events.map name, inherited key = none) (key : String) :
    entry (tally (events.map name)) key = (parts.map fun part => entry (tally (part.map name)) key).sum := by
  have hparts : ∀ part ∈ parts, entry (tally (part.map name)) key = (part.map name).count key := by
    intro part hpart
    refine entry_tally (fun k hk => hplain k ?_) key
    obtain ⟨event, hevent, rfl⟩ := List.mem_map.1 hk
    exact List.mem_map_of_mem (hperm.mem_iff.2 (List.mem_flatten.2 ⟨part, hpart, hevent⟩))
  rw [entry_tally hplain, (hperm.map name).count_eq, List.map_flatten, List.count_flatten, List.map_map,
    List.map_congr_left hparts]
  rfl

/-- **The sums over the parts** of the events. -/
theorem addsUp_of_totalsOf (hperm : events.Perm parts.flatten) (hplain : ∀ event ∈ events, event.PlainNames)
    (hoverall : TotalsOf events overall) (hsources : List.Forall₂ TotalsOf parts sources) :
    AddsUp overall sources := by
  obtain ⟨hfilter, hquery, hbenchmark⟩ := plainNames_keys hplain
  constructor
  case totalEvents =>
    rw [hoverall.totalEvents, map_eq_map_of_forall₂ hsources fun _ _ _ h => h.totalEvents, hperm.length_eq,
      List.length_flatten]
  case totalConsidered =>
    rw [hoverall.totalConsidered, map_eq_map_of_forall₂ hsources fun _ _ _ h => h.totalConsidered,
      sum_filterMap_parts _ hperm]
  case totalPruned =>
    rw [hoverall.totalPruned, map_eq_map_of_forall₂ hsources fun _ _ _ h => h.totalPruned, sum_filterMap_parts _ hperm]
  case totalOpened =>
    rw [hoverall.totalOpened, map_eq_map_of_forall₂ hsources fun _ _ _ h => h.totalOpened, sum_filterMap_parts _ hperm]
  case countByFilterType =>
    intro key
    rw [hoverall.countByFilterType, entry_parts hperm hfilter,
      map_eq_map_of_forall₂ hsources fun _ _ _ h => congrArg (entry · key) h.countByFilterType]
  case countByQueryType =>
    intro key
    rw [hoverall.countByQueryType, entry_parts hperm hquery,
      map_eq_map_of_forall₂ hsources fun _ _ _ h => congrArg (entry · key) h.countByQueryType]
  case countByBenchmarkName =>
    intro key
    rw [hoverall.countByBenchmarkName, entry_parts hperm hbenchmark,
      map_eq_map_of_forall₂ hsources fun _ _ _ h => congrArg (entry · key) h.countByBenchmarkName]
  case minTimestampUs =>
    rw [hoverall.minTimestampUs, filterMap_eq_filterMap_of_forall₂ hsources fun _ _ _ h => h.minTimestampUs,
      min?_perm (hperm.filterMap _), List.filterMap_flatten, min?_flatten, List.filterMap_map]
    rfl
  case maxTimestampUs =>
    rw [hoverall.maxTimestampUs, filterMap_eq_filterMap_of_forall₂ hsources fun _ _ _ h => h.maxTimestampUs,
      max?_perm (hperm.filterMap _), List.filterMap_flatten, max?_flatten, List.filterMap_map]
    rfl

end Sums

/-! ## `GET /api/summary` -/

/-- The names of the sources, which are keys of one object, and not those the handlers use themselves. -/
structure State.WellFormed {ν : Type} (state : State ν) : Prop where
  nodup : (state.sources.map Prod.fst).Nodup
  not_all : "all" ∉ state.sources.map Prod.fst
  not_overall : "overall" ∉ state.sources.map Prod.fst

/-- What `loadMetrics` leaves. -/
theorem loadMetrics_wellFormed {ν : Type} (parseJsonlFile : String → Source ν) (env : Environment) :
    (loadMetrics parseJsonlFile env).WellFormed := by
  have hnames := loadMetrics_names parseJsonlFile env
  refine ⟨hnames.nodup (by decide), fun h => ?_, fun h => ?_⟩
  · exact absurd (hnames.subset h) (by decide)
  · exact absurd (hnames.subset h) (by decide)

section Route
variable {state : State ℚ} {events : List (Event ℚ)}

theorem find?_of_mem {β : Type} {l : List (String × β)} (hnodup : (l.map Prod.fst).Nodup) {entry : String × β}
    (h : entry ∈ l) : l.find? (fun e => e.1 = entry.1) = some entry := by
  induction l with
  | nil => simp at h
  | cons e l ih =>
    rw [List.map_cons, List.nodup_cons] at hnodup
    rcases List.mem_cons.1 h with rfl | hmem
    · simp
    · have hne : e.1 ≠ entry.1 := fun heq => hnodup.1 (heq ▸ List.mem_map_of_mem hmem)
      rw [List.find?_cons_of_neg (by simpa using hne)]
      exact ih hnodup.2 hmem

/-- The events of the sources, by their names in any order. -/
theorem getEventsForSource_perm (h : state.WellFormed) {names : List String}
    (hnames : names.Perm (state.sources.map Prod.fst)) :
    (getEventsForSource state "all").Perm (names.map (getEventsForSource state)).flatten := by
  have hsources : (state.sources.map Prod.fst).map (getEventsForSource state) =
      state.sources.map fun entry => entry.2.events := by
    rw [List.map_map]
    refine List.map_congr_left fun entry hentry => ?_
    have hne : entry.1 ≠ "all" := fun heq => h.not_all (heq ▸ List.mem_map_of_mem hentry)
    rw [Function.comp_apply, getEventsForSource, if_neg hne, find?_of_mem h.nodup hentry]
  rw [getEventsForSource, if_pos rfl, List.flatMap_def, ← hsources]
  exact ((hnames.map _).flatten).symm

theorem sourceSummary_ok {sourceName : String} {entry : String × Summary}
    (h : sourceSummary state sourceName = .ok entry) :
    entry.1 = sourceName ∧ computeSummary (getEventsForSource state sourceName) = .ok entry.2 := by
  unfold sourceSummary at h
  cases hs : computeSummary (getEventsForSource state sourceName) with
  | error e => simp [hs, bind, Except.bind] at h
  | ok s =>
    simp only [hs, bind, Except.bind, pure, Except.pure, Except.ok.injEq] at h
    subst h
    exact ⟨rfl, rfl⟩

theorem sourceSummary_isOk {sourceName : String}
    (hplain : ∀ event ∈ getEventsForSource state sourceName, event.PlainNames) :
    ∃ entry, sourceSummary state sourceName = .ok entry := by
  obtain ⟨s, hs⟩ := computeSummary_isOk fun event he => (hplain event he).groups
  exact ⟨(sourceName, s), by simp [sourceSummary, hs, bind, Except.bind, pure, Except.pure]⟩

/-- **`GET /api/summary`**: one summary for each source, next to the overall one, which is their sum. -/
theorem getSummary_addsUp (h : state.WellFormed)
    (hplain : ∀ event ∈ getEventsForSource state "all", event.PlainNames) :
    ∃ overall sources, getSummary state none = .ok (.all overall sources) ∧
      (sources.map Prod.fst).Perm (state.sources.map Prod.fst) ∧ AddsUp overall (sources.map Prod.snd) := by
  obtain ⟨overall, hoverall⟩ := computeSummary_isOk fun event he => (hplain event he).groups
  have hnames := List.mergeSort_perm (state.sources.map Prod.fst) fun a b => decide (a ≤ b)
  have hperm := getEventsForSource_perm h hnames
  have hisOk : ∀ name ∈ (state.sources.map Prod.fst).mergeSort fun a b => decide (a ≤ b),
      ∃ entry, sourceSummary state name = .ok entry := by
    intro name hname
    refine sourceSummary_isOk fun event hevent => hplain event (hperm.mem_iff.2 ?_)
    exact List.mem_flatten.2 ⟨_, List.mem_map_of_mem hname, hevent⟩
  obtain ⟨sources, hsources, hall⟩ := mapM_isOk hisOk
  refine ⟨overall, sources, ?_, ?_, ?_⟩
  · simp [getSummary, truthy, hoverall, hsources, bind, Except.bind, pure, Except.pure]
  · rw [map_eq_map_of_forall₂ hall fun _ _ _ hentry => (sourceSummary_ok hentry).1, List.map_id']
    exact hnames
  · refine addsUp_of_totalsOf hperm hplain (computeSummary_totalsOf hoverall) ?_
    rw [List.forall₂_map_left_iff, List.forall₂_map_right_iff]
    exact hall.imp fun _ _ hentry => computeSummary_totalsOf (sourceSummary_ok hentry).2

end Route

/-! ## For which events -/

/-- The summary of these events is there, its counts sum up, it does not depend on their order, and it adds up
over the sources they come from. -/
structure SummariesAddUp (events : List (Event ℚ)) : Prop where
  counts : ∃ s, computeSummary events = .ok s ∧ s.totalEvents = events.length ∧
    CountsSum s.countByFilterType s.totalEvents ∧ CountsSum s.countByQueryType s.totalEvents ∧
      CountsSum s.countByBenchmarkName s.totalEvents
  orderFree : ∀ events', events.Perm events' →
    ∃ s s', computeSummary events = .ok s ∧ computeSummary events' = .ok s' ∧ s.Same s'
  sources : ∀ state : State ℚ, state.WellFormed → (getEventsForSource state "all").Perm events →
    ∃ overall sources, getSummary state none = .ok (.all overall sources) ∧
      (sources.map Prod.fst).Perm (state.sources.map Prod.fst) ∧ AddsUp overall (sources.map Prod.snd)

/-- **Summaries add up** if and only if no event has the name of something every object inherits for one of its
keys. -/
theorem summariesAddUp_iff (events : List (Event ℚ)) :
    SummariesAddUp events ↔ ∀ event ∈ events, event.PlainNames := by
  constructor
  · rintro ⟨⟨s, hs, -, hfilter, hquery, hbenchmark⟩, -, -⟩ event hevent
    have htotals := computeSummary_totalsOf hs
    rw [htotals.totalEvents, htotals.countByFilterType, ← List.length_map Event.filterTypeName,
      countsSum_tally_iff, List.forall_mem_map] at hfilter
    rw [htotals.totalEvents, htotals.countByQueryType, ← List.length_map Event.queryTypeName,
      countsSum_tally_iff, List.forall_mem_map] at hquery
    rw [htotals.totalEvents, htotals.countByBenchmarkName, ← List.length_map Event.benchmarkNameName,
      countsSum_tally_iff, List.forall_mem_map] at hbenchmark
    exact ⟨hfilter event hevent, hquery event hevent, hbenchmark event hevent⟩
  · intro hplain
    constructor
    · obtain ⟨s, hs⟩ := computeSummary_isOk fun event he => (hplain event he).groups
      obtain ⟨hfilter, hquery, hbenchmark⟩ := plainNames_keys hplain
      have htotals := computeSummary_totalsOf hs
      refine ⟨s, hs, htotals.totalEvents, ?_, ?_, ?_⟩
      · rw [htotals.totalEvents, htotals.countByFilterType, ← List.length_map Event.filterTypeName]
        exact countsSum_tally hfilter
      · rw [htotals.totalEvents, htotals.countByQueryType, ← List.length_map Event.queryTypeName]
        exact countsSum_tally hquery
      · rw [htotals.totalEvents, htotals.countByBenchmarkName, ← List.length_map Event.benchmarkNameName]
        exact countsSum_tally hbenchmark
    · intro events' hperm
      have hplain' : ∀ event ∈ events', event.PlainNames := fun event he => hplain event (hperm.mem_iff.2 he)
      obtain ⟨s, hs⟩ := computeSummary_isOk fun event he => (hplain event he).groups
      obtain ⟨s', hs'⟩ := computeSummary_isOk fun event he => (hplain' event he).groups
      obtain ⟨t, ht, rfl⟩ := computeSummary_ok hs
      obtain ⟨t', ht', rfl⟩ := computeSummary_ok hs'
      exact ⟨_, _, hs, hs', ht.summary_same ht' hperm hplain⟩
    · intro state hstate hperm
      exact getSummary_addsUp hstate fun event he => hplain event (hperm.mem_iff.1 he)

/-- One timed event of the filter `constructor`: the push of its latency fails. -/
theorem summary_of_constructor : ¬ ∀ events : List (Event ℚ), SummariesAddUp events := by
  intro h
  obtain ⟨s, hs, -⟩ := (h [{ source := "default", filterType := some "constructor", latencyUs := some 1 }]).counts
  have herror : computeSummary [{ source := "default", filterType := some "constructor", latencyUs := some 1 }] =
      .error ⟨"latenciesByFilterType[ft].push is not a function"⟩ := rfl
  rw [herror] at hs
  cases hs

end LevelDbSurf.Dashboard
