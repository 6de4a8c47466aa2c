import LevelDbSurf.SummaryLoop
import LevelDbSurf.Lib.OrderStatistic

/-!
# The statistics of one filter type, on the page and on the server (`dashboard-ui/src/lib/metrics.ts:44-81`)

| here | there |
| --- | --- |
| `MetricsEvent`           | the same (`types/metrics.ts`): an event whose latency is a number |
| `computeFilterTypeStats` | the same; its `summary` is not read |
| `ofFilterType`           | the events with this `filter_type` |

`computeSummary` on the events of one filter type does the same work again: `statisticsAgree_iff` says when the two give
the same numbers.
-/

namespace LevelDbSurf.Dashboard

open PlainObjects OrderStatistics

/-- `MetricsEvent`. -/
structure MetricsEvent where
  event : Event ℚ
  latencyUs : ℚ
  numeric : event.latencyUs = some latencyUs

/-- The fields `computeFilterTypeStats` sets. -/
structure FilterTypeStats where
  totalEvents : Nat
  avgLatencyUs : Int
  p95LatencyUs : Option ℚ
  falsePositiveRate : Option ℚ
deriving DecidableEq

/-- `events.filter((e) => e.filter_type === filterType)`. -/
def ofFilterType (events : List MetricsEvent) (filterType : String) : List MetricsEvent :=
  events.filter fun e => e.event.filterType = some filterType

/-- The loop over `false_positive`: how many are set, and how many are `true`. -/
def countFalsePositives (filtered : List MetricsEvent) : Nat × Nat :=
  filtered.foldl (fun counts e =>
    match e.event.falsePositive with
    | none => counts
    | some falsePositive => (counts.1 + 1, if falsePositive then counts.2 + 1 else counts.2)) (0, 0)

/-- `computeFilterTypeStats`. -/
def computeFilterTypeStats (events : List MetricsEvent) (filterType : String) : FilterTypeStats :=
  let filtered := ofFilterType events filterType
  if filtered.length = 0 then
    { totalEvents := 0, avgLatencyUs := 0, p95LatencyUs := none, falsePositiveRate := none }
  else
    let latencies := (filtered.map (·.latencyUs)).mergeSort fun a b => decide (a ≤ b)
    let avg := mathRound (latencies.sum / latencies.length)
    let p95Index := ⌈(latencies.length : ℚ) * 95 / 100⌉ - 1
    let p95 := latencies[(max 0 p95Index).toNat]?
    let (falsePositiveCount, falsePositives) := countFalsePositives filtered
    { totalEvents := filtered.length
      avgLatencyUs := avg
      p95LatencyUs := p95
      falsePositiveRate :=
        if falsePositiveCount > 0 then some ((falsePositives : ℚ) / falsePositiveCount) else none }

/-! ## The percentile -/

/-- **`percentile`** is the nearest-rank percentile. -/
theorem percentile_isRank {data : List ℚ} (hne : data ≠ []) {p : ℚ} (hpos : 0 < p) (hle : p ≤ 100) :
    ∃ v, percentile data p = some v ∧ IsRank data ⌈(data.length : ℚ) * p / 100⌉.toNat v := by
  have hlength : 0 < data.length := List.length_pos_iff.2 hne
  have hpositive : 0 < ⌈(data.length : ℚ) * p / 100⌉ := by
    rw [Int.ceil_pos]
    have hcast : (0 : ℚ) < data.length := by exact_mod_cast hlength
    positivity
  have hbound : ⌈(data.length : ℚ) * p / 100⌉ ≤ data.length := by
    rw [Int.ceil_le, Int.cast_natCast, div_le_iff₀ (by norm_num)]
    exact mul_le_mul_of_nonneg_left hle (Nat.cast_nonneg _)
  obtain ⟨k, hk⟩ : ∃ k : Nat, ⌈(data.length : ℚ) * p / 100⌉ = k + 1 :=
    ⟨(⌈(data.length : ℚ) * p / 100⌉ - 1).toNat, by omega⟩
  have hpercentile : percentile data p = (data.mergeSort fun a b => decide (a ≤ b))[k]? := by
    simp only [percentile, List.length_mergeSort]
    rw [if_neg hlength.ne', hk, add_sub_cancel_right, max_eq_right (Int.natCast_nonneg k), Int.toNat_natCast]
  have hin : k < (data.mergeSort fun a b => decide (a ≤ b)).length := by
    rw [List.length_mergeSort]
    omega
  refine ⟨_, hpercentile.trans (List.getElem?_eq_getElem hin), ?_⟩
  have hrank := isRank_of_sorted (pairwise_mergeSort data) (List.getElem?_eq_getElem hin)
  rw [hk, show ((k : Int) + 1).toNat = k + 1 by omega]
  exact hrank.perm (List.mergeSort_perm data _)

/-! ## The page -/

section Page
variable {events events' : List MetricsEvent} {filterType : String}

theorem countFalsePositives_eq (filtered : List MetricsEvent) :
    countFalsePositives filtered = ((filtered.map (·.event)).countP (·.falsePositive.isSome),
      (filtered.map (·.event)).countP (·.falsePositive = some true)) := by
  induction filtered using List.reverseRecOn with
  | nil => rfl
  | append_singleton filtered e ih =>
    unfold countFalsePositives at ih ⊢
    rw [List.foldl_append, ih, List.map_append, List.countP_append, List.countP_append]
    cases hfalse : e.event.falsePositive with
    | none => simp [hfalse]
    | some falsePositive => cases falsePositive <;> simp [hfalse]

/-- The latencies of the events, as the server reads them. -/
theorem filterMap_latencyUs (filtered : List MetricsEvent) :
    (filtered.map (·.event)).filterMap (·.latencyUs) = filtered.map (·.latencyUs) := by
  rw [List.filterMap_map]
  induction filtered with
  | nil => rfl
  | cons e filtered ih =>
    have hnumeric : (Event.latencyUs ∘ MetricsEvent.event) e = some e.latencyUs := e.numeric
    rw [List.filterMap_cons_some hnumeric, ih, List.map_cons]

/-- The statistics of events that there are, by the functions of the server. -/
theorem computeFilterTypeStats_eq (h : ofFilterType events filterType ≠ []) :
    computeFilterTypeStats events filterType =
      { totalEvents := (ofFilterType events filterType).length
        avgLatencyUs := average ((ofFilterType events filterType).map (·.latencyUs))
        p95LatencyUs := percentile ((ofFilterType events filterType).map (·.latencyUs)) 95
        falsePositiveRate :=
          let counts := countFalsePositives (ofFilterType events filterType)
          if counts.1 > 0 then some ((counts.2 : ℚ) / counts.1) else none } := by
  have hlength : (ofFilterType events filterType).length ≠ 0 := by
    rwa [ne_eq, List.length_eq_zero_iff]
  unfold computeFilterTypeStats
  simp only [if_neg hlength, average, percentile, List.length_mergeSort, List.length_map]
  rw [(List.mergeSort_perm _ _).sum_eq]

/-- **The order of the events** does not show on the page. -/
theorem computeFilterTypeStats_perm (hperm : events'.Perm events) (filterType : String) :
    computeFilterTypeStats events' filterType = computeFilterTypeStats events filterType := by
  have hfiltered : (ofFilterType events' filterType).Perm (ofFilterType events filterType) := hperm.filter _
  by_cases h : ofFilterType events filterType = []
  · have h' : ofFilterType events' filterType = [] := by
      rw [h] at hfiltered
      exact hfiltered.eq_nil
    simp [computeFilterTypeStats, h, h']
  · have h' : ofFilterType events' filterType ≠ [] := by
      intro hnil
      rw [hnil] at hfiltered
      exact h hfiltered.symm.eq_nil
    rw [computeFilterTypeStats_eq h, computeFilterTypeStats_eq h', countFalsePositives_eq, countFalsePositives_eq,
      hfiltered.length_eq, average_perm (hfiltered.map _), percentile_perm (hfiltered.map _),
      (hfiltered.map _).countP_eq, (hfiltered.map _).countP_eq]

end Page

/-! ## The page and the server -/

/-- The same statistics in a summary of the server, which rounds the rate to four places. -/
structure FilterTypeStats.SameIn (stats : FilterTypeStats) (s : Summary) : Prop where
  totalEvents : s.totalEvents = stats.totalEvents
  avgLatencyUs : s.avgLatencyUs = stats.avgLatencyUs
  p95LatencyUs : s.p95LatencyUs = stats.p95LatencyUs
  falsePositiveRate : s.falsePositiveRate =
    stats.falsePositiveRate.map fun rate : ℚ => (mathRound (rate * 10000) : ℚ) / 10000

/-- The page and the server have the same statistics of a filter type, in any order of the events, and the percentile is
the nearest-rank one. -/
def StatisticsAgree (events : List MetricsEvent) (filterType : String) : Prop :=
  (∃ v, (computeFilterTypeStats events filterType).p95LatencyUs = some v ∧
    IsRank ((ofFilterType events filterType).map (·.latencyUs))
      ⌈((ofFilterType events filterType).length : ℚ) * 95 / 100⌉.toNat v) ∧
  ∀ events', events'.Perm events →
    computeFilterTypeStats events' filterType = computeFilterTypeStats events filterType ∧
    ∃ s, computeSummary ((ofFilterType events' filterType).map (·.event)) = .ok s ∧
      (computeFilterTypeStats events filterType).SameIn s

section Agree
variable {events : List MetricsEvent} {filterType : String}

/-- **What the server returns** is what the page shows. -/
theorem computeSummary_sameIn (h : ofFilterType events filterType ≠ []) {s : Summary}
    (hs : computeSummary ((ofFilterType events filterType).map (·.event)) = .ok s) :
    (computeFilterTypeStats events filterType).SameIn s := by
  obtain ⟨t, ht, rfl⟩ := computeSummary_ok hs
  have hlatencies : t.latencies = (ofFilterType events filterType).map (·.latencyUs) := by
    rw [ht.latencies, filterMap_latencyUs]
  have hpos : 0 < t.latencies.length := by
    rw [hlatencies, List.length_map]
    exact List.length_pos_iff.2 h
  rw [computeFilterTypeStats_eq h]
  constructor
  case totalEvents => exact List.length_map _
  case avgLatencyUs =>
    simp only [Accumulators.summary, if_pos hpos]
    rw [hlatencies]
  case p95LatencyUs =>
    simp only [Accumulators.summary, if_pos hpos]
    rw [hlatencies]
  case falsePositiveRate =>
    simp only [Accumulators.summary, countFalsePositives_eq, ht.falsePositives, ht.falsePositiveCount, gt_iff_lt]
    split <;> rfl

theorem mem_ofFilterType {e : MetricsEvent} :
    e ∈ ofFilterType events filterType ↔ e ∈ events ∧ e.event.filterType = some filterType := by
  simp [ofFilterType]

/-- **The page and the server agree** on a filter type if and only if neither it nor a query type of its events is the
name of something every object inherits. -/
theorem statisticsAgree_iff (h : ∃ e ∈ events, e.event.filterType = some filterType) :
    StatisticsAgree events filterType ↔
      inherited (Event.nameOr (some filterType)) = none ∧
        ∀ e ∈ events, e.event.filterType = some filterType → inherited e.event.queryTypeName = none := by
  have hne : ∀ events', events'.Perm events → ofFilterType events' filterType ≠ [] := by
    intro events' hperm
    obtain ⟨e, he, htype⟩ := h
    exact List.ne_nil_of_mem (mem_ofFilterType.2 ⟨hperm.mem_iff.2 he, htype⟩)
  have htimed : ∀ events' : List MetricsEvent, ∀ event ∈ (ofFilterType events' filterType).map (·.event),
      event.latencyUs.isSome = true := by
    intro events' event hevent
    obtain ⟨e, -, rfl⟩ := List.mem_map.1 hevent
    rw [e.numeric]
    rfl
  constructor
  · rintro ⟨-, hagree⟩
    obtain ⟨-, s, hs, -⟩ := hagree events (.refl _)
    have hplain := (computeSummary_isOk_iff (htimed events)).1 ⟨s, hs⟩
    have hgroups : ∀ e ∈ events, e.event.filterType = some filterType → e.event.PlainGroups := fun e he htype =>
      hplain e.event (List.mem_map_of_mem (mem_ofFilterType.2 ⟨he, htype⟩))
    refine ⟨?_, fun e he htype => (hgroups e he htype).queryType⟩
    obtain ⟨e, he, htype⟩ := h
    rw [← htype]
    exact (hgroups e he htype).filterType
  · rintro ⟨hfilter, hquery⟩
    refine ⟨?_, fun events' hperm => ⟨computeFilterTypeStats_perm hperm filterType, ?_⟩⟩
    · have hlength : ((ofFilterType events filterType).map (·.latencyUs)).length =
          (ofFilterType events filterType).length := List.length_map _
      rw [computeFilterTypeStats_eq (hne events (.refl _)), ← hlength]
      exact percentile_isRank (by simpa using hne events (.refl _)) (by norm_num) (by norm_num)
    · have hplain : ∀ event ∈ (ofFilterType events' filterType).map (·.event), event.PlainGroups := by
        intro event hevent
        obtain ⟨e, he, rfl⟩ := List.mem_map.1 hevent
        obtain ⟨hmem, htype⟩ := mem_ofFilterType.1 he
        refine ⟨?_, hquery e (hperm.mem_iff.1 hmem) htype⟩
        rw [Event.filterTypeName, htype]
        exact hfilter
      obtain ⟨s, hs⟩ := computeSummary_isOk hplain
      refine ⟨s, hs, ?_⟩
      rw [← computeFilterTypeStats_perm hperm]
      exact computeSummary_sameIn (hne events' hperm) hs

end Agree

/-- A point lookup of one unit of time with this filter. -/
def pointGet (filterType : String) : MetricsEvent where
  event :=
    { source := "default", filterType := some filterType, queryType := some "point_get", latencyUs := some 1
      falsePositive := some true }
  latencyUs := 1
  numeric := rfl

theorem statisticsAgree_bloom : StatisticsAgree [pointGet "bloom"] "bloom" := by
  refine (statisticsAgree_iff ⟨pointGet "bloom", List.mem_singleton.2 rfl, rfl⟩).2 ⟨by decide, ?_⟩
  intro e he _
  rw [List.mem_singleton.1 he]
  decide

/-- The filter type `constructor`: the page has its statistics, the server fails. -/
theorem statistics_of_constructor :
    ¬ ∀ (events : List MetricsEvent) (filterType : String),
      (∃ e ∈ events, e.event.filterType = some filterType) → StatisticsAgree events filterType := by
  intro h
  obtain ⟨-, hagree⟩ := h [pointGet "constructor"] "constructor" ⟨_, List.mem_singleton.2 rfl, rfl⟩
  obtain ⟨-, s, hs, -⟩ := hagree _ (.refl _)
  have hfiltered : ofFilterType [pointGet "constructor"] "constructor" = [pointGet "constructor"] := by
    simp [ofFilterType, pointGet]
  have herror : computeSummary [(pointGet "constructor").event] =
      .error ⟨"latenciesByFilterType[ft].push is not a function"⟩ := rfl
  rw [hfiltered, List.map_singleton, herror] at hs
  cases hs

end LevelDbSurf.Dashboard
