import LevelDbSurf.DashboardSummary

/-!
# The loop of `computeSummary`

What the loop of `computeSummary` comes to, accumulator by accumulator (`Accumulators.Of`). An object that counts
has numbers that sum up if and only if none of its keys is one that every object inherits (`countsSum_tally_iff`).
-/

namespace LevelDbSurf.Dashboard

open PlainObjects

/-! ## Counting by plain objects -/

/-- The counts of the keys. -/
def tally (keys : List String) : PlainObject Count := keys.foldl increment {}

section Tally
variable {keys : List String} {key : String}

theorem tally_concat (keys : List String) (key : String) : tally (keys ++ [key]) = increment (tally keys) key := by
  simp [tally, List.foldl_append]

theorem lookup_increment (counts : PlainObject Count) (key k : String) :
    (increment counts key).lookup k =
      if key = "__proto__" then counts.lookup k
      else if k = key then some (plusOne (counts.get key)) else counts.lookup k :=
  PlainObject.lookup_set counts key _ k

theorem lookup_tally_of_not_mem (h : key ∉ keys) : (tally keys).lookup key = none := by
  induction keys using List.reverseRecOn with
  | nil => rfl
  | append_singleton keys k ih =>
    rw [List.mem_append, List.mem_singleton, not_or] at h
    rw [tally_concat, lookup_increment, if_neg h.2, ih h.1, ite_self]

/-- A key nothing inherits counts how often it is there. -/
theorem lookup_tally (hkey : inherited key = none) (hmem : key ∈ keys) :
    (tally keys).lookup key = some (.number (keys.count key)) := by
  induction keys using List.reverseRecOn with
  | nil => simp at hmem
  | append_singleton keys k ih =>
    rw [tally_concat, lookup_increment, List.count_append]
    by_cases hk : key = k
    · subst hk
      rw [if_neg (PlainObject.ne_proto_of_not_inherited hkey), if_pos rfl, PlainObject.get_of_not_inherited hkey]
      by_cases hin : key ∈ keys
      · simp [ih hin, plusOne]
      · simp [lookup_tally_of_not_mem hin, plusOne, List.count_eq_zero_of_not_mem hin]
    · have hin : key ∈ keys := by simpa [hk] using hmem
      rw [if_neg hk, ite_self, ih hin]
      simp [Ne.symm hk]

theorem text_ne_empty (s : String) : s ++ "1" ≠ "" := by
  intro h
  have hlength := congrArg String.length h
  simp at hlength

/-- A key every object inherits holds a string, if it holds anything. -/
theorem lookup_tally_inherited {what : Inherited} (hkey : inherited key = some what) (hproto : key ≠ "__proto__")
    (hmem : key ∈ keys) : ∃ s, s ≠ "" ∧ (tally keys).lookup key = some (.text s) := by
  induction keys using List.reverseRecOn with
  | nil => simp at hmem
  | append_singleton keys k ih =>
    rw [tally_concat, lookup_increment]
    by_cases hk : key = k
    · subst hk
      rw [if_neg hproto, if_pos rfl]
      by_cases hin : key ∈ keys
      · obtain ⟨s, hs, hlookup⟩ := ih hin
        exact ⟨_, text_ne_empty s, by simp [PlainObject.get, hlookup, plusOne, hs]⟩
      · refine ⟨_, text_ne_empty what.text, ?_⟩
        simp [PlainObject.get, lookup_tally_of_not_mem hin, hkey, plusOne]
    · have hin : key ∈ keys := by simpa [hk] using hmem
      rw [if_neg hk, ite_self]
      exact ih hin

/-- Counting under `__proto__` does nothing. -/
theorem tally_filter (keys : List String) : tally keys = tally (keys.filter fun key => key ≠ "__proto__") := by
  induction keys using List.reverseRecOn with
  | nil => rfl
  | append_singleton keys k ih =>
    rw [tally_concat, ih, List.filter_append]
    by_cases hk : k = "__proto__"
    · simp [hk, increment, PlainObject.set]
    · simp [hk, tally_concat]

/-- The number, of what is one. -/
def Count.toNat : Count → Nat
  | number n => n
  | text _ => 0

/-- The entries are numbers and sum up to this. -/
structure CountsSum (counts : PlainObject Count) (total : Nat) : Prop where
  numbers : ∀ entry ∈ counts.own, ∃ n, entry.2 = .number n
  sum : (counts.own.map fun entry => entry.2.toNat).sum = total

theorem own_tally_perm (h : ∀ key ∈ keys, inherited key = none) :
    (tally keys).own.Perm (keys.dedup.map fun key => (key, .number (keys.count key))) := by
  have hnodup : (keys.dedup.map fun key => (key, Count.number (keys.count key))).Nodup :=
    (List.nodup_dedup keys).map fun _ _ heq => (Prod.mk.inj heq).1
  rw [List.perm_ext_iff_of_nodup (List.Nodup.of_map _ (tally keys).nodup) hnodup]
  rintro ⟨key, count⟩
  rw [PlainObject.mem_own_iff]
  by_cases hmem : key ∈ keys
  · rw [lookup_tally (h key hmem) hmem]
    simp [hmem]
  · simp [lookup_tally_of_not_mem hmem, hmem]

theorem countsSum_tally (h : ∀ key ∈ keys, inherited key = none) : CountsSum (tally keys) keys.length where
  numbers entry hentry := by
    obtain ⟨key, -, rfl⟩ := List.mem_map.1 ((own_tally_perm h).mem_iff.1 hentry)
    exact ⟨_, rfl⟩
  sum := by
    rw [((own_tally_perm h).map _).sum_eq, List.map_map]
    exact List.sum_map_count_dedup_eq_length keys

/-- **The counts add up** if and only if no key is one that every object inherits. -/
theorem countsSum_tally_iff : CountsSum (tally keys) keys.length ↔ ∀ key ∈ keys, inherited key = none := by
  constructor
  · intro h
    have hothers : ∀ key ∈ keys, key ≠ "__proto__" → inherited key = none := by
      intro key hkey hproto
      by_contra hne
      obtain ⟨what, hwhat⟩ := Option.ne_none_iff_exists'.1 hne
      obtain ⟨s, -, hlookup⟩ := lookup_tally_inherited hwhat hproto hkey
      obtain ⟨n, hn⟩ := h.numbers _ (PlainObject.mem_own_iff.2 hlookup)
      exact absurd hn (by simp)
    have hplain : ∀ key ∈ keys.filter fun key => key ≠ "__proto__", inherited key = none := by
      intro key hkey
      simp only [List.mem_filter, decide_eq_true_eq] at hkey
      exact hothers key hkey.1 hkey.2
    have hsum := countsSum_tally hplain
    rw [← tally_filter] at hsum
    have hlength : (keys.filter fun key => key ≠ "__proto__").length = keys.length := hsum.sum.symm.trans h.sum
    intro key hkey
    refine hothers key hkey ?_
    simpa using List.length_filter_eq_length_iff.1 hlength key hkey
  · exact countsSum_tally

/-- The entry of a key; a missing one is zero. -/
def entry (counts : PlainObject Count) (key : String) : Nat := (counts.lookup key).elim 0 Count.toNat

theorem entry_tally (h : ∀ key ∈ keys, inherited key = none) (key : String) :
    entry (tally keys) key = keys.count key := by
  by_cases hmem : key ∈ keys
  · simp [entry, lookup_tally (h key hmem) hmem, Count.toNat]
  · simp [entry, lookup_tally_of_not_mem hmem, List.count_eq_zero_of_not_mem hmem]

end Tally

/-! ## Latencies by key -/

/-- The values under a key. -/
def valuesOf (key : String) (entries : List (String × ℚ)) : List ℚ :=
  entries.filterMap fun entry => if entry.1 = key then some entry.2 else none

section Group
variable {callee : String} {lists lists' : PlainObject (List ℚ)}

theorem lookup_pushTo {entry : String × ℚ} (h : pushTo callee lists entry = .ok lists') (key : String) :
    lists'.lookup key =
      if key = entry.1 then some ((lists.lookup entry.1).getD [] ++ [entry.2]) else lists.lookup key := by
  unfold pushTo PlainObject.get at h
  cases hlookup : lists.lookup entry.1 with
  | some values =>
    have hproto : entry.1 ≠ "__proto__" := by
      intro heq
      rw [heq, PlainObject.lookup_proto] at hlookup
      cases hlookup
    simp only [hlookup, Except.ok.injEq] at h
    rw [← h, PlainObject.lookup_set, if_neg hproto]
    rfl
  | none =>
    cases hinherited : inherited entry.1 with
    | some what => simp [hlookup, hinherited] at h
    | none =>
      simp only [hlookup, hinherited, Option.map_none, Except.ok.injEq] at h
      rw [← h, PlainObject.lookup_set, if_neg (PlainObject.ne_proto_of_not_inherited hinherited)]
      rfl

theorem pushTo_isOk (callee : String) (lists : PlainObject (List ℚ)) (entry : String × ℚ)
    (h : inherited entry.1 = none) : ∃ lists', pushTo callee lists entry = .ok lists' := by
  unfold pushTo
  rw [PlainObject.get_of_not_inherited h]
  cases lists.lookup entry.1 <;> exact ⟨_, rfl⟩

/-- The list of a key has its values in order. -/
def Groups (lists : PlainObject (List ℚ)) (entries : List (String × ℚ)) : Prop :=
  ∀ key, lists.lookup key = if valuesOf key entries = [] then none else some (valuesOf key entries)

theorem Groups.pushTo {entries : List (String × ℚ)} {entry : String × ℚ} (h : Groups lists entries)
    (hpush : pushTo callee lists entry = .ok lists') : Groups lists' (entries ++ [entry]) := by
  intro key
  have hvalues : valuesOf key (entries ++ [entry]) =
      valuesOf key entries ++ if key = entry.1 then [entry.2] else [] := by
    by_cases hk : key = entry.1
    · simp [valuesOf, List.filterMap_append, hk]
    · simp [valuesOf, List.filterMap_append, hk, Ne.symm hk]
  rw [lookup_pushTo hpush, hvalues]
  by_cases hk : key = entry.1
  · subst hk
    rw [if_pos rfl, if_pos rfl, if_neg (by simp), h]
    by_cases hnil : valuesOf entry.1 entries = [] <;> simp [hnil]
  · rw [if_neg hk, if_neg hk, List.append_nil, h]

/-- Nothing is filed under a key that every object inherits, as long as no entry has it. -/
theorem Groups.lookup_inherited {entries : List (String × ℚ)} (h : Groups lists entries)
    (hplain : ∀ entry ∈ entries, inherited entry.1 = none) {key : String} {what : Inherited}
    (hkey : inherited key = some what) : lists.lookup key = none := by
  rw [h key, if_pos]
  refine List.filterMap_eq_nil_iff.2 fun entry hentry => ?_
  rw [if_neg]
  rintro rfl
  rw [hplain entry hentry] at hkey
  cases hkey

/-- So a push under such a key fails. -/
theorem Groups.plain_of_pushTo {entries : List (String × ℚ)} {entry : String × ℚ} (h : Groups lists entries)
    (hplain : ∀ entry ∈ entries, inherited entry.1 = none) (hpush : Dashboard.pushTo callee lists entry = .ok lists') :
    inherited entry.1 = none := by
  cases hkey : inherited entry.1 with
  | none => rfl
  | some what => simp [Dashboard.pushTo, PlainObject.get, h.lookup_inherited hplain hkey, hkey] at hpush

/-- The averages, under the keys of the lists that are not empty. -/
theorem own_averages (lists : PlainObject (List ℚ)) :
    (averages lists).own =
      (lists.own.filter fun entry => entry.2.length > 0).map fun entry => (entry.1, average entry.2) := by
  have hsub : (((lists.own.filter fun entry => entry.2.length > 0).map fun entry => (entry.1, average entry.2)).map
      Prod.fst).Sublist (lists.own.map Prod.fst) := by
    rw [List.map_map]
    exact List.filter_sublist.map Prod.fst
  have hfold : averages lists =
      ((lists.own.filter fun entry => entry.2.length > 0).map fun entry => (entry.1, average entry.2)).foldl
        (fun o entry => o.set entry.1 entry.2) {} := by
    rw [List.foldl_map, List.foldl_filter]
    simp only [averages, decide_eq_true_eq]
  rw [hfold, PlainObject.own_foldl_set]
  · rfl
  · exact hsub.nodup lists.nodup
  · exact fun hmem => lists.not_proto (hsub.subset hmem)

theorem lookup_averages (lists : PlainObject (List ℚ)) (key : String) (a : Int) :
    (averages lists).lookup key = some a ↔
      ∃ lats, lists.lookup key = some lats ∧ 0 < lats.length ∧ average lats = a := by
  simp only [← PlainObject.mem_own_iff, own_averages, List.mem_map, List.mem_filter, decide_eq_true_eq,
    Prod.mk.injEq]
  constructor
  · rintro ⟨⟨k, lats⟩, ⟨hmem, hpos⟩, rfl, rfl⟩
    exact ⟨lats, hmem, hpos, rfl⟩
  · rintro ⟨lats, hmem, hpos, rfl⟩
    exact ⟨(key, lats), ⟨hmem, hpos⟩, rfl, rfl⟩

theorem average_perm {lats lats' : List ℚ} (h : lats.Perm lats') : average lats = average lats' := by
  rw [average, average, h.sum_eq, h.length_eq]

theorem Groups.averages_perm {entries entries' : List (String × ℚ)} (h : Groups lists entries)
    (h' : Groups lists' entries') (hperm : entries.Perm entries') :
    (averages lists).own.Perm (averages lists').own := by
  refine PlainObject.perm_of_lookup fun key => ?_
  have hvalues : (valuesOf key entries).Perm (valuesOf key entries') := hperm.filterMap _
  have hnil : valuesOf key entries = [] ↔ valuesOf key entries' = [] := by
    rw [← List.length_eq_zero_iff, ← List.length_eq_zero_iff, hvalues.length_eq]
  ext a
  rw [lookup_averages, lookup_averages, h, h']
  by_cases hempty : valuesOf key entries = []
  · simp [hempty, hnil.1 hempty]
  · have hempty' := mt hnil.2 hempty
    simp [hempty, hempty', average_perm hvalues, List.length_pos_iff]

theorem pairwise_mergeSort (data : List ℚ) :
    (data.mergeSort fun a b => decide (a ≤ b)).Pairwise fun a b => a ≤ b := by
  have hconsistent : StableSort.Consistent fun a b : ℚ => decide (a ≤ b) :=
    StableSort.Consistent.of_key id (by simp)
  simpa using (StableSort.isStableSort_mergeSort hconsistent data).pairwise

theorem mergeSort_eq_of_perm {data data' : List ℚ} (h : data.Perm data') :
    data.mergeSort (fun a b => decide (a ≤ b)) = data'.mergeSort fun a b => decide (a ≤ b) :=
  List.Perm.eq_of_pairwise (fun _ _ _ _ => le_antisymm) (pairwise_mergeSort data) (pairwise_mergeSort data')
    ((List.mergeSort_perm data _).trans (h.trans (List.mergeSort_perm data' _).symm))

theorem percentile_perm {data data' : List ℚ} (h : data.Perm data') (p : ℚ) :
    percentile data p = percentile data' p := by
  rw [percentile, percentile, mergeSort_eq_of_perm h, h.length_eq]

end Group

/-! ## The loop -/

/-- The latencies, with the key of their event. -/
def latencyEntries (name : Event ℚ → String) (events : List (Event ℚ)) : List (String × ℚ) :=
  events.filterMap fun event => event.latencyUs.map fun latency => (name event, latency)

/-- What the accumulators are after these events. -/
structure Accumulators.Of (t : Accumulators) (events : List (Event ℚ)) : Prop where
  latencies : t.latencies = events.filterMap (·.latencyUs)
  falsePositives : t.falsePositives = events.countP (·.falsePositive = some true)
  falsePositiveCount : t.falsePositiveCount = events.countP (·.falsePositive.isSome)
  actualMatches : t.actualMatches = events.countP (·.actualMatch = some true)
  filterMayMatches : t.filterMayMatches = events.countP (·.filterMayMatch = some true)
  latenciesByFilterType : Groups t.latenciesByFilterType (latencyEntries Event.filterTypeName events)
  latenciesByQueryType : Groups t.latenciesByQueryType (latencyEntries Event.queryTypeName events)
  countsByFilterType : t.countsByFilterType = tally (events.map Event.filterTypeName)
  countsByQueryType : t.countsByQueryType = tally (events.map Event.queryTypeName)
  countByBenchmarkName : t.countByBenchmarkName = tally (events.map Event.benchmarkNameName)
  totalConsidered : t.totalConsidered = (events.filterMap (·.sstablesConsidered)).sum
  totalPruned : t.totalPruned = (events.filterMap (·.sstablesPruned)).sum
  totalOpened : t.totalOpened = (events.filterMap (·.sstablesOpened)).sum
  minTimestamp : t.minTimestamp = (events.filterMap (·.timestampUs)).min?
  maxTimestamp : t.maxTimestamp = (events.filterMap (·.timestampUs)).max?

section Loop
variable {t t' : Accumulators} {events : List (Event ℚ)} {event : Event ℚ}

theorem min?_concat (l : List ℚ) (x : ℚ) : (l ++ [x]).min? = some (l.min?.elim x (min · x)) := by
  cases l with
  | nil => rfl
  | cons a l =>
    rw [List.cons_append, List.min?_cons', List.min?_cons', List.foldl_append]
    rfl

theorem max?_concat (l : List ℚ) (x : ℚ) : (l ++ [x]).max? = some (l.max?.elim x (max · x)) := by
  cases l with
  | nil => rfl
  | cons a l =>
    rw [List.cons_append, List.max?_cons', List.max?_cons', List.foldl_append]
    rfl

theorem sum_concat_getD (f : Event ℚ → Option ℚ) (events : List (Event ℚ)) (event : Event ℚ) :
    ((events ++ [event]).filterMap f).sum = (events.filterMap f).sum + (f event).getD 0 := by
  rw [List.filterMap_append, List.sum_append]
  cases h : f event <;> simp [h]

/-- The keys of an event are none that every object inherits. -/
structure Event.PlainNames (event : Event ℚ) : Prop where
  filterType : inherited event.filterTypeName = none
  queryType : inherited event.queryTypeName = none
  benchmarkName : inherited event.benchmarkNameName = none

/-- The keys its latency is filed under are none that every object inherits. -/
structure Event.PlainGroups (event : Event ℚ) : Prop where
  filterType : inherited event.filterTypeName = none
  queryType : inherited event.queryTypeName = none

theorem Event.PlainNames.groups (h : event.PlainNames) : event.PlainGroups := ⟨h.filterType, h.queryType⟩

theorem Accumulators.Of.empty : ({} : Accumulators).Of [] where
  latencies := rfl
  falsePositives := rfl
  falsePositiveCount := rfl
  actualMatches := rfl
  filterMayMatches := rfl
  latenciesByFilterType _ := rfl
  latenciesByQueryType _ := rfl
  countsByFilterType := rfl
  countsByQueryType := rfl
  countByBenchmarkName := rfl
  totalConsidered := rfl
  totalPruned := rfl
  totalOpened := rfl
  minTimestamp := rfl
  maxTimestamp := rfl

/-- What a push of the latency leaves. -/
theorem addLatency_eq (h : t.addLatency event = .ok t') :
    ∃ byFilterType byQueryType,
      t' = { t with
        latencies := t.latencies ++ event.latencyUs.toList
        latenciesByFilterType := byFilterType
        latenciesByQueryType := byQueryType } ∧
      (∀ entries, Groups t.latenciesByFilterType entries → Groups byFilterType
        (entries ++ event.latencyUs.toList.map fun latency => (event.filterTypeName, latency))) ∧
      ∀ entries, Groups t.latenciesByQueryType entries → Groups byQueryType
        (entries ++ event.latencyUs.toList.map fun latency => (event.queryTypeName, latency)) := by
  unfold Accumulators.addLatency at h
  cases hlatency : event.latencyUs with
  | none =>
    simp only [hlatency, Except.ok.injEq] at h
    subst h
    exact ⟨t.latenciesByFilterType, t.latenciesByQueryType, by simp, by simp, by simp⟩
  | some latency =>
    simp only [hlatency] at h
    cases hfilter : pushTo "latenciesByFilterType[ft]" t.latenciesByFilterType (event.filterTypeName, latency) with
    | error e => simp [hfilter, bind, Except.bind] at h
    | ok byFilterType =>
      cases hquery : pushTo "latenciesByQueryType[qt]" t.latenciesByQueryType (event.queryTypeName, latency) with
      | error e => simp [hfilter, hquery, bind, Except.bind] at h
      | ok byQueryType =>
        simp only [hfilter, hquery, bind, Except.bind, pure, Except.pure, Except.ok.injEq] at h
        exact ⟨byFilterType, byQueryType, h.symm, fun entries hentries => hentries.pushTo hfilter,
          fun entries hentries => hentries.pushTo hquery⟩

theorem latencyEntries_concat (name : Event ℚ → String) (events : List (Event ℚ)) (event : Event ℚ) :
    latencyEntries name (events ++ [event]) =
      latencyEntries name events ++ event.latencyUs.toList.map fun latency => (name event, latency) := by
  rw [latencyEntries, List.filterMap_append]
  cases h : event.latencyUs <;> simp [latencyEntries, h]

theorem filterMap_concat (f : Event ℚ → Option ℚ) (events : List (Event ℚ)) (event : Event ℚ) :
    (events ++ [event]).filterMap f = events.filterMap f ++ (f event).toList := by
  rw [List.filterMap_append]
  cases h : f event <;> simp [h]

/-- **One turn of the loop.** -/
theorem Accumulators.Of.addEvent (ht : t.Of events) (h : t.addEvent event = .ok t') : t'.Of (events ++ [event]) := by
  cases hlatency : t.addLatency event with
  | error e => simp [Accumulators.addEvent, hlatency, bind, Except.bind] at h
  | ok s =>
    simp only [Accumulators.addEvent, hlatency, bind, Except.bind, pure, Except.pure, Except.ok.injEq] at h
    obtain ⟨byFilterType, byQueryType, rfl, hfilter, hquery⟩ := addLatency_eq hlatency
    subst h
    constructor
    case latenciesByFilterType =>
      rw [latencyEntries_concat]
      exact hfilter _ ht.latenciesByFilterType
    case latenciesByQueryType =>
      rw [latencyEntries_concat]
      exact hquery _ ht.latenciesByQueryType
    case minTimestamp =>
      rw [filterMap_concat]
      cases htime : event.timestampUs with
      | none => simp [addCounts, htime, ht.minTimestamp]
      | some time => simp [addCounts, htime, ht.minTimestamp, min?_concat]
    case maxTimestamp =>
      rw [filterMap_concat]
      cases htime : event.timestampUs with
      | none => simp [addCounts, htime, ht.maxTimestamp]
      | some time => simp [addCounts, htime, ht.maxTimestamp, max?_concat]
    case latencies => rw [filterMap_concat, ← ht.latencies, addCounts]
    all_goals
      rw [addCounts]
      first
        | rw [sum_concat_getD]
        | rw [List.countP_append]
        | rw [List.map_append, List.map_singleton, tally_concat]
      simp [ht.falsePositives, ht.falsePositiveCount, ht.actualMatches, ht.filterMayMatches, ht.countsByFilterType,
        ht.countsByQueryType, ht.countByBenchmarkName, ht.totalConsidered, ht.totalPruned, ht.totalOpened,
        List.countP_cons]

/-- It does not fail on names of its own. -/
theorem addEvent_isOk (t : Accumulators) (h : event.PlainGroups) : ∃ t', t.addEvent event = .ok t' := by
  cases hlatency : event.latencyUs with
  | none => simp [Accumulators.addEvent, Accumulators.addLatency, hlatency, bind, Except.bind, pure, Except.pure]
  | some latency =>
    obtain ⟨byFilterType, hfilter⟩ := pushTo_isOk "latenciesByFilterType[ft]" t.latenciesByFilterType
      (event.filterTypeName, latency) h.filterType
    obtain ⟨byQueryType, hquery⟩ := pushTo_isOk "latenciesByQueryType[qt]" t.latenciesByQueryType
      (event.queryTypeName, latency) h.queryType
    simp [Accumulators.addEvent, Accumulators.addLatency, hlatency, hfilter, hquery, bind, Except.bind, pure,
      Except.pure]

/-- **The loop.** -/
theorem Accumulators.Of.foldlM (ht : t.Of events) {more : List (Event ℚ)}
    (h : more.foldlM Accumulators.addEvent t = .ok t') :
    t'.Of (events ++ more) := by
  induction more generalizing t events with
  | nil =>
    obtain rfl : t = t' := by simpa [pure, Except.pure] using h
    rwa [List.append_nil]
  | cons event more ih =>
    rw [List.foldlM_cons] at h
    cases hevent : t.addEvent event with
    | error e => simp [hevent, bind, Except.bind] at h
    | ok s =>
      simp only [hevent, bind, Except.bind] at h
      have hmore := ih (ht.addEvent hevent) h
      rwa [List.append_assoc, List.singleton_append] at hmore

theorem foldlM_addEvent_isOk (t : Accumulators) (h : ∀ event ∈ events, event.PlainGroups) :
    ∃ t', events.foldlM Accumulators.addEvent t = .ok t' := by
  induction events generalizing t with
  | nil => exact ⟨t, rfl⟩
  | cons event events ih =>
    obtain ⟨s, hs⟩ := addEvent_isOk t (h event (List.mem_cons_self ..))
    obtain ⟨t', ht'⟩ := ih s fun event' hevent' => h event' (List.mem_cons_of_mem event hevent')
    exact ⟨t', by simp [List.foldlM_cons, hs, bind, Except.bind, ht']⟩

/-- The default summary is what the loop would make of nothing. -/
theorem getDefaultSummary_eq : getDefaultSummary = ({} : Accumulators).summary 0 := rfl

/-- **`computeSummary`**, when it returns. -/
theorem computeSummary_ok {s : Summary} (h : computeSummary events = .ok s) :
    ∃ t : Accumulators, t.Of events ∧ s = t.summary events.length := by
  unfold computeSummary at h
  split at h
  · rename_i hempty
    obtain rfl := List.length_eq_zero_iff.1 hempty
    exact ⟨{}, .empty, by simpa [eq_comm, getDefaultSummary_eq] using h⟩
  · cases hfold : events.foldlM Accumulators.addEvent {} with
    | error e => simp [hfold, bind, Except.bind] at h
    | ok t =>
      simp only [hfold, bind, Except.bind, pure, Except.pure, Except.ok.injEq] at h
      exact ⟨t, by simpa using Accumulators.Of.empty.foldlM hfold, h.symm⟩

/-- It returns on names of its own. -/
theorem computeSummary_isOk (h : ∀ event ∈ events, event.PlainGroups) : ∃ s, computeSummary events = .ok s := by
  unfold computeSummary
  split
  · exact ⟨_, rfl⟩
  · obtain ⟨t, ht⟩ := foldlM_addEvent_isOk {} h
    simp [ht, bind, Except.bind, pure, Except.pure]

theorem mem_latencyEntries {name : Event ℚ → String} {entry : String × ℚ} (h : entry ∈ latencyEntries name events) :
    ∃ event ∈ events, entry.1 = name event := by
  obtain ⟨event, hevent, heq⟩ := List.mem_filterMap.1 h
  obtain ⟨latency, -, rfl⟩ := Option.map_eq_some_iff.1 heq
  exact ⟨event, hevent, rfl⟩

/-- A turn that does not fail has filed the latency under names of its own. -/
theorem Accumulators.Of.plainGroups (ht : t.Of events) (hplain : ∀ event ∈ events, event.PlainGroups) {latency : ℚ}
    (hlatency : event.latencyUs = some latency) (h : t.addEvent event = .ok t') : event.PlainGroups := by
  cases hfilter : pushTo "latenciesByFilterType[ft]" t.latenciesByFilterType (event.filterTypeName, latency) with
  | error e => simp [Accumulators.addEvent, addLatency, hlatency, hfilter, bind, Except.bind] at h
  | ok byFilterType =>
    cases hquery : pushTo "latenciesByQueryType[qt]" t.latenciesByQueryType (event.queryTypeName, latency) with
    | error e => simp [Accumulators.addEvent, addLatency, hlatency, hfilter, hquery, bind, Except.bind] at h
    | ok byQueryType =>
      constructor
      case filterType =>
        refine ht.latenciesByFilterType.plain_of_pushTo (fun entry hentry => ?_) hfilter
        obtain ⟨event', hevent', heq⟩ := mem_latencyEntries hentry
        rw [heq]
        exact (hplain event' hevent').filterType
      case queryType =>
        refine ht.latenciesByQueryType.plain_of_pushTo (fun entry hentry => ?_) hquery
        obtain ⟨event', hevent', heq⟩ := mem_latencyEntries hentry
        rw [heq]
        exact (hplain event' hevent').queryType

theorem plainGroups_of_foldlM (ht : t.Of events) (hplain : ∀ event ∈ events, event.PlainGroups)
    {more : List (Event ℚ)} (htimed : ∀ event ∈ more, event.latencyUs.isSome = true)
    (h : more.foldlM Accumulators.addEvent t = .ok t') : ∀ event ∈ more, event.PlainGroups := by
  induction more generalizing t events with
  | nil => simp
  | cons event more ih =>
    rw [List.foldlM_cons] at h
    cases hevent : t.addEvent event with
    | error e => simp [hevent, bind, Except.bind] at h
    | ok s =>
      simp only [hevent, bind, Except.bind] at h
      obtain ⟨latency, hlatency⟩ := Option.isSome_iff_exists.1 (htimed event (List.mem_cons_self ..))
      have hfirst := ht.plainGroups hplain hlatency hevent
      have hboth : ∀ event' ∈ events ++ [event], event'.PlainGroups := by
        intro event' hevent'
        rcases List.mem_append.1 hevent' with hmem | hmem
        · exact hplain event' hmem
        · rw [List.mem_singleton.1 hmem]
          exact hfirst
      have hrest := ih (ht.addEvent hevent) hboth (fun event' he => htimed event' (List.mem_cons_of_mem event he)) h
      intro event' hevent'
      rcases List.mem_cons.1 hevent' with rfl | hmem
      · exact hfirst
      · exact hrest event' hmem

/-- **It returns**, of timed events, if and only if their latencies are filed under names of their own. -/
theorem computeSummary_isOk_iff (htimed : ∀ event ∈ events, event.latencyUs.isSome = true) :
    (∃ s, computeSummary events = .ok s) ↔ ∀ event ∈ events, event.PlainGroups := by
  constructor
  · rintro ⟨s, hs⟩
    unfold computeSummary at hs
    split at hs
    · rename_i hempty
      rw [List.length_eq_zero_iff.1 hempty]
      simp
    · cases hfold : events.foldlM Accumulators.addEvent {} with
      | error e => simp [hfold, bind, Except.bind] at hs
      | ok t => exact plainGroups_of_foldlM .empty (by simp) htimed hfold
  · exact computeSummary_isOk

end Loop

end LevelDbSurf.Dashboard
