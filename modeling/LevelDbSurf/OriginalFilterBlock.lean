import LevelDbSurf.FilterBlockContract

/-!
# Filter blocks in the layout from before the fork (`table/filter_block.cc`, `patches/filter_block.cc.patch`)

Before the fork a table had one filter for each 2 KB of data:

    filter 0 | .. | filter n-1 | fixed32 start 0 | .. | fixed32 start n-1 | fixed32 array offset | 11

| here | there |
| --- | --- |
| `startBlockOriginal`, `finishOriginal` | `StartBlock` and `Finish` with the lines the patch removes |
| `originalContents`         | the block, for the keys of each filter |
| `groupAt`                  | the keys of the data blocks whose offset divided by 2 KB is this |

The reader is the fork's. It takes the word after the last start for the end of the last filter, which here is
the array offset, as it should be. `RangeMayMatch` counts the filters in a `uint32_t` and multiplies by four in it,
so it asks the first `2^30` filters only (`range_originalContents_iff`).
-/

namespace LevelDbSurf

open FilterBlockBuilder FilterBlockReader

/-! ## The layout -/

/-- The keys added under data-block offsets of this index. -/
def groupAt (blocks : Blocks) (i : Nat) : List Bytes :=
  keysOf (blocks.filter fun block => decide (block.1.toNat / kFilterBase = i))

/-- The first `n` groups. -/
def groups (blocks : Blocks) (n : Nat) : List (List Bytes) := (List.range n).map (groupAt blocks)

/-- The bytes of the filter of a group; none if it has no keys. -/
def groupFilter (P : FilterPolicy) (keys : List Bytes) : Bytes := if keys = [] then [] else P.createFilter keys

/-- The filters one after the other. -/
def filterArea (P : FilterPolicy) (gs : List (List Bytes)) : Bytes := (gs.map (groupFilter P)).flatten

/-- Where filter `i` starts; the last one ends at the last of these. -/
def filterStart (P : FilterPolicy) (gs : List (List Bytes)) (i : Nat) : UInt32 :=
  UInt32.ofNat (filterArea P (gs.take i)).length

/-- The words of the offset array, and its position. -/
def filterWords (P : FilterPolicy) (gs : List (List Bytes)) : List UInt32 :=
  (List.range (gs.length + 1)).map (filterStart P gs)

/-- The block. -/
def originalContents [Coding] (P : FilterPolicy) (gs : List (List Bytes)) : Bytes :=
  filterArea P gs ++ (filterWords P gs).flatMap putFixed32 ++ [kFilterBaseLg]

section Layout
variable (P : FilterPolicy) {gs : List (List Bytes)} {i : Nat}

theorem filterArea_append (gs gs' : List (List Bytes)) :
    filterArea P (gs ++ gs') = filterArea P gs ++ filterArea P gs' := by
  simp [filterArea]

theorem filterArea_succ {keys : List Bytes} (h : gs[i]? = some keys) :
    filterArea P (gs.take (i + 1)) = filterArea P (gs.take i) ++ groupFilter P keys := by
  obtain ⟨hi, rfl⟩ := List.getElem?_eq_some_iff.1 h
  rw [List.take_succ_eq_append_getElem hi, filterArea_append]
  simp [filterArea]

theorem filterArea_take_le (gs : List (List Bytes)) (i : Nat) :
    (filterArea P (gs.take i)).length ≤ (filterArea P gs).length := by
  conv_rhs => rw [← List.take_append_drop i gs, filterArea_append, List.length_append]
  omega

theorem filterStart_toNat (hlen : (filterArea P gs).length < 2 ^ 32) (i : Nat) :
    (filterStart P gs i).toNat = (filterArea P (gs.take i)).length := by
  have hle := filterArea_take_le P gs i
  rw [filterStart, UInt32.toNat_ofNat', Nat.mod_eq_of_lt (by omega)]

/-- Filter `i`, cut out of the area. -/
theorem drop_take_filterArea {keys : List Bytes} (h : gs[i]? = some keys) (rest : Bytes) :
    ((filterArea P gs ++ rest).drop (filterArea P (gs.take i)).length).take (groupFilter P keys).length =
      groupFilter P keys := by
  obtain ⟨hi, rfl⟩ := List.getElem?_eq_some_iff.1 h
  have hsplit : filterArea P gs = filterArea P (gs.take i) ++ (groupFilter P gs[i] ++
      filterArea P (gs.drop (i + 1))) := by
    have hgs : gs.take i ++ gs[i] :: gs.drop (i + 1) = gs := by
      rw [← List.drop_eq_getElem_cons hi, List.take_append_drop]
    conv_lhs => rw [← hgs, filterArea_append]
    rfl
  rw [hsplit, List.append_assoc, List.drop_left, List.append_assoc, List.take_left]

variable [Coding]

theorem length_flatMap_putFixed32 (words : List UInt32) : (words.flatMap putFixed32).length = 4 * words.length := by
  induction words with
  | nil => rfl
  | cons w words ih =>
    simp [ih]
    omega

theorem length_originalContents (gs : List (List Bytes)) :
    (originalContents P gs).length = (filterArea P gs).length + 4 * gs.length + 5 := by
  simp only [originalContents, List.length_append, length_flatMap_putFixed32, filterWords, List.length_map,
    List.length_range, List.length_singleton]
  omega

/-- Word `i` of the array; the one after the last start is the array's position. -/
theorem wordAt_originalContents (hi : i ≤ gs.length) {pos : Nat} (hpos : pos = (filterArea P gs).length + i * 4)
    (h : pos + 4 ≤ (originalContents P gs).length) : wordAt (originalContents P gs) pos h = filterStart P gs i := by
  have hword : (filterWords P gs)[i]? = some (filterStart P gs i) := by
    simp [filterWords, Nat.lt_succ_of_le hi]
  obtain ⟨hlt, heq⟩ := List.getElem?_eq_some_iff.1 hword
  have hsplit : filterWords P gs = (filterWords P gs).take i ++ filterStart P gs i :: (filterWords P gs).drop (i + 1) := by
    rw [← heq, ← List.drop_eq_getElem_cons hlt, List.take_append_drop]
  have hlength : ((filterWords P gs).take i).length = i := by
    rw [List.length_take]
    omega
  refine wordAt_append (filterArea P gs ++ ((filterWords P gs).take i).flatMap putFixed32)
    (((filterWords P gs).drop (i + 1)).flatMap putFixed32 ++ [kFilterBaseLg]) _ ?_ ?_ _
  · rw [List.length_append, length_flatMap_putFixed32, hlength, hpos]
    omega
  · rw [originalContents]
    conv_lhs => rw [hsplit]
    simp

end Layout

/-! ## The fork's reader on it -/

section Reader
variable [Coding] (P : FilterPolicy) {gs : List (List Bytes)}

/-- The constructor finds the filters. -/
theorem new_originalContents (hlen : (filterArea P gs).length < 2 ^ 32) :
    ∃ h, new P (originalContents P gs) =
      ⟨P, originalContents P gs, (filterArea P gs).length, gs.length, 11, h⟩ := by
  have hl := length_originalContents P gs
  have hlast : (originalContents P gs)[(originalContents P gs).length - 1] = kFilterBaseLg := by
    simp [originalContents]
  have hpos : (originalContents P gs).length - 5 = (filterArea P gs).length + gs.length * 4 := by omega
  have hword := wordAt_originalContents P (le_refl gs.length) hpos (by omega)
  have hstart : (filterStart P gs gs.length).toNat = (filterArea P gs).length := by
    rw [filterStart_toNat P hlen, List.take_length]
  obtain ⟨h, hnew⟩ := new_eq P (originalContents P gs) (by omega) _ _ hlast hword (by omega)
  have hnum : ((originalContents P gs).length - 5 - (filterArea P gs).length) / 4 = gs.length := by omega
  refine ⟨fun _ => by omega, ?_⟩
  rw [hnew]
  simp [hstart, hnum, charToSize, kFilterBaseLg]

/-- Entry `i` is the filter of group `i`. -/
theorem entries_originalContents (hlen : (filterArea P gs).length < 2 ^ 32) {h} {i : Nat} (hi : i < gs.length) :
    let r : FilterBlockReader := ⟨P, originalContents P gs, (filterArea P gs).length, gs.length, 11, h⟩
    r.entryOk i hi = true ∧ r.entrySlice i hi = groupFilter P gs[i] := by
  intro r
  have hkeys : gs[i]? = some gs[i] := List.getElem?_eq_getElem hi
  have hs : r.entryStart i hi = filterStart P gs i := wordAt_originalContents P hi.le rfl _
  have hl : r.entryLimit i hi = filterStart P gs (i + 1) :=
    wordAt_originalContents P hi (by show (filterArea P gs).length + i * 4 + 4 = _; omega) _
  have hlimit : (filterStart P gs (i + 1)).toNat =
      (filterStart P gs i).toNat + (groupFilter P gs[i]).length := by
    rw [filterStart_toNat P hlen, filterStart_toNat P hlen, filterArea_succ P hkeys, List.length_append]
  have hle := filterArea_take_le P gs (i + 1)
  have hstop := filterStart_toNat P hlen (i + 1)
  constructor
  · simp only [entryOk, inArea, hs, hl, Bool.and_eq_true, decide_eq_true_eq, UInt32.le_iff_toNat_le]
    exact ⟨by omega, by show _ ≤ (filterArea P gs).length; omega⟩
  · rw [entrySlice, filterSlice, hs, hl, hlimit, Nat.add_sub_cancel_left, filterStart_toNat P hlen]
    show ((originalContents P gs).drop _).take _ = _
    rw [originalContents, List.append_assoc]
    exact drop_take_filterArea P hkeys _

/-- **`KeyMayMatch`** asks the filter of the offset's group, if there is one. -/
theorem keyMayMatch_originalContents (hlen : (filterArea P gs).length < 2 ^ 32) (offset : UInt64) (key : Bytes) :
    (new P (originalContents P gs)).keyMayMatch offset key =
      if h : offset.toNat / kFilterBase < gs.length then
        P.keyMayMatch key (groupFilter P (gs[offset.toNat / kFilterBase]))
      else true := by
  obtain ⟨h, hnew⟩ := new_originalContents P hlen
  have hshift : offset.toNat >>> 11 = offset.toNat / kFilterBase := Nat.shiftRight_eq_div_pow _ _
  rw [hnew]
  unfold keyMayMatch
  dsimp only
  simp only [hshift]
  by_cases hi : offset.toNat / kFilterBase < gs.length
  · obtain ⟨hok, hslice⟩ := entries_originalContents P hlen (h := h) hi
    rw [dif_pos hi, dif_pos hi]
    exact (if_pos hok).trans (congrArg (P.keyMayMatch key) hslice)
  · rw [dif_neg hi, dif_neg hi]

/-- The loop of `RangeMayMatch` gets to an entry that lets the range through, if it is not asked to go on for too
long. -/
theorem rangeLoop_of_entry {r : FilterBlockReader} {lo hi : Bytes} {j : UInt32} (hj : j.toNat < r.num)
    (he : r.rangeEntry lo hi j hj = true) {fuel : Nat} {i : UInt32} (hij : i.toNat ≤ j.toNat)
    (hfuel : j.toNat - i.toNat < fuel) : r.rangeLoop lo hi fuel i = some true := by
  induction fuel generalizing i with
  | zero => omega
  | succ fuel ih =>
    have hj32 := j.toNat_lt
    rw [rangeLoop, dif_pos (by omega)]
    split
    · rfl
    · rename_i hno
      have hne : i ≠ j := by
        rintro rfl
        exact hno he
      have hne : i.toNat ≠ j.toNat := fun heq => hne (UInt32.toNat_inj.1 heq)
      have hsucc : (i + 1).toNat = i.toNat + 1 := by
        rw [UInt32.toNat_add]
        simp only [UInt32.reduceToNat]
        omega
      exact ih (by omega) (by omega)

/-- **`RangeMayMatch`** lets a range through when one of the first `2^30` entries does. -/
theorem rangeMayMatch_some_true {r : FilterBlockReader} {lo hi : Bytes} :
    r.rangeMayMatch lo hi = some true ↔
      ∃ e, ∃ h : e < r.num, e < 2 ^ 30 ∧ r.entryOk e h = true ∧
        r.policy.rangeMayMatch lo hi (r.entrySlice e h) = true := by
  constructor
  · intro h
    obtain ⟨j, hj, he⟩ := rangeLoop_some_true h
    rw [rangeEntry_eq, Bool.and_eq_true] at he
    exact ⟨_, _, Nat.mod_lt _ (by decide), he⟩
  · rintro ⟨e, h, he30, hok, hrange⟩
    have hto : (UInt32.ofNat e).toNat = e := by rw [UInt32.toNat_ofNat', Nat.mod_eq_of_lt (by omega)]
    have hentry : r.rangeEntry lo hi (UInt32.ofNat e) (by omega) = true := by
      rw [rangeEntry_eq]
      simp only [hto, Nat.mod_eq_of_lt he30, hok, hrange, Bool.and_self]
    exact rangeLoop_of_entry _ hentry (by simp) (by simp; omega)

/-- On a block of the original layout: when the filter of one of the first `2^30` groups does. -/
theorem range_originalContents_iff (hlen : (filterArea P gs).length < 2 ^ 32) (lo hi : Bytes) :
    (new P (originalContents P gs)).rangeMayMatch lo hi = some true ↔
      ∃ keys ∈ gs.take (2 ^ 30), P.rangeMayMatch lo hi (groupFilter P keys) = true := by
  obtain ⟨h, hnew⟩ := new_originalContents P hlen
  rw [hnew, rangeMayMatch_some_true]
  constructor
  · rintro ⟨e, he, he30, -, hrange⟩
    rw [(entries_originalContents P hlen he).2] at hrange
    have he : e < gs.length := he
    exact ⟨gs[e], List.mem_take_iff_getElem.2 ⟨e, by omega, rfl⟩, hrange⟩
  · rintro ⟨keys, hkeys, hrange⟩
    obtain ⟨e, he, rfl⟩ := List.mem_take_iff_getElem.1 hkeys
    obtain ⟨hlt, he30⟩ : e < gs.length ∧ e < 2 ^ 30 := by omega
    obtain ⟨hok, hslice⟩ := entries_originalContents P hlen (h := h) hlt
    exact ⟨e, hlt, he30, hok, by rw [hslice]; exact hrange⟩

end Reader

/-! ## The original builder -/

section Builder
variable [Coding]

theorem generateFilter_filterOffsets (b : FilterBlockBuilder) :
    b.generateFilter.filterOffsets = b.filterOffsets ++ [UInt32.ofNat b.result.length] := by
  unfold generateFilter
  dsimp only
  split <;> rfl

/-- `while (filter_index > filter_offsets_.size()) GenerateFilter();`. -/
def flushFilters (filterIndex : Nat) (b : FilterBlockBuilder) : FilterBlockBuilder :=
  if filterIndex > b.filterOffsets.length then flushFilters filterIndex b.generateFilter else b
termination_by filterIndex - b.filterOffsets.length
decreasing_by
  rw [generateFilter_filterOffsets, List.length_append, List.length_singleton]
  omega

/-- `StartBlock`, before the fork. -/
def startBlockOriginal (b : FilterBlockBuilder) (blockOffset : UInt64) : FilterBlockBuilder :=
  flushFilters (blockOffset.toNat / kFilterBase) b

/-- `Finish`, before the fork. -/
def finishOriginal (b : FilterBlockBuilder) : FilterBlockBuilder :=
  let b := if b.start ≠ [] then b.generateFilter else b
  let arrayOffset := UInt32.ofNat b.result.length
  { b with result := b.result ++ b.filterOffsets.flatMap putFixed32 ++ putFixed32 arrayOffset ++ [kFilterBaseLg] }

/-- One `StartBlock AddKey*`. -/
def addBlockOriginal (b : FilterBlockBuilder) (block : UInt64 × List Bytes) : FilterBlockBuilder :=
  block.2.foldl addKey (startBlockOriginal b block.1)

/-- `(StartBlock AddKey*)* Finish` on a new builder. -/
def buildOriginal (P : FilterPolicy) (blocks : Blocks) : FilterBlockBuilder :=
  finishOriginal (blocks.foldl addBlockOriginal { policy := P })

/-- The builder has made the filters of `gs`, and holds the keys of the next one. -/
structure Pending (P : FilterPolicy) (gs : List (List Bytes)) (held : List Bytes) (b : FilterBlockBuilder) : Prop where
  policy : b.policy = P
  result : b.result = filterArea P gs
  filterOffsets : b.filterOffsets = (List.range gs.length).map (filterStart P gs)
  keys : b.keys = held.flatten
  start : b.start = startsFrom 0 held

section Pending
variable {P : FilterPolicy} {gs : List (List Bytes)} {keys : List Bytes} {b : FilterBlockBuilder}

omit [Coding] in
theorem Pending.filterOffsets_length (h : Pending P gs keys b) : b.filterOffsets.length = gs.length := by
  rw [h.filterOffsets, List.length_map, List.length_range]

omit [Coding] in
/-- One more filter leaves the starts of the others what they are. -/
theorem filterStart_append (gs' : List (List Bytes)) {i : Nat} (hi : i ≤ gs.length) :
    filterStart P (gs ++ gs') i = filterStart P gs i := by
  rw [filterStart, filterStart, List.take_append_of_le_length hi]

/-- **`GenerateFilter`** makes the filter of the keys it holds. -/
theorem Pending.generateFilter (h : Pending P gs keys b) (hkeys : keys.length < 2 ^ 31) :
    Pending P (gs ++ [keys]) [] b.generateFilter := by
  have hoffsets : b.filterOffsets ++ [UInt32.ofNat b.result.length] =
      (List.range (gs ++ [keys]).length).map (filterStart P (gs ++ [keys])) := by
    rw [List.length_append, List.length_singleton, List.range_succ, List.map_append, h.filterOffsets, h.result]
    congr 1
    · refine List.map_congr_left fun i hi => (filterStart_append _ ?_).symm
      exact (List.mem_range.1 hi).le
    · simp [filterStart]
  have harea : filterArea P (gs ++ [keys]) = filterArea P gs ++ groupFilter P keys := by
    simp [filterArea]
  unfold FilterBlockBuilder.generateFilter
  dsimp only
  by_cases hempty : keys = []
  · subst hempty
    rw [if_pos (by simp [h.start, startsFrom])]
    exact ⟨h.policy, by simp [h.result, harea, groupFilter], hoffsets, h.keys, h.start⟩
  · have hlength : b.start.length = keys.length := by rw [h.start, length_startsFrom]
    have hcut := cut_flatten keys
    dsimp only at hcut
    rw [if_neg (by simpa [hlength] using hempty)]
    refine ⟨h.policy, ?_, hoffsets, rfl, rfl⟩
    simp only [h.start, length_startsFrom, h.keys, hcut, h.result, harea, h.policy, filterOf,
      (keysShown_eq_iff keys).2 hkeys, groupFilter, if_neg hempty]

/-- **The loop of `StartBlock`**: a filter of the keys it holds, and empty ones up to the index. -/
theorem Pending.flushFilters {filterIndex : Nat} (h : Pending P gs keys b) (hkeys : keys.length < 2 ^ 31)
    (hlt : gs.length < filterIndex) :
    Pending P (gs ++ keys :: List.replicate (filterIndex - gs.length - 1) []) []
      (LevelDbSurf.flushFilters filterIndex b) := by
  -- by induction on the filters that are left to make
  generalize hn : filterIndex - gs.length - 1 = n
  induction n generalizing gs keys b with
  | zero =>
    have hdone := h.generateFilter hkeys
    rw [LevelDbSurf.flushFilters, if_pos (by rw [h.filterOffsets_length]; exact hlt), LevelDbSurf.flushFilters,
      if_neg (by rw [hdone.filterOffsets_length, List.length_append, List.length_singleton]; omega)]
    exact hdone
  | succ n ih =>
    have hdone := h.generateFilter hkeys
    rw [LevelDbSurf.flushFilters, if_pos (by rw [h.filterOffsets_length]; exact hlt)]
    have hlength : (gs ++ [keys]).length = gs.length + 1 := by simp
    have hrest := ih hdone (by simp) (by omega) (by omega)
    rwa [List.append_assoc, List.singleton_append, ← List.replicate_succ] at hrest

omit [Coding] in
/-- `AddKey`s. -/
theorem Pending.addKeys (h : Pending P gs keys b) (more : List Bytes) : Pending P gs (keys ++ more) (more.foldl addKey b) := by
  have hstarts : ∀ (base : Nat) (ks : List Bytes), startsFrom base (ks ++ more) =
      startsFrom base ks ++ startsFrom (base + ks.flatten.length) more := by
    intro base ks
    induction ks generalizing base with
    | nil => simp [startsFrom]
    | cons k ks ih => simp [startsFrom, ih, Nat.add_assoc]
  rw [foldl_addKey]
  refine ⟨h.policy, h.result, h.filterOffsets, ?_, ?_⟩
  · simp [h.keys]
  · simp [h.start, h.keys, hstarts]

end Pending

variable {P : FilterPolicy} {blocks : Blocks}

omit [Coding] in
theorem groupAt_append (blocks : Blocks) (block : UInt64 × List Bytes) (i : Nat) :
    groupAt (blocks ++ [block]) i =
      groupAt blocks i ++ if block.1.toNat / kFilterBase = i then block.2 else [] := by
  by_cases hi : block.1.toNat / kFilterBase = i <;> simp [groupAt, keysOf, hi]

omit [Coding] in
theorem groupAt_of_lt {i m : Nat} (h : ∀ block ∈ blocks, block.1.toNat / kFilterBase ≤ m) (hi : m < i) :
    groupAt blocks i = [] := by
  have hnone : blocks.filter (fun block => decide (block.1.toNat / kFilterBase = i)) = [] := by
    rw [List.filter_eq_nil_iff]
    intro block hblock
    have := h block hblock
    simp only [decide_eq_true_eq]
    omega
  simp [groupAt, hnone, keysOf]

omit [Coding] in
/-- Groups after the last block's are empty. -/
theorem groups_of_lt {m i : Nat} (h : ∀ block ∈ blocks, block.1.toNat / kFilterBase ≤ m) (hi : m < i) :
    groups blocks i = groups blocks m ++ groupAt blocks m :: List.replicate (i - m - 1) [] := by
  obtain ⟨n, rfl⟩ := Nat.exists_eq_add_of_lt hi
  have hn : m + n + 1 - m - 1 = n := by omega
  rw [hn]
  clear hi hn
  induction n with
  | zero => simp [groups, List.range_succ]
  | succ n ih =>
    have hlast : groupAt blocks (m + n + 1) = [] := groupAt_of_lt h (by omega)
    have hsucc : groups blocks (m + (n + 1) + 1) = groups blocks (m + n + 1) ++ [groupAt blocks (m + n + 1)] := by
      rw [groups, ← Nat.add_assoc, List.range_succ, List.map_append]
      rfl
    rw [hsucc, ih, hlast, List.replicate_succ']
    simp

/-- **The builder between two calls**, for blocks in order of their offsets. -/
theorem pending_foldl (hsorted : blocks.Pairwise fun a b => a.1.toNat ≤ b.1.toNat)
    (hkeys : ∀ i, (groupAt blocks i).length < 2 ^ 31) :
    ∃ m, (∀ block ∈ blocks, block.1.toNat / kFilterBase ≤ m) ∧
      (∀ offset, (∀ block ∈ blocks, block.1.toNat ≤ offset) → m ≤ offset / kFilterBase) ∧
      Pending P (groups blocks m) (groupAt blocks m) (blocks.foldl addBlockOriginal { policy := P }) := by
  induction blocks using List.reverseRecOn with
  | nil => exact ⟨0, by simp, by simp, rfl, rfl, rfl, rfl, rfl⟩
  | append_singleton blocks block ih =>
    obtain ⟨hbefore, -, hlast⟩ := List.pairwise_append.1 hsorted
    have hkeys' : ∀ i, (groupAt blocks i).length < 2 ^ 31 := fun i => by
      have := hkeys i
      rw [groupAt_append, List.length_append] at this
      omega
    obtain ⟨m, hle, hge, hpending⟩ := ih hbefore hkeys'
    have hm : m ≤ block.1.toNat / kFilterBase := hge _ fun b hb => hlast b hb block (List.mem_singleton_self block)
    have hlength : (groups blocks m).length = m := by simp [groups]
    refine ⟨block.1.toNat / kFilterBase, ?_, fun offset hoffset => ?_, ?_⟩
    · intro b hb
      rcases List.mem_append.1 hb with hb | hb
      · exact (hle b hb).trans hm
      · rw [List.mem_singleton.1 hb]
    · exact Nat.div_le_div_right (hoffset block (by simp))
    · -- the groups so far, with the new keys in the one they belong to
      have hgroups : groups (blocks ++ [block]) (block.1.toNat / kFilterBase) =
          groups blocks (block.1.toNat / kFilterBase) := by
        refine List.map_congr_left fun i hi => ?_
        have hi := List.mem_range.1 hi
        rw [groupAt_append, if_neg (by omega), List.append_nil]
      rw [List.foldl_append, hgroups, groupAt_append, if_pos rfl]
      refine Pending.addKeys ?_ block.2
      by_cases hnew : m < block.1.toNat / kFilterBase
      · have hflush := hpending.flushFilters (hkeys' m) (by rw [hlength]; exact hnew)
        rw [hlength, ← groups_of_lt hle hnew] at hflush
        rw [groupAt_of_lt hle hnew]
        exact hflush
      · obtain rfl : m = block.1.toNat / kFilterBase := by omega
        have hstay : flushFilters (block.1.toNat / kFilterBase) (blocks.foldl addBlockOriginal { policy := P }) =
            blocks.foldl addBlockOriginal { policy := P } := by
          rw [flushFilters, if_neg (by rw [hpending.filterOffsets_length, hlength]; omega)]
        rw [startBlockOriginal, hstay]
        exact hpending

/-- **What the original builder writes**, when no group has `2^31` keys: the groups of the data blocks, one
after the other, up to the last that has a key. -/
theorem buildOriginal_result (hsorted : blocks.Pairwise fun a b => a.1.toNat ≤ b.1.toNat)
    (hkeys : ∀ i, (groupAt blocks i).length < 2 ^ 31) :
    ∃ n, (buildOriginal P blocks).result = originalContents P (groups blocks n) ∧
      ∀ block ∈ blocks, block.2 ≠ [] → block.1.toNat / kFilterBase < n := by
  obtain ⟨m, hle, -, hpending⟩ := pending_foldl (P := P) hsorted hkeys
  have hwrite : ∀ {gs : List (List Bytes)} {b : FilterBlockBuilder}, Pending P gs [] b →
      b.result ++ b.filterOffsets.flatMap putFixed32 ++ putFixed32 (UInt32.ofNat b.result.length) ++ [kFilterBaseLg] =
        originalContents P gs := by
    intro gs b h
    simp [originalContents, filterWords, List.range_succ, h.result, h.filterOffsets, filterStart]
  unfold buildOriginal finishOriginal
  by_cases hempty : groupAt blocks m = []
  · rw [hempty] at hpending
    refine ⟨m, ?_, fun block hblock hne => ?_⟩
    · rw [if_neg (by simp [hpending.start, startsFrom])]
      exact hwrite hpending
    · refine (hle block hblock).lt_of_ne fun heq => hne ?_
      have hflat : ∀ b ∈ blocks.filter (fun b => decide (b.1.toNat / kFilterBase = m)), b.2 = [] :=
        List.flatMap_eq_nil_iff.1 hempty
      exact hflat block (List.mem_filter.2 ⟨hblock, by simp [heq]⟩)
  · have hstart : (blocks.foldl addBlockOriginal { policy := P }).start ≠ [] := by
      rw [hpending.start]
      intro h0
      have := congrArg List.length h0
      rw [length_startsFrom] at this
      exact hempty (List.length_eq_zero_iff.1 this)
    refine ⟨m + 1, ?_, fun block hblock _ => Nat.lt_succ_of_le (hle block hblock)⟩
    have hgroups : groups blocks (m + 1) = groups blocks m ++ [groupAt blocks m] := by
      rw [groups, List.range_succ, List.map_append]
      rfl
    rw [if_pos hstart, hgroups]
    exact hwrite (hpending.generateFilter (hkeys m))

end Builder

/-! ## Readable after the fork -/

/-- The policy rejects neither a key of a filter nor a range with one. -/
structure NeverRejects (P : FilterPolicy) : Prop where
  key : ∀ keys, ∀ k ∈ keys, P.keyMayMatch k (P.createFilter keys) = true
  range : ∀ keys, ∀ k ∈ keys, ∀ lo hi, lo ≤ k → k ≤ hi → P.rangeMayMatch lo hi (P.createFilter keys) = true

/-- The fork's reader finds the keys of the blocks where they were added, and lets through every range with
one. -/
structure StaysReadable [Coding] (P : FilterPolicy) (blocks : Blocks) (contents : Bytes) : Prop where
  key : ∀ block ∈ blocks, ∀ k ∈ block.2, (new P contents).keyMayMatch block.1 k = true
  range : ∀ lo hi, (∃ block ∈ blocks, ∃ k ∈ block.2, lo ≤ k ∧ k ≤ hi) →
    (new P contents).rangeMayMatch lo hi = some true

/-- Every range with a key from group `2^30` on, if there is such a key, passes the filter of an earlier group. -/
def EarlierFilterPasses (P : FilterPolicy) (blocks : Blocks) : Prop :=
  ∀ block ∈ blocks, 2 ^ 30 ≤ block.1.toNat / kFilterBase → ∀ k ∈ block.2, ∀ lo hi, lo ≤ k → k ≤ hi →
    ∃ i < 2 ^ 30, P.rangeMayMatch lo hi (groupFilter P (groupAt blocks i)) = true

theorem mem_groupAt {blocks : Blocks} {block : UInt64 × List Bytes} (hblock : block ∈ blocks) {k : Bytes}
    (hk : k ∈ block.2) : k ∈ groupAt blocks (block.1.toNat / kFilterBase) :=
  List.mem_flatMap.2 ⟨block, List.mem_filter.2 ⟨hblock, by simp⟩, hk⟩

theorem groupFilter_of_mem (P : FilterPolicy) {keys : List Bytes} {k : Bytes} (hk : k ∈ keys) :
    groupFilter P keys = P.createFilter keys := if_neg (List.ne_nil_of_mem hk)

/-- The filters asked about a range. -/
theorem mem_groups_take {blocks : Blocks} {n : Nat} {keys : List Bytes} :
    keys ∈ (groups blocks n).take (2 ^ 30) ↔ ∃ i, i < n ∧ i < 2 ^ 30 ∧ keys = groupAt blocks i := by
  rw [List.mem_take_iff_getElem]
  simp only [groups, List.length_map, List.length_range, List.getElem_map, List.getElem_range]
  constructor
  · rintro ⟨i, hi, rfl⟩
    exact ⟨i, by omega, by omega, rfl⟩
  · rintro ⟨i, hn, h30, rfl⟩
    exact ⟨i, by omega, rfl⟩

/-- **Tables from before the fork.** On a filter block in the original layout, with as many groups as it takes
to hold all keys, the fork's reader never rejects a key where it was added; and it lets through every range
with a key if and only if the keys from group `2^30` on can do without a filter of their own. -/
theorem staysReadable_iff [Coding] (P : FilterPolicy) (hP : NeverRejects P) (blocks : Blocks) (n : Nat)
    (hn : ∀ block ∈ blocks, block.2 ≠ [] → block.1.toNat / kFilterBase < n)
    (hlen : (filterArea P (groups blocks n)).length < 2 ^ 32) :
    StaysReadable P blocks (originalContents P (groups blocks n)) ↔ EarlierFilterPasses P blocks := by
  constructor
  · intro h block hblock _ k hk lo hi hlo hhi
    have hrange := h.range lo hi ⟨block, hblock, k, hk, hlo, hhi⟩
    obtain ⟨keys, hkeys, hpass⟩ := (range_originalContents_iff P hlen lo hi).1 hrange
    obtain ⟨i, -, hi30, rfl⟩ := mem_groups_take.1 hkeys
    exact ⟨i, hi30, hpass⟩
  · intro h
    constructor
    · intro block hblock k hk
      have hmem := mem_groupAt hblock hk
      rw [keyMayMatch_originalContents P hlen]
      split
      · simp only [groups, List.getElem_map, List.getElem_range]
        rw [groupFilter_of_mem P hmem]
        exact hP.key _ k hmem
      · rfl
    · rintro lo hi ⟨block, hblock, k, hk, hlo, hhi⟩
      have hlt := hn block hblock (List.ne_nil_of_mem hk)
      have hmem := mem_groupAt hblock hk
      rw [range_originalContents_iff P hlen]
      by_cases hearly : block.1.toNat / kFilterBase < 2 ^ 30
      · refine ⟨_, mem_groups_take.2 ⟨_, hlt, hearly, rfl⟩, ?_⟩
        rw [groupFilter_of_mem P hmem]
        exact hP.range _ k hmem lo hi hlo hhi
      · obtain ⟨i, hi30, hpass⟩ := h block hblock (not_lt.1 hearly) k hk lo hi hlo hhi
        exact ⟨_, mem_groups_take.2 ⟨i, by omega, hi30, rfl⟩, hpass⟩

namespace SampleOriginal

/-- A policy whose filters tell whether the key `a` is there. -/
def policy : FilterPolicy where
  name := "a"
  createFilter keys := if [97] ∈ keys then [1] else [0]
  keyMayMatch key filter := decide (key ≠ [97]) || decide (filter = [1])
  rangeMayMatch lo hi filter := !(decide (lo = [97]) && decide (hi = [97])) || decide (filter = [1])

theorem neverRejects : NeverRejects policy where
  key keys k hk := by
    by_cases ha : k = [97]
    · subst ha
      simp [policy, hk]
    · simp [policy, ha]
  range keys k hk lo hi hlo hhi := by
    by_cases ha : lo = [97] ∧ hi = [97]
    · obtain ⟨rfl, rfl⟩ := ha
      obtain rfl := le_antisymm hlo hhi
      simp [policy, hk]
    · simp only [policy, Bool.or_eq_true, Bool.not_eq_true', Bool.and_eq_false_imp, decide_eq_true_eq,
        decide_eq_false_iff_not]
      exact Or.inl fun hl hh => ha ⟨hl, hh⟩

end SampleOriginal

theorem staysReadable_iff_sample :
    letI := littleEndian
    StaysReadable SampleOriginal.policy [(0, [[96]]), (3000, []), (5000, [[97], [98]])]
        (originalContents SampleOriginal.policy (groups [(0, [[96]]), (3000, []), (5000, [[97], [98]])] 3)) ↔
      EarlierFilterPasses SampleOriginal.policy [(0, [[96]]), (3000, []), (5000, [[97], [98]])] :=
  letI := littleEndian
  staysReadable_iff SampleOriginal.policy SampleOriginal.neverRejects _ 3 (by decide) (by decide)

/-- One block of keys: all filters before its own are empty. -/
theorem groupAt_lone (block : UInt64 × List Bytes) (i : Nat) :
    groupAt [block] i = if block.1.toNat / kFilterBase = i then block.2 else [] := by
  have h := groupAt_append [] block i
  rwa [List.nil_append, show groupAt [] i = [] from rfl, List.nil_append] at h

theorem filterArea_lone (P : FilterPolicy) (block : UInt64 × List Bytes) :
    filterArea P (groups [block] (block.1.toNat / kFilterBase + 1)) = groupFilter P block.2 := by
  have hbefore : filterArea P (groups [block] (block.1.toNat / kFilterBase)) = [] := by
    rw [filterArea, List.flatten_eq_nil_iff]
    simp only [groups, List.map_map, List.mem_map, List.mem_range, Function.comp_apply]
    rintro _ ⟨i, hi, rfl⟩
    rw [groupAt_lone, if_neg (by omega)]
    rfl
  have hlast : groups [block] (block.1.toNat / kFilterBase + 1) =
      groups [block] (block.1.toNat / kFilterBase) ++ [groupAt [block] (block.1.toNat / kFilterBase)] := by
    rw [groups, List.range_succ, List.map_append]
    rfl
  rw [hlast, filterArea_append, hbefore, groupAt_lone, if_pos rfl]
  simp [filterArea]

/-- A key two tebibytes into a table: it is in filter `2^30`, and the range of this one key is ruled out. -/
theorem range_lost :
    ¬ ∀ [Coding] (P : FilterPolicy), NeverRejects P → ∀ (blocks : Blocks) (n : Nat),
      (∀ block ∈ blocks, block.2 ≠ [] → block.1.toNat / kFilterBase < n) →
      (filterArea P (groups blocks n)).length < 2 ^ 32 →
      StaysReadable P blocks (originalContents P (groups blocks n)) := by
  intro h
  let _ := littleEndian
  have hlen : (filterArea SampleOriginal.policy (groups [(2 ^ 41, [[97]])]
      ((2 ^ 41 : UInt64).toNat / kFilterBase + 1))).length < 2 ^ 32 := by
    rw [filterArea_lone SampleOriginal.policy (2 ^ 41, [[97]])]
    decide
  have hread := h SampleOriginal.policy SampleOriginal.neverRejects [(2 ^ 41, [[97]])] _ (by simp) hlen
  have hrange := hread.range [97] [97] ⟨_, List.mem_singleton_self _, [97], by simp, le_refl _, le_refl _⟩
  obtain ⟨keys, hkeys, hpass⟩ := (range_originalContents_iff SampleOriginal.policy hlen [97] [97]).1 hrange
  obtain ⟨i, -, hi30, rfl⟩ := mem_groups_take.1 hkeys
  have hindex : (2 ^ 41 : UInt64).toNat / kFilterBase = 2 ^ 30 := by decide
  rw [groupAt_lone, if_neg (by rw [hindex]; omega)] at hpass
  revert hpass
  decide

end LevelDbSurf
