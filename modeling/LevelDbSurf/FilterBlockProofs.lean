import LevelDbSurf.FilterBlock

/-!
# What the filter block says back

* `build_result`: the bytes `Finish` leaves, for any call sequence and any policy. `CreateFilter`
  runs once, on all added keys (cut by the cast of their number to `int`).
* `new_build`: the reader takes the sentinel for a second entry. Entry 0 is the filter, entry 1 is
  the empty slice at its end, so a range is asked of the filter *and of the empty filter*, and the
  offsets `2^32 ≤ offset < 2^33` are served by the empty one.
* `rangeMayMatch_some_false` : when the loop of `RangeMayMatch` answers `false`, for any contents.
-/

namespace LevelDbSurf

open FilterBlockBuilder

/-! ## The builder -/

/-- Where each key starts when keys are appended after `base` bytes. -/
def startsFrom : Nat → List Bytes → List Nat
  | _, [] => []
  | base, k :: ks => base :: startsFrom (base + k.length) ks

theorem length_startsFrom (base : Nat) (ks : List Bytes) : (startsFrom base ks).length = ks.length := by
  induction ks generalizing base with
  | nil => rfl
  | cons k ks ih => simp [startsFrom, ih]

/-- The `start_` array with the total length pushed after it. -/
theorem startsFrom_getD (base : Nat) (ks : List Bytes) (i : Nat) (hi : i ≤ ks.length) :
    (startsFrom base ks ++ [base + ks.flatten.length]).getD i 0 = base + (ks.take i).flatten.length := by
  induction ks generalizing base i with
  | nil =>
    have : i = 0 := by simpa using hi
    subst this
    simp [startsFrom]
  | cons k ks ih =>
    cases i with
    | zero => simp [startsFrom]
    | succ i =>
      have := ih (base + k.length) i (by simpa using hi)
      simp only [List.flatten_cons, List.length_append, ← Nat.add_assoc] at this ⊢
      simpa [startsFrom, Nat.add_assoc] using this

theorem foldl_addKey (ks : List Bytes) (b : FilterBlockBuilder) :
    ks.foldl addKey b =
      { b with start := b.start ++ startsFrom b.keys.length ks, keys := b.keys ++ ks.flatten } := by
  induction ks generalizing b with
  | nil => simp [startsFrom]
  | cons k ks ih =>
    rw [List.foldl_cons, ih]
    simp [addKey, startsFrom]

theorem foldl_addBlock (blocks : Blocks) (b : FilterBlockBuilder) :
    blocks.foldl addBlock b = (keysOf blocks).foldl addKey b := by
  induction blocks generalizing b with
  | nil => rfl
  | cons bl blocks ih =>
    rw [List.foldl_cons, ih]
    simp [addBlock, startBlock, keysOf]

/-- The assertion of `StartBlock` cannot fail before `Finish`. -/
theorem startBlockOk_foldl (P : FilterPolicy) (blocks : Blocks) (offset : UInt64) :
    (blocks.foldl addBlock { policy := P }).startBlockOk offset = true := by
  simp [foldl_addBlock, foldl_addKey, startBlockOk]

/-- Cutting the flattened keys at the recorded starts gives the keys back. -/
theorem cut_flatten (ks : List Bytes) :
    ((List.range ks.length).map fun i =>
      let base := ks.flatten.drop ((startsFrom 0 ks ++ [ks.flatten.length]).getD i 0)
      base.take ((startsFrom 0 ks ++ [ks.flatten.length]).getD (i + 1) 0 -
        (startsFrom 0 ks ++ [ks.flatten.length]).getD i 0)) = ks := by
  apply List.ext_getElem (by simp)
  intro i _ hi
  have h0 := startsFrom_getD 0 ks i hi.le
  have h1 := startsFrom_getD 0 ks (i + 1) hi
  simp only [Nat.zero_add] at h0 h1
  simp only [List.getElem_map, List.getElem_range, h0, h1]
  have hcut : ks.flatten = (ks.take i).flatten ++ (ks[i] ++ (ks.drop (i + 1)).flatten) := by
    conv_lhs => rw [← List.take_append_drop i ks]
    rw [List.flatten_append, List.drop_eq_getElem_cons hi, List.flatten_cons]
  have hlen : (ks.take (i + 1)).flatten.length = (ks.take i).flatten.length + ks[i].length := by
    rw [List.take_succ_eq_append_getElem hi, List.flatten_append, List.length_append]
    simp
  rw [hlen, hcut, List.drop_left, Nat.add_sub_cancel_left, List.take_left]

variable [Coding]

/-- What `Finish` returns when the policy made the filter `F`. -/
def blockOf (F : Bytes) : Bytes :=
  if F = [] then putFixed32 0 ++ [kFilterBaseLg]
  else F ++ putFixed32 0 ++ putFixed32 (UInt32.ofNat F.length) ++ putFixed32 (UInt32.ofNat F.length) ++ [32]

/-- **`Finish`**: one `CreateFilter`, on the added keys in order, and its filter in the block. -/
theorem build_result (P : FilterPolicy) (blocks : Blocks) (h : keysOf blocks ≠ []) :
    (build P blocks).created = [keysShown (keysOf blocks)] ∧
      (build P blocks).result = blockOf (filterOf P (keysOf blocks)) := by
  have hst : startsFrom 0 (keysOf blocks) ≠ [] := by
    intro h0
    have := congrArg List.length h0
    simp [length_startsFrom, h] at this
  have hgen : (FilterBlockBuilder.mk P (keysOf blocks).flatten (startsFrom 0 (keysOf blocks))
        [] [] [] []).generateFilter =
      { policy := P, filterOffsets := [0], created := [keysShown (keysOf blocks)],
        result := filterOf P (keysOf blocks) } := by
    have hcut := cut_flatten (keysOf blocks)
    have hne : ¬ (keysOf blocks).length = 0 := by simpa using h
    simp only [generateFilter, length_startsFrom, if_neg hne, hcut]
    simp
  simp only [build, foldl_addBlock, foldl_addKey]
  simp only [List.nil_append, List.length_nil, finish, ne_eq, hst, not_false_eq_true, if_true, hgen]
  by_cases hF : filterOf P (keysOf blocks) = []
  · simp [blockOf, hF]
  · simp [blockOf, hF]

omit [Coding] in
theorem castInt_toNat_of_lt {n : Nat} (h : n < 2 ^ 31) : (castInt n).toNat = n := by
  have : castInt n = n := by unfold castInt; rw [Int.bmod_eq_of_le_mul_two] <;> omega
  omega

omit [Coding] in
theorem castInt_toNat_lt_of_le {n : Nat} (h : 2 ^ 31 ≤ n) : (castInt n).toNat < n := by
  have h1 : Int.bmod n (2 ^ 32) < ((2 ^ 32 : Nat) + 1) / 2 := Int.bmod_lt (by decide)
  unfold castInt
  omega

omit [Coding] in
/-- The policy is shown all keys exactly when their number survives the cast to `int`. -/
theorem keysShown_eq_iff (ks : List Bytes) : keysShown ks = ks ↔ ks.length < 2 ^ 31 := by
  constructor
  · intro h
    by_contra hge
    have hlt := castInt_toNat_lt_of_le (Nat.le_of_not_lt hge)
    have := congrArg List.length h
    simp only [keysShown, List.length_take] at this
    omega
  · intro h
    rw [keysShown, castInt_toNat_of_lt h, List.take_length]

/-! ## The reader on what the builder wrote -/

theorem wordAt_append (A B : Bytes) (v : UInt32) {data : Bytes} {pos : Nat} (hpos : pos = A.length)
    (hd : data = A ++ (putFixed32 v ++ B)) (h : pos + 4 ≤ data.length) : wordAt data pos h = v := by
  subst hpos hd
  simp [wordAt]

theorem length_blockOf {F : Bytes} (hF : F ≠ []) : (blockOf F).length = F.length + 13 := by
  simp [blockOf, hF]

namespace FilterBlockReader

/-- The constructor on contents of at least five bytes whose footer word is in range. -/
theorem new_eq (P : FilterPolicy) (contents : Bytes) (h5 : 5 ≤ contents.length) (c : UInt8) (w : UInt32)
    (hc : contents[contents.length - 1] = c)
    (hw : wordAt contents (contents.length - 5) (by omega) = w) (hle : w.toNat ≤ contents.length - 5) :
    ∃ h, new P contents =
      ⟨P, contents, w.toNat, (contents.length - 5 - w.toNat) / 4, charToSize c, h⟩ := by
  subst hc hw
  refine ⟨by omega, ?_⟩
  rw [new, dif_neg (by omega), dif_neg (by omega)]
  rfl

theorem new_blockOf_nil (P : FilterPolicy) : (new P (blockOf [])).num = 0 := by
  have hl : (blockOf []).length = 5 := by simp [blockOf]
  have hw : wordAt (blockOf []) ((blockOf []).length - 5) (by omega) = 0 :=
    wordAt_append [] [kFilterBaseLg] 0 (by simp [hl]) (by simp [blockOf]) _
  obtain ⟨h, hnew⟩ := new_eq P (blockOf []) hl.ge _ 0 rfl hw (by simp)
  rw [hnew]
  simp [hl]

/-- The reader of a written block: the offset array starts after the filter and seems to have
**two** entries, because the sentinel is counted. -/
theorem new_blockOf (P : FilterPolicy) {F : Bytes} (hF : F ≠ []) (hlen : F.length < 2 ^ 32) :
    ∃ h, new P (blockOf F) = ⟨P, blockOf F, F.length, 2, 32, h⟩ := by
  have hl := length_blockOf hF
  have hword : (UInt32.ofNat F.length).toNat = F.length := by
    rw [UInt32.toNat_ofNat', Nat.mod_eq_of_lt hlen]
  have hw : wordAt (blockOf F) ((blockOf F).length - 5) (by omega) = UInt32.ofNat F.length :=
    wordAt_append (F ++ putFixed32 0 ++ putFixed32 (UInt32.ofNat F.length)) [32] _
      (by simp [hl]) (by simp [blockOf, hF]) _
  have hlast : (blockOf F)[(blockOf F).length - 1] = 32 := by simp [blockOf, hF]
  obtain ⟨h, hnew⟩ := new_eq P (blockOf F) (by omega) _ _ hlast hw (by omega)
  have hnum : ((blockOf F).length - 5 - F.length) / 4 = 2 := by omega
  refine ⟨fun _ => by omega, ?_⟩
  rw [hnew]
  simp [hword, hnum, charToSize]

/-! ## The loop of `RangeMayMatch`, on any contents -/

section
variable {r : FilterBlockReader} {lo hi : Bytes}

/-- Entry `e` of the offset array delimits a slice inside the filter area. -/
def entryOk (r : FilterBlockReader) (e : Nat) (h : e < r.num) : Bool :=
  r.inArea (r.entryStart e h) (r.entryLimit e h)

/-- The bytes entry `e` delimits. -/
def entrySlice (r : FilterBlockReader) (e : Nat) (h : e < r.num) : Bytes :=
  r.filterSlice (r.entryStart e h) (r.entryLimit e h)

/-- `i * 4` in `uint32_t` makes the loop look at entry `i mod 2^30`. -/
theorem rangeEntry_eq (i : UInt32) (h : i.toNat < r.num) :
    r.rangeEntry lo hi i h =
      (r.entryOk (i.toNat % 2 ^ 30) (by omega) &&
        r.policy.rangeMayMatch lo hi (r.entrySlice (i.toNat % 2 ^ 30) (by omega))) := by
  have hi4 : (i * 4).toNat = i.toNat % 2 ^ 30 * 4 := by
    rw [UInt32.toNat_mul]
    have := i.toNat_lt
    simp only [UInt32.reduceToNat]
    omega
  simp only [rangeEntry, hi4]
  rfl

theorem rangeLoop_some_true {fuel : Nat} {i : UInt32} (h : r.rangeLoop lo hi fuel i = some true) :
    ∃ j, ∃ hj : j.toNat < r.num, r.rangeEntry lo hi j hj = true := by
  induction fuel generalizing i with
  | zero => simp [rangeLoop] at h
  | succ fuel ih =>
    rw [rangeLoop] at h
    split at h
    · rename_i hlt
      split at h
      · rename_i he; exact ⟨i, hlt, he⟩
      · exact ih h
    · simp at h

theorem rangeLoop_some_false {fuel : Nat} {i : UInt32} (h : r.rangeLoop lo hi fuel i = some false) :
    r.num < 2 ^ 32 ∧ ∀ j, ∀ hj : j.toNat < r.num, i.toNat ≤ j.toNat → r.rangeEntry lo hi j hj = false := by
  induction fuel generalizing i with
  | zero => simp [rangeLoop] at h
  | succ fuel ih =>
    have hi32 := i.toNat_lt
    rw [rangeLoop] at h
    split at h
    · rename_i hlt
      split at h
      · simp at h
      · rename_i he
        obtain ⟨hnum, hall⟩ := ih h
        have hsucc : (i + 1).toNat = i.toNat + 1 := by
          rw [UInt32.toNat_add]
          simp only [UInt32.reduceToNat]
          omega
        refine ⟨hnum, fun j hj hij => ?_⟩
        by_cases heq : j = i
        · subst heq; simpa using he
        · have hne : j.toNat ≠ i.toNat := fun hji => heq (UInt32.toNat_inj.1 hji)
          exact hall j hj (by omega)
    · exact ⟨by omega, fun j hj hij => by omega⟩

theorem rangeLoop_isSome (hnum : r.num < 2 ^ 32) {fuel : Nat} {i : UInt32} (hf : r.num - i.toNat < fuel) :
    (r.rangeLoop lo hi fuel i).isSome := by
  induction fuel generalizing i with
  | zero => omega
  | succ fuel ih =>
    rw [rangeLoop]
    split
    · rename_i hlt
      split
      · rfl
      · apply ih
        have hsucc : (i + 1).toNat = i.toNat + 1 := by
          rw [UInt32.toNat_add]
          simp only [UInt32.reduceToNat]
          omega
        omega
    · rfl

/-- **The loop**: `RangeMayMatch` answers `false` exactly when it comes to an end and lets nothing
through among the entries it looks at. -/
theorem rangeMayMatch_some_false :
    r.rangeMayMatch lo hi = some false ↔
      r.num < 2 ^ 32 ∧ ∀ e, ∀ h : e < r.num, e < 2 ^ 30 →
        (r.entryOk e h && r.policy.rangeMayMatch lo hi (r.entrySlice e h)) = false := by
  constructor
  · intro h
    obtain ⟨hnum, hall⟩ := rangeLoop_some_false h
    refine ⟨hnum, fun e he he30 => ?_⟩
    have hto : (UInt32.ofNat e).toNat = e := by
      rw [UInt32.toNat_ofNat', Nat.mod_eq_of_lt (by omega)]
    have := hall (UInt32.ofNat e) (by omega) (by simp)
    rw [rangeEntry_eq] at this
    simpa only [hto, Nat.mod_eq_of_lt he30] using this
  · rintro ⟨hnum, hall⟩
    have hsome : (r.rangeMayMatch lo hi).isSome := rangeLoop_isSome hnum (by simp; omega)
    obtain ⟨b, hb⟩ := Option.isSome_iff_exists.1 hsome
    cases b with
    | false => exact hb
    | true =>
      obtain ⟨j, hj, he⟩ := rangeLoop_some_true hb
      rw [rangeEntry_eq, hall _ _ (Nat.mod_lt _ (by decide))] at he
      simp at he

/-- Two well-formed entries: the policy is asked about both slices. -/
theorem rangeMayMatch_two (hnum : r.num = 2) (ho0 : r.entryOk 0 (by omega) = true)
    (ho1 : r.entryOk 1 (by omega) = true) :
    r.rangeMayMatch lo hi =
      some (r.policy.rangeMayMatch lo hi (r.entrySlice 0 (by omega)) ||
        r.policy.rangeMayMatch lo hi (r.entrySlice 1 (by omega))) := by
  have hsome : (r.rangeMayMatch lo hi).isSome := rangeLoop_isSome (by omega) (by simp; omega)
  obtain ⟨b, hb⟩ := Option.isSome_iff_exists.1 hsome
  have hfalse : r.rangeMayMatch lo hi = some false ↔
      (r.policy.rangeMayMatch lo hi (r.entrySlice 0 (by omega)) ||
        r.policy.rangeMayMatch lo hi (r.entrySlice 1 (by omega))) = false := by
    rw [rangeMayMatch_some_false, Bool.or_eq_false_iff]
    constructor
    · rintro ⟨-, hall⟩
      have e0 := hall 0 (by omega) (by decide)
      have e1 := hall 1 (by omega) (by decide)
      rw [ho0, Bool.true_and] at e0
      rw [ho1, Bool.true_and] at e1
      exact ⟨e0, e1⟩
    · rintro ⟨e0, e1⟩
      refine ⟨by omega, fun e he _ => ?_⟩
      obtain rfl | rfl : e = 0 ∨ e = 1 := by omega
      · rw [e0, Bool.and_false]
      · rw [e1, Bool.and_false]
  generalize (r.policy.rangeMayMatch lo hi _ || r.policy.rangeMayMatch lo hi _) = c at hfalse ⊢
  cases b <;> cases c <;> simp_all

end

/-! ## Answers on a written block -/

section
variable (P : FilterPolicy) {F : Bytes}

/-- The two entries of a written block: the filter, and nothing. -/
theorem entries_blockOf (hF : F ≠ []) (hlen : F.length < 2 ^ 32) {h} :
    let r : FilterBlockReader := ⟨P, blockOf F, F.length, 2, 32, h⟩
    (r.entryOk 0 Nat.two_pos = true ∧ r.entrySlice 0 Nat.two_pos = F) ∧
    (r.entryOk 1 Nat.one_lt_two = true ∧ r.entrySlice 1 Nat.one_lt_two = []) := by
  intro r
  have hword : (UInt32.ofNat F.length).toNat = F.length := by
    rw [UInt32.toNat_ofNat', Nat.mod_eq_of_lt hlen]
  have hs0 : r.entryStart 0 Nat.two_pos = 0 :=
    wordAt_append F _ _ (by simp [r]) (by simp [r, blockOf, hF]; rfl) _
  have hl0 : r.entryLimit 0 Nat.two_pos = UInt32.ofNat F.length :=
    wordAt_append (F ++ putFixed32 0) _ _ (by simp [r]) (by simp [r, blockOf, hF]; rfl) _
  have hs1 : r.entryStart 1 Nat.one_lt_two = UInt32.ofNat F.length :=
    wordAt_append (F ++ putFixed32 0) _ _ (by simp [r]) (by simp [r, blockOf, hF]; rfl) _
  -- the limit of the sentinel is the footer word
  have hl1 : r.entryLimit 1 Nat.one_lt_two = UInt32.ofNat F.length :=
    wordAt_append (F ++ putFixed32 0 ++ putFixed32 (UInt32.ofNat F.length)) [32] _ (by simp [r])
      (by simp [r, blockOf, hF]) _
  have hdata : r.data.take F.length = F := by simp [r, blockOf, hF]
  refine ⟨⟨?_, ?_⟩, ?_, ?_⟩
  · simp [entryOk, inArea, hs0, hl0, hword, r]
  · simpa [entrySlice, filterSlice, hs0, hl0, hword] using hdata
  · simp [entryOk, inArea, hs1, hl1, hword, r]
  · simp [entrySlice, filterSlice, hs1, hl1]

/-- **Point lookups on a written block**: the empty filter serves the offsets `[2^32, 2^33)`. -/
theorem keyMayMatch_blockOf (hF : F ≠ []) (hlen : F.length < 2 ^ 32) (offset : UInt64) (key : Bytes) :
    (new P (blockOf F)).keyMayMatch offset key =
      if offset.toNat < 2 ^ 32 then P.keyMayMatch key F
      else if offset.toNat < 2 ^ 33 then P.keyMayMatch key []
      else true := by
  obtain ⟨h, hnew⟩ := new_blockOf P hF hlen
  obtain ⟨⟨ho0, hs0⟩, ho1, hs1⟩ := entries_blockOf P hF hlen (h := h)
  simp only [entryOk, entrySlice] at ho0 hs0 ho1 hs1
  rw [hnew, keyMayMatch]
  have hshift : offset.toNat >>> 32 = offset.toNat / 2 ^ 32 := Nat.shiftRight_eq_div_pow _ _
  by_cases hlt : offset.toNat < 2 ^ 32
  · have h0 : offset.toNat >>> 32 = 0 := by omega
    simp only [h0, hlt, if_true]
    rw [dif_pos Nat.two_pos, if_pos ho0, hs0]
  · by_cases hlt' : offset.toNat < 2 ^ 33
    · have h1 : offset.toNat >>> 32 = 1 := by omega
      simp only [h1, hlt, hlt', if_false, if_true]
      rw [dif_pos Nat.one_lt_two, if_pos ho1, hs1]
    · rw [dif_neg (by simp only [hshift]; omega), if_neg hlt, if_neg hlt']

/-- **Range lookups on a written block** ask the filter and the empty filter. -/
theorem rangeMayMatch_blockOf (hF : F ≠ []) (hlen : F.length < 2 ^ 32) (lo hi : Bytes) :
    (new P (blockOf F)).rangeMayMatch lo hi =
      some (P.rangeMayMatch lo hi F || P.rangeMayMatch lo hi []) := by
  obtain ⟨h, hnew⟩ := new_blockOf P hF hlen
  obtain ⟨⟨ho0, hs0⟩, ho1, hs1⟩ := entries_blockOf P hF hlen (h := h)
  rw [hnew, rangeMayMatch_two rfl ho0 ho1, hs0, hs1]

theorem keyMayMatch_blockOf_nil (offset : UInt64) (key : Bytes) :
    (new P (blockOf [])).keyMayMatch offset key = true := by
  rw [keyMayMatch, dif_neg (by rw [new_blockOf_nil]; exact Nat.not_lt_zero _)]

/-- A block without a filter has no entries, and `RangeMayMatch` runs off the end to `false`. -/
theorem rangeMayMatch_blockOf_nil (lo hi : Bytes) :
    (new P (blockOf [])).rangeMayMatch lo hi = some false := by
  rw [rangeMayMatch_some_false]
  have hnum := new_blockOf_nil P
  exact ⟨by omega, fun e he => by omega⟩

end

end FilterBlockReader

end LevelDbSurf
