import LevelDbSurf.FilterBlockProofs

/-!
# The filter block against its contract

Three promises of the single-filter layout, each with the exact inputs on which the code keeps it:

* the one filter decides a range query (`range_own_filter_iff`): kept unless the policy lets the
  range through on an *empty* filter, which the reader also asks because it counts the sentinel;
* no added key is filtered out (`added_key_match_iff`): kept outside the block offsets
  `[2^32, 2^33)`, where the reader hands out the empty filter;
* a damaged block fails open (`failsOpen_iff`): `KeyMayMatch` and `RangeMayMatch` end on different
  sides for a block with no entries or with entries that do not decode.
-/

namespace LevelDbSurf

open FilterBlockBuilder FilterBlockReader

/-- A policy for keys of one byte: the filter lists them. `onEmpty` is its answer for the empty
filter: `true` as `SuRFPolicy` answers, `false` as the Bloom and the test policy do. -/
def bytePolicy (onEmpty : Bool) : FilterPolicy where
  name := "bytes"
  createFilter keys := keys.map (·.headD 0)
  keyMayMatch key filter := (filter.isEmpty && onEmpty) || filter.contains (key.headD 0)
  rangeMayMatch lo hi filter :=
    (filter.isEmpty && onEmpty) || filter.any fun b => lo.headD 0 ≤ b && b ≤ hi.headD 0

/-! ## The single filter decides the range query -/

/-- **Range queries on a written table.** `CreateFilter` gets exactly the added keys, and the reader
answers with that filter's own verdict, iff the number of keys survives the cast to `int` and the
filter lets the range through or the empty filter does not. -/
theorem range_own_filter_iff [Coding] (P : FilterPolicy) (blocks : Blocks) (lo hi : Bytes)
    (hne : keysOf blocks ≠ []) (hF : filterOf P (keysOf blocks) ≠ [])
    (hlen : (filterOf P (keysOf blocks)).length < 2 ^ 32) :
    ((build P blocks).created = [keysOf blocks] ∧
      (new P (build P blocks).result).rangeMayMatch lo hi =
        some (P.rangeMayMatch lo hi (filterOf P (keysOf blocks)))) ↔
    ((keysOf blocks).length < 2 ^ 31 ∧
      (P.rangeMayMatch lo hi (filterOf P (keysOf blocks)) = true ∨ P.rangeMayMatch lo hi [] = false)) := by
  obtain ⟨hc, hr⟩ := build_result P blocks hne
  rw [hc, hr, rangeMayMatch_blockOf P hF hlen, List.cons_eq_cons, ← keysShown_eq_iff]
  simp only [and_true, Option.some.injEq]
  refine and_congr_right fun _ => ?_
  cases P.rangeMayMatch lo hi (filterOf P (keysOf blocks)) <;> simp

theorem range_own_filter_iff_one_key :
    letI := littleEndian
    ((build (bytePolicy false) [(0, [[97]])]).created = [[[97]]] ∧
      (new (bytePolicy false) (build (bytePolicy false) [(0, [[97]])]).result).rangeMayMatch [98] [99] =
        some false) ↔ (1 < 2 ^ 31 ∧ (false = true ∨ false = false)) :=
  letI := littleEndian
  range_own_filter_iff (bytePolicy false) [(0, [[97]])] [98] [99] (by decide) (by decide) (by decide)

/-- One table with the key `a`, asked for `[b, c]`: the filter rules the range out, the empty
filter does not, and the table is kept. -/
theorem range_not_own_filter :
    ¬ ∀ [Coding] (P : FilterPolicy) (blocks : Blocks) (lo hi : Bytes), keysOf blocks ≠ [] →
      filterOf P (keysOf blocks) ≠ [] → (filterOf P (keysOf blocks)).length < 2 ^ 32 →
      (build P blocks).created = [keysOf blocks] ∧
        (new P (build P blocks).result).rangeMayMatch lo hi =
          some (P.rangeMayMatch lo hi (filterOf P (keysOf blocks))) := by
  intro h
  let _ := littleEndian
  have hne : keysOf [(0, [[97]])] ≠ [] := by decide
  have hF : filterOf (bytePolicy true) (keysOf [(0, [[97]])]) ≠ [] := by decide
  have hlen : (filterOf (bytePolicy true) (keysOf [(0, [[97]])])).length < 2 ^ 32 := by decide
  have hr := (h (bytePolicy true) [(0, [[97]])] [98] [99] hne hF hlen).2
  rw [(build_result (bytePolicy true) _ hne).2, rangeMayMatch_blockOf _ hF hlen] at hr
  revert hr
  decide

/-! ## No added key is filtered out -/

/-- **Point queries for an added key.** The reader answers `true` for an added key and a block offset
iff there is no filter, or the offset is served by the filter (and the policy was shown all keys, or
accepts the key anyway), or it lies past the sentinel's range, or the policy accepts the key on the
empty filter. -/
theorem added_key_match_iff [Coding] (P : FilterPolicy)
    (blocks : Blocks)
    (hP : ∀ k ∈ keysShown (keysOf blocks), P.keyMayMatch k (filterOf P (keysOf blocks)) = true)
    (hlen : (filterOf P (keysOf blocks)).length < 2 ^ 32) (k : Bytes) (hk : k ∈ keysOf blocks) (offset : UInt64) :
    (new P (build P blocks).result).keyMayMatch offset k = true ↔
      filterOf P (keysOf blocks) = [] ∨
      (offset.toNat < 2 ^ 32 ∧
        ((keysOf blocks).length < 2 ^ 31 ∨ P.keyMayMatch k (filterOf P (keysOf blocks)) = true)) ∨
      (2 ^ 32 ≤ offset.toNat ∧ offset.toNat < 2 ^ 33 ∧ P.keyMayMatch k [] = true) ∨
      2 ^ 33 ≤ offset.toNat := by
  have hne : keysOf blocks ≠ [] := List.ne_nil_of_mem hk
  rw [(build_result P blocks hne).2]
  by_cases hF : filterOf P (keysOf blocks) = []
  · simp [hF, keyMayMatch_blockOf_nil]
  have hall : (keysOf blocks).length < 2 ^ 31 →
      P.keyMayMatch k (filterOf P (keysOf blocks)) = true := by
    intro h
    apply hP
    rw [(keysShown_eq_iff _).2 h]
    exact hk
  rw [keyMayMatch_blockOf P hF hlen]
  by_cases h32 : offset.toNat < 2 ^ 32
  · have hm := or_iff_right_of_imp hall
    simp only [h32, if_true, hF, false_or, true_and, hm]
    constructor
    · exact Or.inl
    · rintro (h | ⟨h, -⟩ | h)
      · exact h
      · omega
      · omega
  · by_cases h33 : offset.toNat < 2 ^ 33
    · have h1 : 2 ^ 32 ≤ offset.toNat := by omega
      have h2 : ¬ 2 ^ 33 ≤ offset.toNat := by omega
      simp only [h32, h33, hF, h1, h2, if_false, if_true, false_or, or_false, false_and, true_and]
    · have h2 : 2 ^ 33 ≤ offset.toNat := by omega
      simp only [h32, h33, h2, if_false, or_true]

theorem bytePolicy_keeps (onEmpty : Bool) (keys : List Bytes) :
    ∀ k ∈ keysShown keys, (bytePolicy onEmpty).keyMayMatch k (filterOf (bytePolicy onEmpty) keys) = true := by
  intro k hk
  simp only [bytePolicy, filterOf, Bool.or_eq_true, List.contains_iff_mem]
  exact Or.inr (List.mem_map.2 ⟨k, hk, rfl⟩)

theorem added_key_match_iff_low :
    letI := littleEndian
    (new (bytePolicy false) (build (bytePolicy false) [(0, [[97]])]).result).keyMayMatch 4096 [97] = true ↔
      filterOf (bytePolicy false) [[97]] = [] ∨
      ((4096 : UInt64).toNat < 2 ^ 32 ∧
        (1 < 2 ^ 31 ∨ (bytePolicy false).keyMayMatch [97] (filterOf (bytePolicy false) [[97]]) = true)) ∨
      (2 ^ 32 ≤ (4096 : UInt64).toNat ∧ (4096 : UInt64).toNat < 2 ^ 33 ∧
        (bytePolicy false).keyMayMatch [97] [] = true) ∨ 2 ^ 33 ≤ (4096 : UInt64).toNat :=
  letI := littleEndian
  added_key_match_iff (bytePolicy false) [(0, [[97]])] (bytePolicy_keeps false _) (by decide) [97]
    (by decide) 4096

/-- A table past 4 GiB: the block at offset `2^32` holds the added key `a`, and is skipped. -/
theorem added_key_lost :
    ¬ ∀ [Coding] (P : FilterPolicy) (blocks : Blocks),
      (∀ k ∈ keysShown (keysOf blocks), P.keyMayMatch k (filterOf P (keysOf blocks)) = true) →
      (filterOf P (keysOf blocks)).length < 2 ^ 32 → ∀ k ∈ keysOf blocks, ∀ offset : UInt64,
        (new P (build P blocks).result).keyMayMatch offset k = true := by
  intro h
  let _ := littleEndian
  have hlen : (filterOf (bytePolicy false) (keysOf [(0, [[97]])])).length < 2 ^ 32 := by decide
  have hr := h (bytePolicy false) [(0, [[97]])] (bytePolicy_keeps false _) hlen [97] (by decide) (2 ^ 32)
  rw [(build_result (bytePolicy false) _ (by decide)).2,
    keyMayMatch_blockOf _ (by decide) hlen] at hr
  revert hr
  decide

/-! ## A damaged block fails open -/

/-- What a reader of arbitrary contents owes its caller. `reads` is about the two words of every
entry, the only reads past the constructor's own check that there are five bytes. -/
structure FailsOpen [Coding] (P : FilterPolicy) (contents : Bytes) (offset : UInt64)
    (key lo hi : Bytes) : Prop where
  reads : ∀ e < (new P contents).num, (new P contents).offset + e * 4 + 8 ≤ contents.length
  slices : ∀ e h, (new P contents).entryOk e h = true →
    ((new P contents).entryLimit e h).toNat ≤ contents.length
  shift : (new P contents).baseLg < 64
  key : (new P contents).keyMayMatch offset key = false →
    ∃ h : offset.toNat >>> (new P contents).baseLg < (new P contents).num,
      (new P contents).entryOk _ h = true ∧ P.keyMayMatch key ((new P contents).entrySlice _ h) = false
  range : (new P contents).rangeMayMatch lo hi = some false →
    0 < (new P contents).num ∧ ∀ e h, (new P contents).entryOk e h = true ∧
      P.rangeMayMatch lo hi ((new P contents).entrySlice e h) = false

/-- The last byte is a shift the hardware defines. -/
def ShiftDefined (contents : Bytes) : Prop :=
  5 ≤ contents.length → ∀ c, contents.getLast? = some c → c < 64

/-- The entry the offset selects is not an empty one beyond the filter area. -/
def KeyEntryDecodes [Coding] (r : FilterBlockReader) (offset : UInt64) : Prop :=
  ∀ h : offset.toNat >>> r.baseLg < r.num, r.entryStart _ h = r.entryLimit _ h → r.entryOk _ h = true

/-- Some entry the loop looks at lets the range through, or every entry decodes and rules it out
(or the entries outnumber the loop's counter, and it never ends). -/
def RangeEntriesDecode [Coding] (r : FilterBlockReader) (lo hi : Bytes) : Prop :=
  (∃ e, ∃ h : e < r.num, e < 2 ^ 30 ∧ r.entryOk e h = true ∧
    r.policy.rangeMayMatch lo hi (r.entrySlice e h) = true) ∨
  (0 < r.num ∧ ∀ e h, r.entryOk e h = true ∧ r.policy.rangeMayMatch lo hi (r.entrySlice e h) = false) ∨
  2 ^ 32 ≤ r.num

theorem new_fields [Coding] (P : FilterPolicy) (contents : Bytes) :
    (new P contents).policy = P ∧ (new P contents).data = contents ∧
      (new P contents).offset ≤ contents.length := by
  unfold new
  simp only
  split
  · exact ⟨rfl, rfl, Nat.zero_le _⟩
  · split
    · exact ⟨rfl, rfl, Nat.zero_le _⟩
    · exact ⟨rfl, rfl, by dsimp only; omega⟩

theorem charToSize_lt_iff (c : UInt8) : charToSize c < 64 ↔ c < 64 := by
  unfold charToSize
  by_cases h : c < 128
  · rw [if_pos h]; rfl
  · rw [if_neg h]
    simp only [UInt8.lt_iff_toNat_lt, UInt8.reduceToNat] at h ⊢
    omega

theorem baseLg_lt_iff [Coding] (P : FilterPolicy) (contents : Bytes) :
    (new P contents).baseLg < 64 ↔ ShiftDefined contents := by
  unfold new ShiftDefined
  simp only
  split
  · rename_i h
    exact ⟨fun _ h5 => absurd h5 (by omega), fun _ => Nat.zero_lt_succ 63⟩
  · rename_i h
    have hlast : contents.getLast? = some (contents.get ⟨contents.length - 1, by omega⟩) := by
      rw [List.getLast?_eq_getElem?, List.getElem?_eq_getElem (by omega)]
      rfl
    have key : charToSize (contents.get ⟨contents.length - 1, by omega⟩) < 64 ↔
        (5 ≤ contents.length → ∀ c, contents.getLast? = some c → c < 64) := by
      rw [charToSize_lt_iff, hlast]
      simp only [Option.some.injEq, forall_eq']
      exact ⟨fun h _ => h, fun h => h (by omega)⟩
    split <;> exact key

/-- `KeyMayMatch` skips a block on the policy's word, or on an entry with equal ends that does not
decode. -/
theorem keyMayMatch_eq_false [Coding] (r : FilterBlockReader) (offset : UInt64) (key : Bytes) :
    r.keyMayMatch offset key = false ↔
      ∃ h : offset.toNat >>> r.baseLg < r.num,
        (r.entryOk _ h = true ∧ r.policy.keyMayMatch key (r.entrySlice _ h) = false) ∨
        (r.entryOk _ h = false ∧ r.entryStart _ h = r.entryLimit _ h) := by
  unfold keyMayMatch entryOk entrySlice
  simp only
  constructor
  · intro hk
    split at hk
    · rename_i h
      refine ⟨h, ?_⟩
      split at hk
      · rename_i hin; exact Or.inl ⟨hin, hk⟩
      · rename_i hin
        split at hk
        · rename_i heq; exact Or.inr ⟨by simpa using hin, heq⟩
        · cases hk
    · cases hk
  · rintro ⟨h, ⟨hin, hk⟩ | ⟨hin, heq⟩⟩
    · rw [dif_pos h, if_pos hin, hk]
    · rw [dif_pos h, if_neg (by simp [hin]), if_pos heq]

/-- **A damaged filter block.** For any bytes, policy, block offset, key and range, the reader fails
open iff the shift is defined, the entry the offset selects decodes or has distinct ends, and the
entries decode for the range query. -/
theorem failsOpen_iff [Coding] (P : FilterPolicy) (contents : Bytes) (offset : UInt64)
    (key lo hi : Bytes) :
    FailsOpen P contents offset key lo hi ↔
      ShiftDefined contents ∧ KeyEntryDecodes (new P contents) offset ∧
        RangeEntriesDecode (new P contents) lo hi := by
  obtain ⟨hpol, hdata, hoff⟩ := new_fields P contents
  have hkey := keyMayMatch_eq_false (new P contents) offset key
  have hrange : (new P contents).rangeMayMatch lo hi = some false ↔ _ := rangeMayMatch_some_false
  rw [hpol] at hkey hrange
  constructor
  · intro hf
    refine ⟨(baseLg_lt_iff P contents).1 hf.shift, fun h heq => ?_, ?_⟩
    · by_contra hno
      obtain ⟨_, hin, -⟩ := hf.key (hkey.2 ⟨h, Or.inr ⟨by simpa using hno, heq⟩⟩)
      exact hno hin
    · unfold RangeEntriesDecode
      rw [hpol]
      by_cases hr : (new P contents).rangeMayMatch lo hi = some false
      · exact Or.inr (Or.inl (hf.range hr))
      · by_cases hnum : (new P contents).num < 2 ^ 32
        · left
          by_contra hno
          refine hr (hrange.2 ⟨hnum, fun e he he30 => ?_⟩)
          by_contra hb
          rw [Bool.not_eq_false, Bool.and_eq_true] at hb
          exact hno ⟨e, he, he30, hb⟩
        · exact Or.inr (Or.inr (by omega))
  · rintro ⟨hshift, hentry, hdec⟩
    refine ⟨fun e he => ?_, fun e he hok => ?_, (baseLg_lt_iff P contents).2 hshift, fun hk => ?_, fun hr => ?_⟩
    · have := (new P contents).inside (by omega)
      rw [hdata] at this
      omega
    · have hle : ((new P contents).entryLimit e he).toNat ≤ (new P contents).offset := by
        simp only [entryOk, inArea, Bool.and_eq_true, decide_eq_true_eq] at hok
        exact hok.2
      omega
    · obtain ⟨h, hpol' | ⟨hno, heq⟩⟩ := hkey.1 hk
      · exact ⟨h, hpol'⟩
      · rw [hentry h heq] at hno
        cases hno
    · obtain ⟨hnum, hall⟩ := hrange.1 hr
      unfold RangeEntriesDecode at hdec
      rw [hpol] at hdec
      rcases hdec with ⟨e, he, he30, hok, ht⟩ | hall' | hbig
      · have := hall e he he30
        rw [hok, ht] at this
        cases this
      · exact hall'
      · omega

/-- The block `Finish` writes for a table without a filter: five bytes, no entries, and every range
is answered `false`. -/
theorem not_failsOpen :
    ¬ ∀ [Coding] (P : FilterPolicy) (contents : Bytes) (offset : UInt64) (key lo hi : Bytes),
      FailsOpen P contents offset key lo hi := by
  intro h
  let _ := littleEndian
  have hf := h (bytePolicy true) (blockOf []) 0 [97] [97] [98]
  have := (hf.range (rangeMayMatch_blockOf_nil _ _ _)).1
  rw [new_blockOf_nil] at this
  exact absurd this (by decide)

end LevelDbSurf
