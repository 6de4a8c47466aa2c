import LevelDbSurf.BenchmarkRun
import LevelDbSurf.Lib.Numeral

/-!
# The keys the benchmark writes and the ranges it asks for (`db_bench.cc:283-301`, `1043-1071`, `1236-1300`)

| here | there |
| --- | --- |
| `int32`                   | an `int` result, modulo 2^32 |
| `formatInt`               | `"%016d"` |
| `KeyFlags.keyNumber`      | what `KeyBuffer::Set` leaves in the buffer where `slice` reads it |
| `KeyFlags.key`            | `KeyBuffer::slice` |
| `KeyFlags.writes`         | the parameters `Run` gives `DoWrite` for a name |
| `KeyFlags.doWriteKey`     | what `DoWrite` puts, by batch and place |
| `KeyFlags.rangeQuery`     | one turn of the loop of `DoSuRFRangeScan` |

A draw of `Uniform(n)` is any number below `n`.
-/

namespace LevelDbSurf

open Numerals

/-! ## Keys -/

/-- The `int` with these low 32 bits. -/
def int32 (n : Int) : Int := (n + 2147483648) % 4294967296 - 2147483648

/-- The characters `'0'` to `'9'`. -/
def decimalDigit (d : Nat) : UInt8 := UInt8.ofNat (48 + d)

/-- `"%016d"`, of an `int`: sixteen characters, the sign included. -/
def formatInt (k : Int) : Bytes :=
  if 0 ≤ k then numeral 10 decimalDigit 16 k.toNat else 45 :: numeral 10 decimalDigit 15 (-k).toNat

/-- The flags that the keys depend on: a positive `int` of keys, and a prefix with which a key fits the buffer. -/
structure KeyFlags where
  num : Int
  reads : Int := -1
  keyPrefix : Nat := 0
  useExistingDb : Bool := false
  num_pos : 1 ≤ num
  num_lt : num < 2 ^ 31
  fits : keyPrefix + 16 ≤ 1024

/-- `reads_`. -/
def KeyFlags.numReads (flags : KeyFlags) : Int := if flags.reads < 0 then flags.num else flags.reads

/-- `KeyBuffer::Set(k)`, of the sixteen characters of `slice()`: what `snprintf` has room for, and its zero. -/
def KeyFlags.keyNumber (flags : KeyFlags) (k : Int) : Bytes :=
  ((formatInt k).take (1024 - flags.keyPrefix - 1) ++ [0]).take 16

/-- `KeyBuffer::Set(k)`, and `slice()`. -/
def KeyFlags.key (flags : KeyFlags) (k : Int) : Bytes :=
  List.replicate flags.keyPrefix 97 ++ flags.keyNumber k

/-- How many indexes in a row have the same key. -/
def KeyFlags.cut (flags : KeyFlags) : Int := if flags.keyPrefix = 1008 then 10 else 1

theorem decimalDigit_ascends : Ascends 10 decimalDigit := by
  intro a b hab hb
  rw [decimalDigit, decimalDigit, UInt8.lt_iff_toNat_lt, UInt8.toNat_ofNat', UInt8.toNat_ofNat']
  omega

@[simp] theorem formatInt_length (k : Int) : (formatInt k).length = 16 := by
  unfold formatInt
  split <;> simp

theorem int32_of_lt {n : Int} (hn : 0 ≤ n) (h : n < 2 ^ 31) : int32 n = n := by
  unfold int32
  omega

/-- Just past the greatest `int` comes a negative one. -/
theorem int32_of_ge {n : Int} (h : 2 ^ 31 ≤ n) (hn : n < 2 ^ 32) : int32 n < 0 := by
  unfold int32
  omega

section Order
variable (flags : KeyFlags) {a b k : Int}

theorem KeyFlags.cut_pos : 0 < flags.cut := by
  unfold cut
  split <;> decide

theorem KeyFlags.keyNumber_whole (h : flags.keyPrefix ≠ 1008) (k : Int) : flags.keyNumber k = formatInt k := by
  have hroom : (formatInt k).take (1024 - flags.keyPrefix - 1) = formatInt k := by
    have hfits := flags.fits
    refine List.take_of_length_le ?_
    rw [formatInt_length]
    omega
  rw [keyNumber, hroom]
  exact List.take_left' (formatInt_length k)

/-- With no room for the zero, it takes the place of the last digit. -/
theorem KeyFlags.keyNumber_cut (h : flags.keyPrefix = 1008) (k : Int) :
    flags.keyNumber k = (formatInt k).take 15 ++ [0] := by
  rw [keyNumber, h]
  exact List.take_of_length_le (by simp)

/-- **The digits of a key** are those of its index, less the last one if that is cut. -/
theorem KeyFlags.keyNumber_of_nonneg (hk : 0 ≤ k) :
    flags.keyNumber k =
      if flags.keyPrefix = 1008 then numeral 10 decimalDigit 15 (k / flags.cut).toNat ++ [0]
      else numeral 10 decimalDigit 16 (k / flags.cut).toNat ++ [] := by
  by_cases h : flags.keyPrefix = 1008
  · have hcut : (k / flags.cut).toNat = k.toNat / 10 ^ 1 := by
      rw [cut, if_pos h]
      omega
    rw [if_pos h, flags.keyNumber_cut h, formatInt, if_pos hk, hcut, ← numeral_take]
  · have hcut : k / flags.cut = k := by
      rw [cut, if_neg h, Int.ediv_one]
    rw [if_neg h, flags.keyNumber_whole h, formatInt, if_pos hk, hcut, List.append_nil]

/-- **Keys of indexes come in the order of the indexes.** -/
theorem KeyFlags.key_lt_key (ha : 0 ≤ a) (hb : 0 ≤ b) (hab : a / flags.cut < b / flags.cut) (hlt : b < 2 ^ 31) :
    flags.key a < flags.key b := by
  have hcut := flags.cut_pos
  have hq : 0 ≤ a / flags.cut := Int.ediv_nonneg ha hcut.le
  have hb' : b / flags.cut ≤ b := Int.ediv_le_self _ hb
  refine List.append_left_lt ?_
  rw [flags.keyNumber_of_nonneg ha, flags.keyNumber_of_nonneg hb]
  split
  · exact numeral_append_lt decimalDigit_ascends (by omega) (by omega) _ _
  · exact numeral_append_lt decimalDigit_ascends (by omega) (by omega) _ _

theorem KeyFlags.key_eq_key (ha : 0 ≤ a) (hb : 0 ≤ b) (hab : a / flags.cut = b / flags.cut) :
    flags.key a = flags.key b := by
  rw [key, key, flags.keyNumber_of_nonneg ha, flags.keyNumber_of_nonneg hb, hab]

theorem KeyFlags.key_le_key (ha : 0 ≤ a) (hab : a ≤ b) (hb : b < 2 ^ 31) : flags.key a ≤ flags.key b := by
  rcases (Int.ediv_le_ediv flags.cut_pos hab).lt_or_eq with hlt | heq
  · exact (flags.key_lt_key ha (by omega) hlt hb).le
  · exact (flags.key_eq_key ha (by omega) heq).le

/-- The minus sign comes before all digits. -/
theorem KeyFlags.key_neg_lt_key (ha : a < 0) (hb : 0 ≤ b) (hlt : b < 2 ^ 31) : flags.key a < flags.key b := by
  refine List.append_left_lt ?_
  have hdigits : formatInt b = 48 :: numeral 10 decimalDigit 15 (b.toNat % 10 ^ 15) := by
    have hfirst : b.toNat / 10 ^ 15 = 0 := by omega
    rw [formatInt, if_pos hb, numeral, hfirst]
    rfl
  have hminus : formatInt a = 45 :: numeral 10 decimalDigit 15 (-a).toNat := if_neg (by omega)
  by_cases h : flags.keyPrefix = 1008
  · rw [flags.keyNumber_cut h, flags.keyNumber_cut h, hdigits, hminus, List.take_succ_cons, List.take_succ_cons,
      List.cons_append, List.cons_append, List.cons_lt_cons_iff]
    exact Or.inl (by decide)
  · rw [flags.keyNumber_whole h, flags.keyNumber_whole h, hdigits, hminus, List.cons_lt_cons_iff]
    exact Or.inl (by decide)

end Order

/-! ## Writes -/

/-- What `DoWrite` depends on: `num_`, `entries_per_batch_` and `seq`. -/
structure WriteParams where
  num : Int
  entriesPerBatch : Nat
  seq : Bool

/-- `Run`, for a name of a write benchmark; none if it is not one, or is skipped. -/
def KeyFlags.writes (flags : KeyFlags) (name : String) : Option WriteParams :=
  let (method, freshDb) := methodOf name
  if freshDb && flags.useExistingDb then none
  else if method = some .writeSeq then
    some { num := flags.num, entriesPerBatch := if name = "fillbatch" then 1000 else 1, seq := true }
  else if method = some .writeRandom then
    some { num := if name = "fillsync" ∨ name = "fill100K" then flags.num / 1000 else flags.num
           entriesPerBatch := 1, seq := false }
  else none

/-- `i` in turn `t` of the loop of `DoWrite`, if there is one. -/
def WriteParams.batchStart (w : WriteParams) : Nat → Option Int
  | 0 => if 0 < w.num then some 0 else none
  | t + 1 =>
    (w.batchStart t).bind fun i =>
      let i := int32 (i + w.entriesPerBatch)
      if i < w.num then some i else none

/-- The key at place `j` of batch `t`, if `uniform t j` is what is drawn for it. -/
def KeyFlags.doWriteKey (flags : KeyFlags) (w : WriteParams) (uniform : Nat → Nat → Nat) (t j : Nat) : Option Bytes :=
  (w.batchStart t).bind fun i =>
    if j < w.entriesPerBatch then some (flags.key (if w.seq then int32 (i + j) else int32 (uniform t j))) else none

/-- `DoWrite` puts the key, with these draws. -/
def KeyFlags.Inserts (flags : KeyFlags) (w : WriteParams) (uniform : Nat → Nat → Nat) (key : Bytes) : Prop :=
  ∃ t j, flags.doWriteKey w uniform t j = some key

/-! ## Range queries -/

/-- A query of `DoSuRFRangeScan`. -/
structure RangeQuery where
  miss : Bool
  k : Int
  lo : Bytes
  hi : Bytes

/-- One turn, with the draws of `Uniform(100)` and `Uniform(FLAGS_num)`. -/
def KeyFlags.rangeQuery (flags : KeyFlags) (missPct rangeWidth : Int) (missDraw keyDraw : Nat) : RangeQuery :=
  let miss := decide (missPct ≥ 100) || (decide (missPct > 0) && decide ((missDraw : Int) < missPct))
  let k := if miss then int32 (flags.num + keyDraw) else int32 keyDraw
  { miss, k, lo := flags.key k, hi := flags.key (int32 (k + rangeWidth)) }

/-- `DoSuRFRangeScan`: its queries. -/
def KeyFlags.doSuRFRangeScan (flags : KeyFlags) (missPct rangeWidth : Int) (draws : Nat → Nat × Nat) :
    List RangeQuery :=
  (List.range flags.numReads.toNat).map fun i => flags.rangeQuery missPct rangeWidth (draws i).1 (draws i).2

/-- The query is a range, a miss is empty of what any of the benchmarks ever inserts, whatever it draws, and a
hit starts at an index. -/
structure KeyFlags.Meant (flags : KeyFlags) (benchmarks : List String) (q : RangeQuery) : Prop where
  ordered : q.lo ≤ q.hi
  miss : q.miss = true → ∀ name ∈ benchmarks, ∀ w, flags.writes name = some w →
    ∀ uniform : Nat → Nat → Nat, (∀ t j, (uniform t j : Int) < flags.num) →
      ∀ key, flags.Inserts w uniform key → ¬ (q.lo ≤ key ∧ key ≤ q.hi)
  hit : q.miss = false → 0 ≤ q.k ∧ q.k < flags.num

/-- All queries are, whatever is drawn for them. -/
def KeyFlags.QueriesMeant (flags : KeyFlags) (benchmarks : List String) (missPct rangeWidth : Int) : Prop :=
  ∀ draws : Nat → Nat × Nat, (∀ i, (draws i).1 < 100 ∧ ((draws i).2 : Int) < flags.num) →
    ∀ q ∈ flags.doSuRFRangeScan missPct rangeWidth draws, flags.Meant benchmarks q

/-- One of the benchmarks puts a key: `fillsync` and `fill100K` do from a thousand keys on. -/
def KeyFlags.Writes (flags : KeyFlags) (benchmarks : List String) : Prop :=
  ∃ name ∈ benchmarks, ∃ w, flags.writes name = some w ∧ 0 < w.num

/-- When they are: no query is made, or all bounds are `int`s, and where there are misses every batch of
`fillbatch` ends within the indexes, and the last index written has not the key of the index that follows it. -/
def KeyFlags.BoundsFit (flags : KeyFlags) (benchmarks : List String) (missPct rangeWidth : Int) : Prop :=
  flags.numReads ≤ 0 ∨
    if missPct ≤ 0 then flags.num + rangeWidth ≤ 2 ^ 31
    else 2 * flags.num + rangeWidth ≤ 2 ^ 31 ∧
      ("fillbatch" ∈ benchmarks → flags.useExistingDb = false → (1000 : Int) ∣ flags.num) ∧
      (flags.keyPrefix = 1008 → flags.Writes benchmarks → (10 : Int) ∣ flags.num)

/-! ## What is written -/

section Writes
variable {flags : KeyFlags} {name : String} {w : WriteParams}

/-- What a write benchmark is: batches in order of the indexes put single entries, or are those of `fillbatch`, and
keys that are drawn come one by one. -/
theorem KeyFlags.writes_cases (h : flags.writes name = some w) :
    (w.seq = true ∧ w.num = flags.num ∧
        (w.entriesPerBatch = 1 ∨ w.entriesPerBatch = 1000 ∧ name = "fillbatch" ∧ flags.useExistingDb = false)) ∨
      (w.seq = false ∧ w.entriesPerBatch = 1) := by
  unfold KeyFlags.writes at h
  dsimp only at h
  split at h
  · cases h
  · rename_i hfresh
    split at h
    · obtain rfl := Option.some.inj h
      refine Or.inl ⟨rfl, rfl, ?_⟩
      by_cases hname : name = "fillbatch"
      · subst hname
        have hexisting : flags.useExistingDb = false := by
          simpa [show (methodOf "fillbatch").2 = true from rfl] using hfresh
        exact Or.inr ⟨by simp, rfl, hexisting⟩
      · exact Or.inl (by simp [hname])
    · split at h
      · obtain rfl := Option.some.inj h
        exact Or.inr ⟨rfl, rfl⟩
      · cases h

theorem WriteParams.num_pos_of_batchStart {t : Nat} {i : Int} (h : w.batchStart t = some i) : 0 < w.num := by
  induction t generalizing i with
  | zero =>
    rw [batchStart] at h
    split at h
    · assumption
    · cases h
  | succ t ih =>
    obtain ⟨i', hi', -⟩ := Option.bind_eq_some_iff.1 h
    exact ih hi'

/-- While no batch leaves the `int`s, `i` goes up by the length of a batch. -/
theorem WriteParams.batchStart_eq (hnum : w.num ≤ 2 ^ 30) (hentries : w.entriesPerBatch ≤ 1000) {t : Nat} {i : Int}
    (h : w.batchStart t = some i) : i = w.entriesPerBatch * t ∧ i < w.num := by
  induction t generalizing i with
  | zero =>
    rw [batchStart] at h
    split at h
    · cases h
      exact ⟨by simp, ‹_›⟩
    · cases h
  | succ t ih =>
    obtain ⟨i', hi', h⟩ := Option.bind_eq_some_iff.1 h
    obtain ⟨heq, hlt⟩ := ih hi'
    dsimp only at h
    have hnonneg : 0 ≤ i' := by
      rw [heq]
      positivity
    rw [int32_of_lt (by omega) (by omega)] at h
    split at h
    · cases h
      refine ⟨?_, ‹_›⟩
      rw [heq]
      push_cast
      ring
    · cases h

theorem WriteParams.batchStart_of_lt (hnum : w.num ≤ 2 ^ 30) (hentries : w.entriesPerBatch ≤ 1000) {t : Nat}
    (h : (w.entriesPerBatch : Int) * t < w.num) : w.batchStart t = some (w.entriesPerBatch * t : Int) := by
  induction t with
  | zero => simpa [batchStart] using h
  | succ t ih =>
    have hsucc : (w.entriesPerBatch : Int) * (t + 1 : Nat) = w.entriesPerBatch * t + w.entriesPerBatch := by
      push_cast
      ring
    have hnonneg : 0 ≤ (w.entriesPerBatch : Int) * t := by positivity
    rw [hsucc] at h ⊢
    rw [batchStart, ih (by omega), Option.bind_some]
    dsimp only
    rw [int32_of_lt (by omega) (by omega), if_pos h]

/-- **What is inserted**: keys of indexes below `FLAGS_num`, if the batches of `fillbatch` end there. -/
theorem KeyFlags.inserts_lt (h : flags.writes name = some w) (hnum : flags.num ≤ 2 ^ 30)
    (hbatch : name = "fillbatch" → flags.useExistingDb = false → (1000 : Int) ∣ flags.num)
    {uniform : Nat → Nat → Nat} (huniform : ∀ t j, (uniform t j : Int) < flags.num) {key : Bytes}
    (hkey : flags.Inserts w uniform key) : ∃ k, 0 ≤ k ∧ k < flags.num ∧ key = flags.key k := by
  obtain ⟨t, j, hkey⟩ := hkey
  obtain ⟨i, hi, hkey⟩ := Option.bind_eq_some_iff.1 hkey
  split at hkey
  · rename_i hj
    cases hkey
    rcases writes_cases h with ⟨hseq, hwnum, hentries⟩ | ⟨hseq, -⟩
    · obtain ⟨heq, hlt⟩ := WriteParams.batchStart_eq (by omega) (by omega) hi
      have hbelow : i + j < flags.num := by
        rcases hentries with hone | ⟨hthousand, hname, hexisting⟩
        · omega
        · -- the batch starts at a multiple of its length, below another one
          obtain ⟨n, hn⟩ := hbatch hname hexisting
          rw [hthousand] at heq hj
          push_cast at heq
          omega
      have hnonneg : 0 ≤ i := by
        rw [heq]
        positivity
      refine ⟨i + j, by omega, hbelow, ?_⟩
      rw [if_pos hseq, int32_of_lt (by omega) (by omega)]
    · have hdraw := huniform t j
      refine ⟨uniform t j, by omega, hdraw, ?_⟩
      rw [if_neg (by simp [hseq]), int32_of_lt (by omega) (by omega)]
  · cases hkey

/-- Batches in order put every index of a batch that starts below `num`. -/
theorem KeyFlags.inserts_index (hseq : w.seq = true) (hnum : w.num ≤ 2 ^ 30) (hpos : 1 ≤ w.entriesPerBatch)
    (hentries : w.entriesPerBatch ≤ 1000) {k : Int} (hk : 0 ≤ k)
    (hstart : w.entriesPerBatch * (k / w.entriesPerBatch) < w.num) (uniform : Nat → Nat → Nat) :
    flags.Inserts w uniform (flags.key k) := by
  have hquot : 0 ≤ k / (w.entriesPerBatch : Int) := Int.ediv_nonneg hk (by omega)
  have hmod : 0 ≤ k % (w.entriesPerBatch : Int) := Int.emod_nonneg k (by omega)
  have hless : k % (w.entriesPerBatch : Int) < w.entriesPerBatch := Int.emod_lt_of_pos k (by omega)
  have hindex : (w.entriesPerBatch : Int) * (k / w.entriesPerBatch) + k % w.entriesPerBatch = k :=
    Int.mul_ediv_add_emod k w.entriesPerBatch
  have hturn : (((k / (w.entriesPerBatch : Int)).toNat : Nat) : Int) = k / w.entriesPerBatch :=
    Int.toNat_of_nonneg hquot
  have hplace : (((k % (w.entriesPerBatch : Int)).toNat : Nat) : Int) = k % w.entriesPerBatch :=
    Int.toNat_of_nonneg hmod
  refine ⟨(k / (w.entriesPerBatch : Int)).toNat, (k % (w.entriesPerBatch : Int)).toNat, ?_⟩
  rw [doWriteKey, WriteParams.batchStart_of_lt hnum hentries (by rwa [hturn]), Option.bind_some,
    if_pos (by omega), if_pos hseq, hturn, hplace, hindex, int32_of_lt hk (by omega)]

/-- When the last batch of `fillbatch` does not end there, it goes on with the index `FLAGS_num`. -/
theorem KeyFlags.fillbatch_inserts_num (hexisting : flags.useExistingDb = false) (hnum : flags.num ≤ 2 ^ 30)
    (hbatch : ¬ (1000 : Int) ∣ flags.num) (uniform : Nat → Nat → Nat) :
    ∃ w, flags.writes "fillbatch" = some w ∧ flags.Inserts w uniform (flags.key flags.num) := by
  have hpos := flags.num_pos
  have hmethod : methodOf "fillbatch" = (some .writeSeq, true) := rfl
  refine ⟨{ num := flags.num, entriesPerBatch := 1000, seq := true }, ?_, ?_⟩
  · simp [writes, hmethod, hexisting]
  · refine inserts_index rfl hnum (Nat.le_add_left 1 999) (le_refl _) (by omega) ?_ uniform
    dsimp only
    omega

/-- A benchmark that puts keys can put the last index. -/
theorem KeyFlags.inserts_last (h : flags.writes name = some w) (hwnum : 0 < w.num) (hnum : flags.num ≤ 2 ^ 30) :
    ∃ uniform : Nat → Nat → Nat, (∀ t j, (uniform t j : Int) < flags.num) ∧
      flags.Inserts w uniform (flags.key (flags.num - 1)) := by
  have hpos := flags.num_pos
  rcases writes_cases h with ⟨hseq, hwnum', hentries⟩ | ⟨hseq, hone⟩
  · refine ⟨fun _ _ => 0, fun _ _ => by rw [Int.natCast_zero]; omega, ?_⟩
    refine inserts_index hseq (by omega) (by omega) (by omega) (by omega) ?_ _
    have hle := Int.mul_ediv_add_emod (flags.num - 1) w.entriesPerBatch
    have hmod := Int.emod_nonneg (flags.num - 1) (b := w.entriesPerBatch) (by omega)
    omega
  · have hlast : (((flags.num - 1).toNat : Nat) : Int) = flags.num - 1 := Int.toNat_of_nonneg (by omega)
    refine ⟨fun _ _ => (flags.num - 1).toNat, fun _ _ => by rw [hlast]; omega, 0, 0, ?_⟩
    rw [doWriteKey, WriteParams.batchStart, if_pos hwnum, Option.bind_some, if_pos (by omega),
      if_neg (by simp [hseq]), hlast, int32_of_lt (by omega) (by omega)]

theorem KeyFlags.num_pos_of_inserts {uniform : Nat → Nat → Nat} {key : Bytes} (h : flags.Inserts w uniform key) :
    0 < w.num := by
  obtain ⟨t, j, hkey⟩ := h
  obtain ⟨i, hi, -⟩ := Option.bind_eq_some_iff.1 hkey
  exact WriteParams.num_pos_of_batchStart hi

end Writes

/-! ## When the queries are what they are meant to be -/

theorem ite_fst_cases {τ υ : Type} {p : Prop} [Decidable p] {a b : τ × υ} {x : τ} (h : (if p then a else b).1 = x) :
    a.1 = x ∨ b.1 = x := by
  by_cases hp : p
  · exact Or.inl (by rwa [if_pos hp] at h)
  · exact Or.inr (by rwa [if_neg hp] at h)

/-- The percentages and widths there are. -/
theorem methodOf_suRFRangeScan {name benchmarkName : String} {missPct rangeWidth : Int}
    (h : (methodOf name).1 = some (.suRFRangeScan benchmarkName missPct rangeWidth)) :
    (missPct, rangeWidth) ∈ [(100, 10), (75, 10), (50, 10), (25, 10), (0, 10), ((100, 100) : Int × Int)] := by
  unfold methodOf at h
  repeat
    rcases ite_fst_cases h with heq | h
    · cases heq <;> simp
  cases h

section Queries
variable {flags : KeyFlags} {benchmarks : List String} {missPct rangeWidth : Int}

theorem KeyFlags.rangeQuery_miss {missDraw keyDraw : Nat} (h : (missDraw : Int) < missPct) :
    flags.rangeQuery missPct rangeWidth missDraw keyDraw =
      { miss := true, k := int32 (flags.num + keyDraw), lo := flags.key (int32 (flags.num + keyDraw))
        hi := flags.key (int32 (int32 (flags.num + keyDraw) + rangeWidth)) } := by
  have hmiss : (decide (missPct ≥ 100) || (decide (missPct > 0) && decide ((missDraw : Int) < missPct))) = true := by
    simp only [Bool.or_eq_true, Bool.and_eq_true, decide_eq_true_eq]
    omega
  simp only [rangeQuery, hmiss, if_true]

theorem KeyFlags.rangeQuery_hit {missDraw keyDraw : Nat} (hdraw : missDraw < 100) (h : missPct ≤ missDraw) :
    flags.rangeQuery missPct rangeWidth missDraw keyDraw =
      { miss := false, k := int32 keyDraw, lo := flags.key (int32 keyDraw)
        hi := flags.key (int32 (int32 keyDraw + rangeWidth)) } := by
  have hmiss : (decide (missPct ≥ 100) || (decide (missPct > 0) && decide ((missDraw : Int) < missPct))) = false := by
    simp only [Bool.or_eq_false_iff, Bool.and_eq_false_imp, decide_eq_true_eq, decide_eq_false_iff_not]
    omega
  simp only [rangeQuery, hmiss, Bool.false_eq_true, if_false]

/-- **One query**, where the bounds fit. -/
theorem KeyFlags.BoundsFit.meant (h : flags.BoundsFit benchmarks missPct rangeWidth) (hreads : 0 < flags.numReads)
    (hwidth : 1 ≤ rangeWidth) {missDraw keyDraw : Nat} (hmiss : missDraw < 100) (hkey : (keyDraw : Int) < flags.num) :
    flags.Meant benchmarks (flags.rangeQuery missPct rangeWidth missDraw keyDraw) := by
  have hpos := flags.num_pos
  have hfit := h.resolve_left (by omega)
  by_cases hdraw : (missDraw : Int) < missPct
  · rw [if_neg (by omega)] at hfit
    obtain ⟨hfit, hbatch, hlast⟩ := hfit
    rw [rangeQuery_miss hdraw, int32_of_lt (n := flags.num + keyDraw) (by omega) (by omega),
      int32_of_lt (n := flags.num + keyDraw + rangeWidth) (by omega) (by omega)]
    refine ⟨flags.key_le_key (by omega) (by omega) (by omega), ?_, by rintro ⟨⟩⟩
    intro _ name hname w hw uniform huniform key hinserts hrange
    obtain ⟨k, hk, hlt, rfl⟩ := inserts_lt hw (by omega) (fun heq => hbatch (heq ▸ hname)) huniform hinserts
    -- no index below `num` shares its key with one from there on
    have hquot : k / flags.cut < (flags.num + keyDraw) / flags.cut := by
      unfold cut
      split
      · have hten := hlast ‹_› ⟨name, hname, w, hw, num_pos_of_inserts hinserts⟩
        omega
      · omega
    exact absurd hrange.1 (not_le.2 (flags.key_lt_key hk (by omega) hquot (by omega)))
  · have hfit : flags.num + rangeWidth ≤ 2 ^ 31 := by
      split at hfit <;> omega
    rw [rangeQuery_hit hmiss (not_lt.1 hdraw), int32_of_lt (n := keyDraw) (by omega) (by omega),
      int32_of_lt (n := keyDraw + rangeWidth) (by omega) (by omega)]
    exact ⟨flags.key_le_key (by omega) (by omega) (by omega), by rintro ⟨⟩, fun _ => ⟨Int.natCast_nonneg _, hkey⟩⟩

/-- A range that ends past the greatest `int` ends before it starts. -/
theorem KeyFlags.key_int32_lt {k : Int} (hk : 0 ≤ k) (hlt : k < 2 ^ 31) (hwidth : rangeWidth < 2 ^ 31)
    (hend : 2 ^ 31 ≤ k + rangeWidth) : flags.key (int32 (k + rangeWidth)) < flags.key k :=
  flags.key_neg_lt_key (int32_of_ge hend (by omega)) hk hlt

/-- **Where they do not fit**, some draws give a query that is not what it is meant to be. -/
theorem KeyFlags.boundsFit_of_meant (hwidth : 1 ≤ rangeWidth) (hwidth' : rangeWidth < 2 ^ 31)
    (h : ∀ missDraw keyDraw : Nat, missDraw < 100 → (keyDraw : Int) < flags.num →
      flags.Meant benchmarks (flags.rangeQuery missPct rangeWidth missDraw keyDraw)) :
    flags.BoundsFit benchmarks missPct rangeWidth := by
  have hpos := flags.num_pos
  have hlt := flags.num_lt
  right
  by_cases hpct : missPct ≤ 0
  · rw [if_pos hpct]
    by_contra hfit
    -- a hit whose range ends one past the greatest `int`
    obtain ⟨draw, hdraw⟩ : ∃ draw : Nat, (draw : Int) = 2 ^ 31 - rangeWidth :=
      ⟨(2 ^ 31 - rangeWidth).toNat, Int.toNat_of_nonneg (by omega)⟩
    have hmeant := h 0 draw (by omega) (by omega)
    rw [rangeQuery_hit (by omega) (by omega), int32_of_lt (n := draw) (by omega) (by omega)] at hmeant
    exact absurd hmeant.ordered (not_le.2 (key_int32_lt (by omega) (by omega) hwidth' (by omega)))
  · rw [if_neg hpct]
    have hfit : 2 * flags.num + rangeWidth ≤ 2 ^ 31 := by
      by_contra hfit
      -- a miss whose range starts at an `int` and ends past the greatest one
      obtain ⟨draw, hdraw⟩ : ∃ draw : Nat, (draw : Int) = max flags.num (2 ^ 31 - rangeWidth) - flags.num :=
        ⟨(max flags.num (2 ^ 31 - rangeWidth) - flags.num).toNat, Int.toNat_of_nonneg (by omega)⟩
      have hmeant := h 0 draw (by omega) (by omega)
      rw [rangeQuery_miss (by omega), int32_of_lt (n := flags.num + draw) (by omega) (by omega)] at hmeant
      exact absurd hmeant.ordered (not_le.2 (key_int32_lt (by omega) (by omega) hwidth' (by omega)))
    -- the first miss is the range from `num` on
    have hmeant := h 0 0 (by omega) (by omega)
    rw [rangeQuery_miss (by omega), Int.natCast_zero, Int.add_zero, int32_of_lt (n := flags.num) (by omega) (by omega),
      int32_of_lt (n := flags.num + rangeWidth) (by omega) (by omega)] at hmeant
    have hend : flags.key flags.num ≤ flags.key (flags.num + rangeWidth) :=
      flags.key_le_key (by omega) (by omega) (by omega)
    refine ⟨hfit, fun hname hexisting => ?_, fun hprefix hwrites => ?_⟩
    · by_contra hbatch
      obtain ⟨w, hw, hinserts⟩ := fillbatch_inserts_num hexisting (by omega) hbatch fun _ _ => 0
      exact hmeant.miss rfl "fillbatch" hname w hw (fun _ _ => 0) (fun _ _ => by omega) _ hinserts ⟨le_refl _, hend⟩
    · by_contra hten
      obtain ⟨name, hname, w, hw, hwnum⟩ := hwrites
      obtain ⟨uniform, huniform, hinserts⟩ := inserts_last hw hwnum (by omega)
      have hsame : flags.key (flags.num - 1) = flags.key flags.num := by
        refine flags.key_eq_key (by omega) (by omega) ?_
        rw [cut, if_pos hprefix]
        omega
      rw [hsame] at hinserts
      exact hmeant.miss rfl name hname w hw uniform huniform _ hinserts ⟨le_refl _, hend⟩

end Queries

/-- **The queries of a range-scan benchmark** are well-formed ranges, empty of inserted keys where they count as
misses and starting at an index where they count as hits, for all draws and after any benchmarks, if and only
if the bounds fit. -/
theorem queriesMeant_iff (flags : KeyFlags) (benchmarks : List String) {name benchmarkName : String}
    {missPct rangeWidth : Int}
    (hscan : (methodOf name).1 = some (.suRFRangeScan benchmarkName missPct rangeWidth)) :
    flags.QueriesMeant benchmarks missPct rangeWidth ↔ flags.BoundsFit benchmarks missPct rangeWidth := by
  have hwidth : 1 ≤ rangeWidth ∧ rangeWidth < 2 ^ 31 := by
    have hmem := methodOf_suRFRangeScan hscan
    simp only [List.mem_cons, Prod.mk.injEq, List.not_mem_nil, or_false] at hmem
    omega
  by_cases hreads : 0 < flags.numReads
  · constructor
    · intro h
      refine KeyFlags.boundsFit_of_meant hwidth.1 hwidth.2 fun missDraw keyDraw hmiss hkey => ?_
      refine h (fun _ => (missDraw, keyDraw)) (fun _ => ⟨hmiss, hkey⟩) _ (List.mem_map.2 ⟨0, ?_, rfl⟩)
      rw [List.mem_range]
      omega
    · intro h draws hdraws q hq
      obtain ⟨i, -, rfl⟩ := List.mem_map.1 hq
      exact h.meant hreads hwidth.1 (hdraws i).1 (hdraws i).2
  · refine ⟨fun _ => Or.inl (not_lt.1 hreads), fun _ draws _ q hq => ?_⟩
    have hnone : flags.numReads.toNat = 0 := by omega
    simp [KeyFlags.doSuRFRangeScan, hnone] at hq

/-- A thousand keys, written in one batch: half of the queries may be misses. -/
theorem queriesMeant_iff_sample :
    (⟨1000, -1, 0, false, by decide, by decide, by decide⟩ : KeyFlags).QueriesMeant ["fillbatch"] 50 10 :=
  (@queriesMeant_iff _ _ "surfscan50" "surfscan50" _ _ rfl).2
    (Or.inr ⟨by decide, fun _ _ => by decide, fun h => absurd h (by decide)⟩)

/-- 1500 keys, and one query. -/
def SampleKeys.flags : KeyFlags := ⟨1500, 1, 0, false, by decide, by decide, by decide⟩

/-- The second batch goes on to index 1999, and a miss that starts at index 1500 is not empty. -/
theorem queriesMeant_fails : ¬ SampleKeys.flags.QueriesMeant ["fillbatch"] 100 10 := by
  intro h
  have hmeant := h (fun _ => (0, 0)) (fun _ => by decide) (SampleKeys.flags.rangeQuery 100 10 0 0)
    (List.mem_singleton.2 rfl)
  obtain ⟨w, hw, hinserts⟩ := @KeyFlags.fillbatch_inserts_num SampleKeys.flags rfl (by decide) (by decide)
    fun _ _ => 0
  exact hmeant.miss rfl "fillbatch" (by decide) w hw (fun _ _ => 0) (fun _ _ => by decide) _ hinserts
    ⟨by decide, by decide⟩

end LevelDbSurf
