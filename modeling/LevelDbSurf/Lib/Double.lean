import Mathlib

/-!
# Doubles

The values of a double but `NaN`, the finite ones exactly.
-/

namespace Doubles

/-- A double that is a number. -/
inductive Number where
  | negInfinity
  | finite (q : ℚ)
  | posInfinity
deriving DecidableEq

namespace Number

/-- Its place on the line. -/
def position : Number → WithBot (WithTop ℚ)
  | negInfinity => ⊥
  | finite q => ((q : WithTop ℚ) : WithBot (WithTop ℚ))
  | posInfinity => ((⊤ : WithTop ℚ) : WithBot (WithTop ℚ))

theorem position_injective : Function.Injective position := by
  intro a b h
  cases a <;> cases b <;> simp_all [position]

instance : LinearOrder Number := LinearOrder.lift' position position_injective

@[simp] theorem finite_lt_finite {a b : ℚ} : finite a < finite b ↔ a < b :=
  WithBot.coe_lt_coe.trans WithTop.coe_lt_coe

@[simp] theorem negInfinity_lt_finite (b : ℚ) : negInfinity < finite b := WithBot.bot_lt_coe _

@[simp] theorem negInfinity_lt_posInfinity : negInfinity < posInfinity := WithBot.bot_lt_coe _

@[simp] theorem finite_lt_posInfinity (a : ℚ) : finite a < posInfinity :=
  WithBot.coe_lt_coe.2 (WithTop.coe_lt_top a)

@[simp] theorem negInfinity_le (a : Number) : negInfinity ≤ a := by
  cases a <;> simp [le_of_lt]

@[simp] theorem le_posInfinity (a : Number) : a ≤ posInfinity := by
  cases a <;> simp [le_of_lt]

@[simp] theorem not_lt_negInfinity (a : Number) : ¬ a < negInfinity := not_lt.2 (negInfinity_le a)

@[simp] theorem not_posInfinity_lt (a : Number) : ¬ posInfinity < a := not_lt.2 (le_posInfinity a)

instance : Zero Number := ⟨finite 0⟩

theorem zero_eq : (0 : Number) = finite 0 := rfl

/-- `a - b`; `none` is `NaN`. The difference of finite doubles is exact here: rounding leaves its sign as it is. -/
def sub : Number → Number → Option Number
  | finite a, finite b => some (finite (a - b))
  | posInfinity, posInfinity => none
  | negInfinity, negInfinity => none
  | posInfinity, _ => some posInfinity
  | negInfinity, _ => some negInfinity
  | finite _, posInfinity => some negInfinity
  | finite _, negInfinity => some posInfinity

/-- The difference of unequal numbers has the sign of their order. -/
theorem sub_of_ne {a b : Number} (h : a ≠ b) :
    ∃ d, a.sub b = some d ∧ (0 < d ↔ b < a) ∧ (d < 0 ↔ a < b) := by
  cases a <;> cases b <;> simp_all [sub, zero_eq]

/-- The difference of equal numbers is zero or `NaN`. -/
theorem sub_self (a : Number) : a.sub a = some 0 ∨ a.sub a = none := by
  cases a <;> simp [sub, zero_eq]

/-! ## Rounding -/

/-- The nearest integer, the even one of two. -/
def roundEven (x : ℚ) : Int :=
  if x - ⌊x⌋ < 1 / 2 then ⌊x⌋
  else if 1 / 2 < x - ⌊x⌋ then ⌊x⌋ + 1
  else if ⌊x⌋ % 2 = 0 then ⌊x⌋ else ⌊x⌋ + 1

/-- The exponent of the last of the 53 bits of a double this large. -/
def lastBit (x : ℚ) : Int := max (-1074) (Int.log 2 |x| - 52)

/-- The nearest double. -/
def round (x : ℚ) : Number :=
  let y : ℚ := roundEven (x / 2 ^ lastBit x) * 2 ^ lastBit x
  if |y| < 2 ^ 1024 then finite y else if 0 < x then posInfinity else negInfinity

@[simp] theorem roundEven_intCast (n : Int) : roundEven n = n := by
  simp [roundEven]

/-- The nearest double, for what is too small to overflow (`round_eq_nearest`). -/
def nearest (x : ℚ) : ℚ := roundEven (x / 2 ^ lastBit x) * 2 ^ lastBit x

theorem abs_roundEven_le (x : ℚ) : |(roundEven x : ℚ)| ≤ |x| + 1 := by
  have hlow := Int.floor_le x
  have hhigh := Int.lt_floor_add_one x
  have hnear : roundEven x = ⌊x⌋ ∨ roundEven x = ⌊x⌋ + 1 := by
    unfold roundEven
    split_ifs <;> simp
  have hdist : |(roundEven x : ℚ) - x| ≤ 1 := by
    rw [abs_le]
    rcases hnear with h | h <;> rw [h] <;> push_cast <;> constructor <;> linarith
  calc |(roundEven x : ℚ)| = |x + ((roundEven x : ℚ) - x)| := by rw [add_sub_cancel]
    _ ≤ |x| + |(roundEven x : ℚ) - x| := abs_add_le _ _
    _ ≤ |x| + 1 := by linarith

theorem two_zpow_lastBit_le (x : ℚ) : (2 : ℚ) ^ lastBit x ≤ |x| + 1 := by
  rcases max_choice (-1074) (Int.log 2 |x| - 52) with h | h <;> rw [lastBit, h]
  · have hone : (2 : ℚ) ^ (-1074 : Int) ≤ 1 := zpow_le_one_of_nonpos₀ one_le_two (by norm_num)
    linarith [abs_nonneg x]
  · rcases eq_or_ne x 0 with rfl | hx
    · rw [abs_zero, Int.log_zero_right]
      exact (zpow_le_one_of_nonpos₀ one_le_two (by norm_num)).trans (by norm_num)
    · have hlog := Int.zpow_log_le_self (b := 2) one_lt_two (abs_pos.2 hx)
      have hmono : (2 : ℚ) ^ (Int.log 2 |x| - 52) ≤ 2 ^ Int.log 2 |x| := zpow_le_zpow_right₀ one_le_two (by omega)
      push_cast at hlog
      linarith

/-- Rounding goes up by the last bit at most. -/
theorem abs_nearest_le (x : ℚ) : |nearest x| ≤ 2 * |x| + 1 := by
  have hpos : (0 : ℚ) < 2 ^ lastBit x := zpow_pos two_pos _
  calc |nearest x| = |(roundEven (x / 2 ^ lastBit x) : ℚ)| * 2 ^ lastBit x := by
        rw [nearest, abs_mul, abs_of_pos hpos]
    _ ≤ (|x / 2 ^ lastBit x| + 1) * 2 ^ lastBit x := mul_le_mul_of_nonneg_right (abs_roundEven_le _) hpos.le
    _ = |x| + 2 ^ lastBit x := by
        rw [abs_div, abs_of_pos hpos, add_mul, div_mul_cancel₀ _ hpos.ne', one_mul]
    _ ≤ 2 * |x| + 1 := by linarith [two_zpow_lastBit_le x]

theorem round_eq_nearest {x : ℚ} (h : |x| ≤ 2 ^ 100) : round x = finite (nearest x) := by
  have hsmall : |nearest x| < 2 ^ 1024 := by
    calc |nearest x| ≤ 2 ^ 102 := by linarith [abs_nearest_le x]
      _ < 2 ^ 1024 := pow_lt_pow_right₀ one_lt_two (by decide)
  exact if_pos hsmall

@[simp] theorem nearest_zero : nearest 0 = 0 := by
  have h : roundEven 0 = 0 := by exact_mod_cast roundEven_intCast 0
  simp [nearest, h]

/-- A multiple of its last bit is a double. -/
theorem round_of_multiple {x : ℚ} {n : Int} (h : x = n * 2 ^ lastBit x) (hx : |x| < 2 ^ 1024) :
    round x = finite x := by
  have hpos : (2 : ℚ) ^ lastBit x ≠ 0 := zpow_ne_zero _ two_ne_zero
  have hdiv : x / 2 ^ lastBit x = n := by
    rw [div_eq_iff hpos]
    exact h
  simp only [round, hdiv, roundEven_intCast, ← h, if_pos hx]

/-- **Integers up to `2^53`** are doubles. -/
theorem round_intCast {n : Int} (hn : |n| ≤ 2 ^ 53) : round n = finite n := by
  have hlt : |(n : ℚ)| < 2 ^ 1024 := by
    have hle : |(n : ℚ)| ≤ 2 ^ 53 := by exact_mod_cast hn
    exact hle.trans_lt (pow_lt_pow_right₀ (by norm_num) (by decide))
  have hlog : Int.log 2 |(n : ℚ)| = Nat.log 2 n.natAbs := by
    rw [← Int.cast_abs, Int.abs_eq_natAbs, Int.cast_natCast, Int.log_natCast]
  have habs : n.natAbs ≤ 2 ^ 53 := by
    have h := hn
    rw [Int.abs_eq_natAbs] at h
    exact_mod_cast h
  rcases habs.lt_or_eq with hsmall | htop
  · -- the last bit is at most that of the units
    have hbit : lastBit n ≤ 0 := by
      have hlog' : Nat.log 2 n.natAbs < 53 ∨ n.natAbs = 0 := by
        rcases Nat.eq_zero_or_pos n.natAbs with h0 | h0
        · exact Or.inr h0
        · exact Or.inl (Nat.log_lt_of_lt_pow h0.ne' hsmall)
      rw [lastBit, hlog]
      rcases hlog' with h | h
      · omega
      · simp [h]
    obtain ⟨k, hk⟩ := Int.eq_ofNat_of_zero_le (neg_nonneg.2 hbit)
    have hk' : lastBit n = -(k : Int) := by omega
    refine round_of_multiple (n := n * 2 ^ k) ?_ hlt
    rw [hk', zpow_neg, zpow_natCast]
    push_cast
    rw [mul_assoc, mul_inv_cancel₀ (pow_ne_zero k two_ne_zero), mul_one]
  · have hbit : lastBit n = 1 := by
      rw [lastBit, hlog, htop, Nat.log_pow (by decide)]
      rfl
    refine round_of_multiple (n := n.sign * 2 ^ 52) ?_ hlt
    rw [hbit, zpow_one]
    have hn' : n = n.sign * 2 ^ 53 := by
      conv_lhs => rw [← Int.sign_mul_natAbs n, htop]
      rfl
    conv_lhs => rw [hn']
    push_cast
    ring

theorem le_roundEven {n : Int} {x : ℚ} (h : (n : ℚ) ≤ x) : n ≤ roundEven x := by
  have hfloor := Int.le_floor.2 h
  unfold roundEven
  split_ifs <;> omega

/-- Rounding does not go below a power of two. -/
theorem zpow_le_nearest {k : Int} {x : ℚ} (hk : 0 ≤ k) (h : (2 : ℚ) ^ k ≤ x) : (2 : ℚ) ^ k ≤ nearest x := by
  have hpos : (0 : ℚ) < x := (zpow_pos two_pos _).trans_le h
  have hlog : k ≤ Int.log 2 x := (Int.zpow_le_iff_le_log (b := 2) one_lt_two hpos).1 (by exact_mod_cast h)
  have hbit : lastBit x = Int.log 2 x - 52 := by
    rw [lastBit, abs_of_pos hpos]
    exact max_eq_right (by omega)
  have hsplit : ((2 ^ 52 : Int) : ℚ) * 2 ^ lastBit x = 2 ^ Int.log 2 x := by
    rw [hbit, zpow_sub₀ two_ne_zero]
    norm_num
    ring
  have hle : ((2 ^ 52 : Int) : ℚ) ≤ x / 2 ^ lastBit x := by
    rw [le_div_iff₀ (zpow_pos two_pos _), hsplit]
    exact_mod_cast Int.zpow_log_le_self (b := 2) one_lt_two hpos
  calc (2 : ℚ) ^ k ≤ 2 ^ Int.log 2 x := zpow_le_zpow_right₀ one_le_two hlog
    _ = ((2 ^ 52 : Int) : ℚ) * 2 ^ lastBit x := hsplit.symm
    _ ≤ nearest x :=
      mul_le_mul_of_nonneg_right (by exact_mod_cast le_roundEven hle) (zpow_pos two_pos _).le

end Number

end Doubles
