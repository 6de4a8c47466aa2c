import Mathlib

/-!
# Numerals of a fixed width

`numeral base digit w n` writes `n` with `w` digits, the most significant first. Where the digits ascend the
numerals do too, in lexicographic order.
-/

namespace Numerals

variable {β : Type} {base : Nat} {digit : Nat → β}

/-- The `w` digits of `n`. -/
def numeral (base : Nat) (digit : Nat → β) : Nat → Nat → List β
  | 0, _ => []
  | w + 1, n => digit (n / base ^ w) :: numeral base digit w (n % base ^ w)

@[simp] theorem numeral_length (w n : Nat) : (numeral base digit w n).length = w := by
  induction w generalizing n with
  | zero => rfl
  | succ w ih => simp [numeral, ih]

/-- The first digits are those of the quotient. -/
theorem numeral_take (w k n : Nat) :
    (numeral base digit (w + k) n).take w = numeral base digit w (n / base ^ k) := by
  induction w generalizing n with
  | zero => rfl
  | succ w ih =>
    rw [Nat.succ_add, numeral, numeral, List.take_succ_cons, ih, Nat.add_comm w k, pow_add,
      Nat.mod_mul_right_div_self, Nat.div_div_eq_div_mul]

/-- A greater digit is a greater symbol. -/
def Ascends [LT β] (base : Nat) (digit : Nat → β) : Prop := ∀ a b, a < b → b < base → digit a < digit b

variable [LinearOrder β] {w n m : Nat}

/-- Of the same width, so what follows them decides nothing. -/
theorem numeral_append_lt (hdigit : Ascends base digit) (hnm : n < m) (hm : m < base ^ w) (xs ys : List β) :
    numeral base digit w n ++ xs < numeral base digit w m ++ ys := by
  induction w generalizing n m with
  | zero =>
    rw [pow_zero] at hm
    omega
  | succ w ih =>
    have hpos : 0 < base ^ w := by
      rcases Nat.eq_zero_or_pos base with rfl | hbase
      · simp at hm
      · exact Nat.pow_pos hbase
    rw [numeral, numeral, List.cons_append, List.cons_append, List.cons_lt_cons_iff]
    rcases (Nat.div_le_div_right (c := base ^ w) hnm.le).lt_or_eq with hlt | heq
    · left
      refine hdigit _ _ hlt (Nat.div_lt_of_lt_mul ?_)
      rwa [pow_succ] at hm
    · right
      refine ⟨by rw [heq], ih ?_ (Nat.mod_lt _ hpos)⟩
      have hn := Nat.div_add_mod n (base ^ w)
      have hm := Nat.div_add_mod m (base ^ w)
      rw [heq] at hn
      omega

end Numerals
