import Mathlib

/-!
# Order statistics

`IsRank l k v` says that `v` is the `k`-th smallest of `l`, in a way that does not depend on the order of `l`: at least
`k` elements are at most `v`, and fewer than `k` are less. There is one such value at most (`IsRank.unique`), and a
sorted list has it at its place (`isRank_of_sorted`).
-/

namespace OrderStatistics

variable {α : Type} [LinearOrder α] {l l' s : List α} {k : Nat} {v w : α}

structure IsRank (l : List α) (k : Nat) (v : α) : Prop where
  mem : v ∈ l
  le : k ≤ l.countP fun x => decide (x ≤ v)
  lt : l.countP (fun x => decide (x < v)) < k

theorem IsRank.perm (h : IsRank l k v) (hperm : l.Perm l') : IsRank l' k v where
  mem := hperm.mem_iff.1 h.mem
  le := by
    rw [← hperm.countP_eq]
    exact h.le
  lt := by
    rw [← hperm.countP_eq]
    exact h.lt

/-- What counts as at most `v` counts as less than a larger value. -/
theorem countP_le_countP_lt (l : List α) (h : v < w) :
    l.countP (fun x => decide (x ≤ v)) ≤ l.countP fun x => decide (x < w) := by
  refine List.countP_mono_left fun x _ hx => ?_
  simp only [decide_eq_true_eq] at hx ⊢
  exact lt_of_le_of_lt hx h

theorem IsRank.not_lt_of (hv : IsRank l k v) (hw : IsRank l k w) : ¬ v < w := by
  intro h
  have hle := hv.le.trans (countP_le_countP_lt l h)
  exact absurd hw.lt (Nat.not_lt.2 hle)

/-- **There is one** at most. -/
theorem IsRank.unique (hv : IsRank l k v) (hw : IsRank l k w) : v = w :=
  le_antisymm (not_lt.1 (hw.not_lt_of hv)) (not_lt.1 (hv.not_lt_of hw))

/-- **In a sorted list** the element at index `i` is of rank `i + 1`. -/
theorem isRank_of_sorted (hs : s.Pairwise (· ≤ ·)) {i : Nat} (h : s[i]? = some v) : IsRank s (i + 1) v := by
  obtain ⟨hi, hget⟩ := List.getElem?_eq_some_iff.1 h
  refine ⟨List.mem_of_getElem? h, ?_, ?_⟩
  · have htake : ∀ x ∈ s.take (i + 1), decide (x ≤ v) = true := by
      intro x hx
      obtain ⟨j, hj, rfl⟩ := List.mem_take_iff_getElem.1 hx
      rw [← hget]
      rcases (Nat.lt_succ_iff.1 (lt_min_iff.1 hj).1).lt_or_eq with hlt | rfl
      · exact decide_eq_true (List.pairwise_iff_getElem.1 hs j i _ hi hlt)
      · exact decide_eq_true (le_refl _)
    calc i + 1 = (s.take (i + 1)).length := by
          rw [List.length_take]
          omega
      _ = (s.take (i + 1)).countP fun x => decide (x ≤ v) := (List.countP_eq_length.2 htake).symm
      _ ≤ s.countP fun x => decide (x ≤ v) := (List.take_sublist _ _).countP_le
  · have hdrop : (s.drop i).countP (fun x => decide (x < v)) = 0 := by
      refine List.countP_eq_zero.2 fun x hx => ?_
      obtain ⟨j, hj, rfl⟩ := List.mem_drop_iff_getElem.1 hx
      rw [← hget]
      simp only [decide_eq_true_eq, not_lt]
      rcases Nat.eq_zero_or_pos j with rfl | hpos
      · exact le_refl _
      · exact List.pairwise_iff_getElem.1 hs i (i + j) hi (by omega) (by omega)
    calc s.countP (fun x => decide (x < v))
        = (s.take i).countP (fun x => decide (x < v)) + (s.drop i).countP fun x => decide (x < v) := by
          rw [← List.countP_append, List.take_append_drop]
      _ ≤ (s.take i).length := by
          rw [hdrop]
          exact List.countP_le_length
      _ < i + 1 := by
          rw [List.length_take]
          omega

end OrderStatistics
