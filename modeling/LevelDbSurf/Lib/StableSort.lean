import Mathlib

/-!
# Sorting by a comparison that has ties

A comparison that is total and transitive orders a list up to ties. The stable sort leaves ties as they stood, and
is the only list that does (`IsStableSort.unique`); `List.mergeSort` computes it.
-/

namespace StableSort

variable {α : Type} {le : α → α → Bool} {l s s' : List α}

/-- Every two elements compare, and consistently. -/
structure Consistent (le : α → α → Bool) : Prop where
  total : ∀ a b, le a b = true ∨ le b a = true
  trans : ∀ a b c, le a b = true → le b c = true → le a c = true

/-- Neither comes before the other. -/
def tie (le : α → α → Bool) (a b : α) : Bool := le a b && le b a

/-- `s` has the elements of `l` in order, those that tie as they stood. -/
structure IsStableSort (le : α → α → Bool) (l s : List α) : Prop where
  pairwise : s.Pairwise fun a b => le a b = true
  ties : ∀ a, s.filter (tie le a) = l.filter (tie le a)

theorem Consistent.refl (h : Consistent le) (a : α) : le a a = true := by
  rcases h.total a a with ha | ha <;> exact ha

theorem Consistent.tie_self (h : Consistent le) (a : α) : tie le a a = true := by
  simp [tie, h.refl a]

/-- Comparing by a key in a linear order is consistent. -/
theorem Consistent.of_key {β : Type} [LinearOrder β] (key : α → β) (h : ∀ a b, le a b = true ↔ key a ≤ key b) :
    Consistent le where
  total a b := by
    rw [h, h]
    exact le_total _ _
  trans a b c := by
    simp only [h]
    exact le_trans

/-- Elements that tie with one tie with each other. -/
theorem Consistent.pairwise_ties (h : Consistent le) (a : α) (l : List α) :
    (l.filter (tie le a)).Pairwise fun b c => le b c = true := by
  refine List.pairwise_of_forall_mem_list fun b hb c hc => ?_
  simp only [List.mem_filter, tie, Bool.and_eq_true] at hb hc
  exact h.trans b a c hb.2.2 hc.2.1

theorem isStableSort_mergeSort (h : Consistent le) (l : List α) : IsStableSort le l (l.mergeSort le) where
  pairwise := List.pairwise_mergeSort h.trans (by simpa using h.total) l
  ties a := by
    have hsub : (l.filter (tie le a)).Sublist (l.mergeSort le) :=
      List.sublist_mergeSort h.trans (by simpa using h.total) (h.pairwise_ties a l) List.filter_sublist
    have hties : (l.filter (tie le a)).Sublist ((l.mergeSort le).filter (tie le a)) := by
      simpa using hsub.filter (tie le a)
    have hlength := ((List.mergeSort_perm l le).filter (tie le a)).length_eq
    exact (hties.eq_of_length hlength.symm).symm

/-- An element that ties with the head of an ordered list comes to the front of its ties. -/
theorem mem_of_ties (h : Consistent le) {a : α} (heq : s.filter (tie le a) = s'.filter (tie le a)) (ha : a ∈ s) :
    a ∈ s' := by
  have hmem : a ∈ s.filter (tie le a) := List.mem_filter.2 ⟨ha, h.tie_self a⟩
  rw [heq] at hmem
  exact (List.mem_filter.1 hmem).1

/-- Two ordered lists with the same ties are the same. -/
theorem eq_of_ties (h : Consistent le) (hs : s.Pairwise fun a b => le a b = true)
    (hs' : s'.Pairwise fun a b => le a b = true) (heq : ∀ a, s.filter (tie le a) = s'.filter (tie le a)) :
    s = s' := by
  induction s generalizing s' with
  | nil =>
    cases s' with
    | nil => rfl
    | cons y t' => exact absurd (mem_of_ties h (heq y).symm (List.mem_cons_self ..)) (List.not_mem_nil)
  | cons x t ih =>
    cases s' with
    | nil => exact absurd (mem_of_ties h (heq x) (List.mem_cons_self ..)) (List.not_mem_nil)
    | cons y t' =>
      rw [List.pairwise_cons] at hs hs'
      have hxy : le x y = true := by
        rcases List.mem_cons.1 (mem_of_ties h (heq y).symm (List.mem_cons_self ..)) with rfl | hy
        · exact h.refl y
        · exact hs.1 y hy
      have hyx : le y x = true := by
        rcases List.mem_cons.1 (mem_of_ties h (heq x) (List.mem_cons_self ..)) with rfl | hx
        · exact h.refl x
        · exact hs'.1 x hx
      obtain rfl : x = y := by
        have htie : tie le x y = true := by simp [tie, hxy, hyx]
        have hx := heq x
        rw [List.filter_cons_of_pos (h.tie_self x), List.filter_cons_of_pos htie] at hx
        exact (List.cons.inj hx).1
      rw [ih hs.2 hs'.2 fun a => ?_]
      have ha := heq a
      by_cases htie : tie le a x = true
      · simpa [List.filter_cons, htie] using ha
      · simpa [List.filter_cons, htie] using ha

/-- There is one stable sort. -/
theorem IsStableSort.unique (h : Consistent le) (hs : IsStableSort le l s) (hs' : IsStableSort le l s') : s = s' :=
  eq_of_ties h hs.pairwise hs'.pairwise fun a => by rw [hs.ties, hs'.ties]

/-- What is in order already is its own sort. -/
theorem IsStableSort.self_iff : IsStableSort le l l ↔ l.Pairwise fun a b => le a b = true :=
  ⟨fun h => h.pairwise, fun h => ⟨h, fun _ => rfl⟩⟩

end StableSort
