import LevelDbSurf.Lib.Cursor

/-!
# Merging sorted lists

`mergeAll` is the stable merge of sorted lists: ascending, and among equal keys in the order of the
lists. What cursor-level results need of it is that it commutes with filtering (`filter_mergeAll`),
so that a range of the merge depends only on that range of the parts, and that a sorted list splits
at any key (`Sorted.split`).
-/

namespace Cursors

section Merge
variable {κ ν : Type} [LinearOrder κ]

/-- The order of entries: by key. -/
def KeyLE (a b : κ × ν) : Prop := a.1 ≤ b.1

instance : DecidableRel (KeyLE : κ × ν → κ × ν → Prop) := fun a b => inferInstanceAs (Decidable (a.1 ≤ b.1))
instance : Std.Total (KeyLE : κ × ν → κ × ν → Prop) := ⟨fun a b => le_total a.1 b.1⟩
instance : IsTrans (κ × ν) KeyLE := ⟨fun _ _ _ h h' => le_trans h h'⟩

def Sorted (L : List (κ × ν)) : Prop := L.Pairwise KeyLE

instance (L : List (κ × ν)) : Decidable (Sorted L) := inferInstanceAs (Decidable (L.Pairwise KeyLE))

/-- The stable merge. -/
def mergeAll (Ls : List (List (κ × ν))) : List (κ × ν) := Ls.flatten.insertionSort KeyLE

theorem mergeAll_perm (Ls : List (List (κ × ν))) : (mergeAll Ls).Perm Ls.flatten :=
  List.perm_insertionSort _ _

theorem mem_mergeAll {Ls : List (List (κ × ν))} {e : κ × ν} :
    e ∈ mergeAll Ls ↔ ∃ L ∈ Ls, e ∈ L := by
  rw [(mergeAll_perm Ls).mem_iff, List.mem_flatten]

theorem mergeAll_sorted (Ls : List (List (κ × ν))) : Sorted (mergeAll Ls) :=
  List.pairwise_insertionSort _ _

theorem filter_orderedInsert (p : κ × ν → Bool) (a : κ × ν) {L : List (κ × ν)} (h : Sorted L) :
    (L.orderedInsert KeyLE a).filter p =
      if p a then (L.filter p).orderedInsert KeyLE a else L.filter p := by
  induction L with
  | nil => by_cases hp : p a <;> simp [hp]
  | cons b L ih =>
    obtain ⟨hb, hL⟩ := List.pairwise_cons.1 h
    by_cases hab : KeyLE a b
    · -- `a` stays in front of all that follows, filtered or not
      rw [List.orderedInsert_cons, if_pos hab, List.filter_cons]
      by_cases hp : p a
      · rw [if_pos hp, if_pos hp]
        symm
        cases hf : (b :: L).filter p with
        | nil => rfl
        | cons c F =>
          have hc : c ∈ b :: L := (List.mem_filter.1 (hf ▸ List.mem_cons_self)).1
          have hac : KeyLE a c := by
            rcases List.mem_cons.1 hc with rfl | hc
            · exact hab
            · exact le_trans hab (hb c hc)
          rw [List.orderedInsert_cons, if_pos hac]
      · rw [if_neg hp, if_neg hp]
    · rw [List.orderedInsert_cons, if_neg hab, List.filter_cons, ih hL, List.filter_cons]
      by_cases hpa : p a <;> by_cases hpb : p b
      · simp only [hpa, hpb, if_true, List.orderedInsert_cons, if_neg hab]
      · simp only [hpa, hpb, if_true, Bool.false_eq_true, if_false]
      · simp only [hpa, hpb, if_true, Bool.false_eq_true, if_false]
      · simp only [hpa, hpb, Bool.false_eq_true, if_false]

/-- **Filtering commutes with merging.** -/
theorem filter_mergeAll (p : κ × ν → Bool) (Ls : List (List (κ × ν))) :
    (mergeAll Ls).filter p = mergeAll (Ls.map (List.filter p)) := by
  have sort : ∀ l : List (κ × ν),
      (l.insertionSort KeyLE).filter p = (l.filter p).insertionSort KeyLE := by
    intro l
    induction l with
    | nil => rfl
    | cons a l ih =>
      rw [List.insertionSort_cons, filter_orderedInsert p a (List.pairwise_insertionSort _ _), ih,
        List.filter_cons]
      by_cases hp : p a
      · rw [if_pos hp, if_pos hp, List.insertionSort_cons]
      · rw [if_neg hp, if_neg hp]
  rw [mergeAll, mergeAll, sort, List.filter_flatten]

/-- Fewer entries in the parts, fewer in the merge; those left keep their order. -/
theorem mergeAll_sublist {Ks Ls : List (List (κ × ν))} (h : Ks.flatten.Sublist Ls.flatten) :
    (mergeAll Ks).Sublist (mergeAll Ls) := by
  have sort : ∀ {k l : List (κ × ν)}, k.Sublist l →
      (k.insertionSort KeyLE).Sublist (l.insertionSort KeyLE) := by
    intro k l h
    induction h with
    | slnil => exact List.Sublist.slnil
    | cons a _ ih => exact ih.trans (List.sublist_orderedInsert _ _)
    | cons_cons a _ ih => exact List.Sublist.orderedInsert_sublist _ ih (List.pairwise_insertionSort _ _)
  exact sort h

/-! ## Splitting a sorted list -/

/-- A sorted list is the entries a downward closed predicate holds of, then the others. -/
theorem Sorted.split {L : List (κ × ν)} (h : Sorted L) (q : κ → Bool)
    (hq : ∀ x y, x ≤ y → q y = true → q x = true) :
    L = L.filter (fun e => q e.1) ++ L.filter (fun e => !q e.1) := by
  induction L with
  | nil => rfl
  | cons a L ih =>
    obtain ⟨ha, hL⟩ := List.pairwise_cons.1 h
    by_cases hqa : q a.1
    · simp only [List.filter_cons, hqa, if_true, Bool.not_true, Bool.false_eq_true, if_false,
        List.cons_append]
      rw [← ih hL]
    · -- nothing after `a` satisfies `q` either
      have hnone : ∀ e ∈ a :: L, q e.1 = false := by
        intro e he
        rcases List.mem_cons.1 he with rfl | he
        · simpa using hqa
        · by_contra hqe
          exact hqa (hq _ _ (ha e he) (by simpa using hqe))
      rw [List.filter_eq_nil_iff.2 (fun e he => by simp [hnone e he]), List.nil_append]
      exact (List.filter_eq_self.2 fun e he => by simp [hnone e he]).symm

theorem Sorted.filter {L : List (κ × ν)} (h : Sorted L) (p : κ × ν → Bool) : Sorted (L.filter p) :=
  List.Pairwise.filter p h

/-- From `seekPos` on lie exactly the entries at or after the target. -/
theorem Sorted.drop_seekPos {L : List (κ × ν)} (h : Sorted L) (t : κ) :
    L.drop (seekPos L t) = L.filter fun e => decide (t ≤ e.1) := by
  induction L with
  | nil => rfl
  | cons a L ih =>
    obtain ⟨ha, hL⟩ := List.pairwise_cons.1 h
    by_cases hta : t ≤ a.1
    · have hall : ∀ e ∈ a :: L, t ≤ e.1 := by
        intro e he
        rcases List.mem_cons.1 he with rfl | he
        · exact hta
        · exact le_trans hta (ha e he)
      have h0 : seekPos (a :: L) t = 0 := by simp [seekPos, List.findIdx_cons, hta]
      rw [h0, List.drop_zero]
      exact (List.filter_eq_self.2 fun e he => by simpa using hall e he).symm
    · have hs : seekPos (a :: L) t = seekPos L t + 1 := by simp [seekPos, List.findIdx_cons, hta]
      rw [hs, List.drop_succ_cons, ih hL, List.filter_cons]
      simp [hta]

end Merge

/-! ## The first entry that satisfies a predicate -/

/-- In a sublist that lacks no copy of it, the first entry that satisfies `p` is still the first. -/
theorem find?_of_sublist {τ : Type} [DecidableEq τ] {k l : List τ} {p : τ → Bool} {d : τ}
    (h : k.Sublist l) (hd : l.find? p = some d)
    (hcopies : k.filter (fun x => decide (x = d)) = l.filter fun x => decide (x = d)) :
    k.find? p = some d := by
  obtain ⟨hpd, as, bs, rfl, has⟩ := List.find?_eq_some_iff_append.1 hd
  obtain ⟨k₁, k₂, rfl, h₁, h₂⟩ := List.sublist_append_iff.1 h
  have hnot : ∀ x ∈ as, x ≠ d := by
    rintro x hx rfl
    simpa [hpd] using has x hx
  have has' : as.filter (fun x => decide (x = d)) = [] :=
    List.filter_eq_nil_iff.2 fun x hx => by simpa using hnot x hx
  have hk₁ : k₁.filter (fun x => decide (x = d)) = [] :=
    List.filter_eq_nil_iff.2 fun x hx => by simpa using hnot x (h₁.subset hx)
  have hfirst : ∀ x ∈ k₁, p x = false := fun x hx => by simpa using has x (h₁.subset hx)
  rw [List.filter_append, List.filter_append, hk₁, has', List.nil_append, List.nil_append] at hcopies
  rw [List.find?_append, List.find?_eq_none.2 (fun x hx => by simp [hfirst x hx]), Option.none_or]
  rcases List.sublist_cons_iff.1 h₂ with h₂ | ⟨k₃, rfl, -⟩
  · -- then one copy of `d` would be missing
    have hlen := (h₂.filter fun x => decide (x = d)).length_le
    rw [hcopies, List.filter_cons_of_pos (by simp), List.length_cons] at hlen
    omega
  · exact List.find?_cons_of_pos hpd

/-! ## Merging iterators -/

/-- A merging iterator: over cursors of sorted lists, the cursor of their merge. -/
structure Merger (κ ν : Type) [LinearOrder κ] where
  merge : List (Behaviour κ ν) → Behaviour κ ν
  merge_cursors : ∀ Ls : List (List (κ × ν)), (∀ L ∈ Ls, Sorted L) →
    merge (Ls.map cursor) = cursor (mergeAll Ls)

open Classical in
/-- There is one: the lists can be recovered from the cursors. -/
noncomputable def Merger.ofCursors (κ ν : Type) [LinearOrder κ] : Merger κ ν where
  merge bs := if h : ∃ Ls : List (List (κ × ν)), Ls.map cursor = bs then cursor (mergeAll h.choose)
    else fun _ => none
  merge_cursors Ls _ := by
    have h : ∃ Ls' : List (List (κ × ν)), Ls'.map cursor = Ls.map cursor := ⟨Ls, rfl⟩
    rw [dif_pos h, List.map_injective_iff.2 cursor_injective h.choose_spec]

/-! ## Concatenations in key order -/

section Flatten
variable {κ ν : Type} [LinearOrder κ]

theorem sorted_append {A B : List (κ × ν)} :
    Sorted (A ++ B) ↔ Sorted A ∧ Sorted B ∧ ∀ a ∈ A, ∀ b ∈ B, a.1 ≤ b.1 :=
  List.pairwise_append

/-- Sorted parts, each wholly before the later ones. -/
theorem sorted_flatMap {ι : Type} {I : List ι} {f : ι → List (κ × ν)} (hs : ∀ i ∈ I, Sorted (f i))
    (hI : I.Pairwise fun i j => ∀ a ∈ f i, ∀ b ∈ f j, a.1 ≤ b.1) : Sorted (I.flatMap f) := by
  induction I with
  | nil => exact List.Pairwise.nil
  | cons i I ih =>
    obtain ⟨hi, hI⟩ := List.pairwise_cons.1 hI
    rw [List.flatMap_cons, sorted_append]
    refine ⟨hs i List.mem_cons_self, ih (fun j hj => hs j (List.mem_cons_of_mem _ hj)) hI, ?_⟩
    intro a ha b hb
    obtain ⟨j, hj, hb⟩ := List.mem_flatMap.1 hb
    exact hi j hj a ha b hb

end Flatten

end Cursors
