import LevelDbSurf.Lib.Merge

/-!
# Searching sources in order

A search asks its sources one after the other and stops at the first that answers. `visit` is the loop,
with a callback that says whether to go on; `visit_findSome?` turns it into `List.findSome?`, and
`find?_mergeAll` says when that is the first entry of the merge of all sources. `visitWords` is the loop with
an index of 32 bits.
-/

namespace Cursors

/-! ## Loops a callback may stop -/

section Visit
variable {σ τ β γ : Type}

/-- Calls `func` on each element until it returns `false`: the state, and whether it never did. -/
def visit (func : σ → β → σ × Bool) : σ → List β → σ × Bool
  | s, [] => (s, true)
  | s, b :: bs => if (func s b).2 then visit func (func s b).1 bs else ((func s b).1, false)

theorem visit_append (func : σ → β → σ × Bool) (s : σ) (as bs : List β) :
    visit func s (as ++ bs) =
      if (visit func s as).2 then visit func (visit func s as).1 bs else visit func s as := by
  induction as generalizing s with
  | nil => rfl
  | cons a as ih =>
    rw [List.cons_append, visit, visit]
    cases h : (func s a).2 with
    | true => exact ih _
    | false => rfl

theorem visit_map (func : σ → β → σ × Bool) (g : γ → β) (s : σ) (cs : List γ) :
    visit func s (cs.map g) = visit (fun s c => func s (g c)) s cs := by
  induction cs generalizing s with
  | nil => rfl
  | cons c cs ih =>
    rw [List.map_cons, visit, visit, ih]

/-- Elements the callback passes over may as well be left out. -/
theorem visit_filterMap (func : σ → β → σ × Bool) (g : γ → Option β) (s : σ) (cs : List γ) :
    visit func s (cs.filterMap g) = visit (fun s c => (g c).elim (s, true) (func s)) s cs := by
  induction cs generalizing s with
  | nil => rfl
  | cons c cs ih =>
    rw [List.filterMap_cons, visit]
    cases h : g c with
    | none => exact ih s
    | some b =>
      dsimp only
      rw [visit, ih]
      rfl

/-- **A search.** The callback stops at the elements that answer: the loop ends at the first answer,
with what the callback makes of it, or runs through. -/
theorem visit_findSome? {func : σ → β → σ × Bool} {answer : β → Option γ} {Q : σ → Prop}
    {P : γ → σ → Prop} {bs : List β}
    (hnone : ∀ b ∈ bs, ∀ s, Q s → answer b = none → (func s b).2 = true ∧ Q (func s b).1)
    (hsome : ∀ b ∈ bs, ∀ s c, Q s → answer b = some c → (func s b).2 = false ∧ P c (func s b).1)
    {s : σ} (hs : Q s) :
    (bs.findSome? answer = none → Q (visit func s bs).1) ∧
      ∀ c, bs.findSome? answer = some c → P c (visit func s bs).1 := by
  induction bs generalizing s with
  | nil => exact ⟨fun _ => hs, by rintro c ⟨⟩⟩
  | cons b bs ih =>
    rw [List.findSome?_cons, visit]
    cases hb : answer b with
    | some c =>
      obtain ⟨hstop, hP⟩ := hsome b List.mem_cons_self s c hs hb
      rw [hstop]
      refine ⟨by rintro ⟨⟩, ?_⟩
      rintro c' ⟨⟩
      exact hP
    | none =>
      obtain ⟨hgo, hQ⟩ := hnone b List.mem_cons_self s hs hb
      rw [hgo]
      exact ih (fun b hb => hnone b (List.mem_cons_of_mem _ hb))
        (fun b hb => hsome b (List.mem_cons_of_mem _ hb)) hQ

/-- **Two searches.** The callbacks stop alike; while they go on they keep `R`, and in the end `T`. -/
theorem visit_rel {func : σ → β → σ × Bool} {func' : τ → β → τ × Bool} {R T : σ → τ → Prop} {bs : List β}
    (hRT : ∀ s t, R s t → T s t)
    (hstep : ∀ b ∈ bs, ∀ s t, R s t → (func s b).2 = (func' t b).2 ∧ T (func s b).1 (func' t b).1 ∧
      ((func' t b).2 = true → R (func s b).1 (func' t b).1))
    {s : σ} {t : τ} (h : R s t) : T (visit func s bs).1 (visit func' t bs).1 := by
  induction bs generalizing s t with
  | nil => exact hRT s t h
  | cons b bs ih =>
    obtain ⟨hgo, hT, hR⟩ := hstep b List.mem_cons_self s t h
    rw [visit, visit, hgo]
    cases hb : (func' t b).2 with
    | true => exact ih (fun b hb => hstep b (List.mem_cons_of_mem _ hb)) (hR hb)
    | false => exact hT

/-- **In lockstep.** The callbacks stop alike and keep `R` always, so the loops end alike. -/
theorem visit_lockstep {func : σ → β → σ × Bool} {func' : τ → β → τ × Bool} {R : σ → τ → Prop} {bs : List β}
    (hstep : ∀ b ∈ bs, ∀ s t, R s t → (func s b).2 = (func' t b).2 ∧ R (func s b).1 (func' t b).1)
    {s : σ} {t : τ} (h : R s t) :
    (visit func s bs).2 = (visit func' t bs).2 ∧ R (visit func s bs).1 (visit func' t bs).1 := by
  induction bs generalizing s t with
  | nil => exact ⟨rfl, h⟩
  | cons b bs ih =>
    obtain ⟨hgo, hR⟩ := hstep b List.mem_cons_self s t h
    rw [visit, visit, hgo]
    cases hb : (func' t b).2 with
    | true => exact ih (fun b hb => hstep b (List.mem_cons_of_mem _ hb)) hR
    | false => exact ⟨rfl, hR⟩

/-- **What a search has been through.** It is the start of the list, and an invariant of the visited part holds. -/
theorem visit_visited (func : σ → β → σ × Bool) (bs : List β) {I : List β → σ → Prop}
    (hstep : ∀ as b, as ++ [b] <+: bs → ∀ s, I as s → I (as ++ [b]) (func s b).1) {s : σ} (h : I [] s) :
    ∃ as, as <+: bs ∧ I as (visit func s bs).1 := by
  induction bs generalizing s I with
  | nil => exact ⟨[], List.prefix_rfl, h⟩
  | cons b bs ih =>
    have hb : I [b] (func s b).1 := hstep [] b ⟨bs, rfl⟩ s h
    rw [visit]
    cases (func s b).2 with
    | false => exact ⟨[b], ⟨bs, rfl⟩, hb⟩
    | true =>
      obtain ⟨as, has, hI⟩ := ih (I := fun as s => I (b :: as) s)
        (fun as c hinit s hs => hstep (b :: as) c (List.prefix_cons_inj b |>.2 hinit) s hs) hb
      exact ⟨b :: as, List.prefix_cons_inj b |>.2 has, hI⟩

/-- What a search has asked when it ends: those without an answer before the first answer, and that one. -/
theorem visit_collect (answer : β → Option γ) (log bs : List β) :
    (visit (fun log b => (log ++ [b], (answer b).isNone)) log bs).1 =
      log ++ (bs.takeWhile (fun b => (answer b).isNone) ++ (bs.find? fun b => (answer b).isSome).toList) := by
  induction bs generalizing log with
  | nil => simp [visit]
  | cons b bs ih =>
    rw [visit]
    cases h : answer b with
    | none => simp [h, ih]
    | some c => simp [h]

/-- A callback that collects. -/
theorem visit_filter (p : β → Prop) [DecidablePred p] (as bs : List β) :
    visit (fun as b => (if p b then as ++ [b] else as, true)) as bs = (as ++ bs.filter p, true) := by
  induction bs generalizing as with
  | nil => simp [visit]
  | cons b bs ih =>
    rw [visit, if_pos rfl, ih]
    by_cases hb : p b <;> simp [hb]

/-- The loop with an index of 32 bits, from there on; `none` when it is still running after so many rounds. -/
def visitWords (func : σ → β → σ × Bool) (bs : List β) : Nat → UInt32 → σ → Option (σ × Bool)
  | 0, _, _ => none
  | rounds + 1, i, s =>
    match bs[i.toNat]? with
    | none => some (s, true)
    | some b =>
      if (func s b).2 then visitWords func bs rounds (i + 1) (func s b).1 else some ((func s b).1, false)

@[simp] theorem visitWords_nil (func : σ → β → σ × Bool) (rounds : Nat) (i : UInt32) (s : σ) :
    visitWords func [] (rounds + 1) i s = some (s, true) := by
  rw [visitWords, List.getElem?_nil]

/-- The index counts as far as it has to. -/
theorem visitWords_eq (func : σ → β → σ × Bool) {bs : List β} (hbs : bs.length < 2 ^ 32) {rounds : Nat} {i : UInt32}
    (hrounds : bs.length - i.toNat < rounds) (s : σ) :
    visitWords func bs rounds i s = some (visit func s (bs.drop i.toNat)) := by
  induction rounds generalizing i s with
  | zero => omega
  | succ rounds ih =>
    rw [visitWords]
    cases hget : bs[i.toNat]? with
    | none =>
      rw [List.drop_eq_nil_of_le (List.getElem?_eq_none_iff.1 hget)]
      rfl
    | some b =>
      obtain ⟨hlt, hb⟩ := List.getElem?_eq_some_iff.1 hget
      have hnext : (i + 1).toNat = i.toNat + 1 := by
        rw [UInt32.toNat_add, UInt32.toNat_one]
        omega
      dsimp only
      rw [List.drop_eq_getElem_cons hlt, hb, visit]
      cases (func s b).2 with
      | true =>
        have hrest := ih (i := i + 1) (by omega) (func s b).1
        rwa [hnext] at hrest
      | false => rfl

theorem find?_of_findSome? {answer : β → Option γ} {bs : List β} {c : γ} (h : bs.findSome? answer = some c) :
    ∃ b, bs.find? (fun b => (answer b).isSome) = some b ∧ answer b = some c := by
  induction bs with
  | nil => simp at h
  | cons b bs ih =>
    rw [List.findSome?_cons] at h
    cases hb : answer b with
    | none =>
      rw [hb] at h
      simpa [hb] using ih h
    | some c' =>
      rw [hb] at h
      exact ⟨b, by simp [hb], hb.trans h⟩

end Visit

/-! ## Newest-first sources -/

section Sources
variable {κ ν : Type} [LinearOrder κ]

/-- Strictly before, or the same entry. -/
def Before (x y : κ × ν) : Prop := x.1 < y.1 ∨ x = y

theorem Before.trans {x y z : κ × ν} (h : Before x y) (h' : Before y z) : Before x z := by
  rcases h with h | rfl
  · rcases h' with h' | rfl
    · exact Or.inl (lt_trans h h')
    · exact Or.inl h
  · exact h'

/-- In a sorted list nothing that satisfies `p` comes before the first such entry. -/
theorem Sorted.find?_le {L : List (κ × ν)} (hL : Sorted L) {p : κ × ν → Bool} {x y : κ × ν}
    (h : L.find? p = some x) (hy : y ∈ L) (hpy : p y = true) : x.1 ≤ y.1 := by
  obtain ⟨-, as, bs, rfl, has⟩ := List.find?_eq_some_iff_append.1 h
  rw [sorted_append] at hL
  rcases List.mem_append.1 hy with hy | hy
  · have := has y hy
    simp [hpy] at this
  · rcases List.mem_cons.1 hy with rfl | hy
    · exact le_refl _
    · exact (List.pairwise_cons.1 hL.2.1).1 y hy

theorem find?_before {L : List (κ × ν)} (hL : L.Pairwise fun x y => x.1 < y.1) {p : κ × ν → Bool}
    {x y : κ × ν} (h : L.find? p = some x) (hy : y ∈ L) (hpy : p y = true) : Before x y := by
  obtain ⟨-, as, bs, rfl, has⟩ := List.find?_eq_some_iff_append.1 h
  rcases List.mem_append.1 hy with hy | hy
  · have := has y hy
    simp [hpy] at this
  · rcases List.mem_cons.1 hy with rfl | hy
    · exact Or.inr rfl
    · exact Or.inl ((List.pairwise_cons.1 (List.pairwise_append.1 hL).2.1).1 y hy)

/-- An entry before all others that satisfy `p` is the one the merge has first. -/
theorem find?_mergeAll_of_before {Ls : List (List (κ × ν))} {p : κ × ν → Bool} {d : κ × ν}
    (hd : ∃ L ∈ Ls, d ∈ L) (hp : p d = true) (hbefore : ∀ L ∈ Ls, ∀ y ∈ L, p y = true → Before d y) :
    (mergeAll Ls).find? p = some d := by
  have hmem := mem_mergeAll.2 hd
  obtain ⟨r, hr⟩ := Option.isSome_iff_exists.1 (List.find?_isSome.2 ⟨d, hmem, hp⟩)
  obtain ⟨L, hL, hrL⟩ := mem_mergeAll.1 (List.mem_of_find?_eq_some hr)
  have hle : r.1 ≤ d.1 := (mergeAll_sorted Ls).find?_le hr hmem hp
  rcases hbefore L hL r hrL (List.find?_some hr) with hlt | heq
  · exact absurd hlt (not_lt.2 hle)
  · rw [hr, heq]

/-- **The first source that answers.** Let the sources hold entries of the lists, every earlier source
the smaller ones among those that satisfy `p`, and let no such entry of the lists come before all that
the sources have. Then the first source with such an entry has the one that is first in the merge. -/
theorem find?_mergeAll {Ls Ss : List (List (κ × ν))} {p : κ × ν → Bool}
    (hsub : ∀ S ∈ Ss, ∀ x ∈ S, ∃ L ∈ Ls, x ∈ L)
    (hcover : ∀ L ∈ Ls, ∀ x ∈ L, p x = true → ∃ S ∈ Ss, ∃ y ∈ S, p y = true ∧ Before y x)
    (hsorted : ∀ S ∈ Ss, S.Pairwise fun x y => x.1 < y.1)
    (hordered : Ss.Pairwise fun S T => ∀ x ∈ S, ∀ y ∈ T, p x = true → p y = true → Before x y) :
    (mergeAll Ls).find? p = Ss.findSome? (List.find? p) := by
  cases hfirst : Ss.findSome? (List.find? p) with
  | none =>
    rw [List.find?_eq_none]
    intro x hx hpx
    obtain ⟨L, hL, hxL⟩ := mem_mergeAll.1 hx
    obtain ⟨S, hS, y, hyS, hpy, -⟩ := hcover L hL x hxL hpx
    exact List.find?_eq_none.1 (List.findSome?_eq_none_iff.1 hfirst S hS) y hyS hpy
  | some d =>
    obtain ⟨as, S, bs, rfl, hd, has⟩ := List.findSome?_eq_some_iff.1 hfirst
    have hdS := List.mem_of_find?_eq_some hd
    have hpd := List.find?_some hd
    refine find?_mergeAll_of_before (hsub S (by simp) d hdS) hpd fun L hL x hx hpx => ?_
    obtain ⟨T, hT, y, hyT, hpy, hyx⟩ := hcover L hL x hx hpx
    refine Before.trans ?_ hyx
    rcases List.mem_append.1 hT with hT | hT
    · -- no earlier source answers
      exact absurd hpy (List.find?_eq_none.1 (has T hT) y hyT)
    · rcases List.mem_cons.1 hT with rfl | hT
      · exact find?_before (hsorted T (by simp)) hd hyT hpy
      · have hlater := (List.pairwise_cons.1 (List.pairwise_append.1 hordered).2.1).1 T hT
        exact hlater d hdS y hyT hpd hpy

end Sources

end Cursors
