import Mathlib.Data.Set.Lattice
import Mathlib.Data.Nat.Find

/-!
# Many versions of a map

A multi-version store keeps, of each key, several writes with the times they were made. A reader at time `s` sees of a
key the newest write not after `s` (`view`). Two things may happen to a store without its readers noticing: writes that
none of them can see yet come in (`view_union_later`), and writes that no reader from a time `s₀` on can miss go
(`Thinned.view_eq`). What the readers see in the end is the map one gets by doing the writes one after the other
(`view_union_stamp`).
-/

namespace Versions

variable {κ ν : Type}

/-- A write; `none` deletes the key. -/
structure Stamped (κ ν : Type) where
  key : κ
  stamp : Nat
  value : Option ν

/-- A write of `k` a reader at `s` may see. -/
def Stamped.VisibleAt (s : Nat) (k : κ) (x : Stamped κ ν) : Prop := x.key = k ∧ x.stamp ≤ s

/-- The newest of them. -/
structure Newest (E : Set (Stamped κ ν)) (s : Nat) (k : κ) (x : Stamped κ ν) : Prop where
  mem : x ∈ E
  visible : x.VisibleAt s k
  newest : ∀ y ∈ E, y.VisibleAt s k → y.stamp ≤ x.stamp

/-- No two writes of a key at one time. -/
def StampsUnique (E : Set (Stamped κ ν)) : Prop := ∀ x ∈ E, ∀ y ∈ E, x.key = y.key → x.stamp = y.stamp → x = y

open Classical in
/-- What a reader at `s` sees of `k`. -/
noncomputable def view (E : Set (Stamped κ ν)) (s : Nat) (k : κ) : Option ν :=
  if h : ∃ x, Newest E s k x then h.choose.value else none

section View
variable {E F N : Set (Stamped κ ν)} {s : Nat} {k : κ}

theorem exists_newest {y : Stamped κ ν} (hy : y ∈ E) (hvisible : y.VisibleAt s k) : ∃ x, Newest E s k x := by
  classical
  let P : Nat → Prop := fun n => ∃ x ∈ E, x.VisibleAt s k ∧ x.stamp = n
  have hP : P (Nat.findGreatest P s) := Nat.findGreatest_spec hvisible.2 ⟨y, hy, hvisible, rfl⟩
  obtain ⟨x, hx, hxv, hxs⟩ := hP
  refine ⟨x, hx, hxv, fun z hz hzv => ?_⟩
  rw [hxs]
  exact Nat.le_findGreatest hzv.2 ⟨z, hz, hzv, rfl⟩

theorem StampsUnique.newest_eq (h : StampsUnique E) {x y : Stamped κ ν} (hx : Newest E s k x)
    (hy : Newest E s k y) : x = y :=
  h x hx.mem y hy.mem (hx.visible.1.trans hy.visible.1.symm)
    (Nat.le_antisymm (hy.newest x hx.mem hx.visible) (hx.newest y hy.mem hy.visible))

theorem StampsUnique.mono (h : StampsUnique E) (hsub : F ⊆ E) :
    StampsUnique F := fun x hx y hy => h x (hsub hx) y (hsub hy)

theorem StampsUnique.view_eq (h : StampsUnique E) {x : Stamped κ ν} (hx : Newest E s k x) : view E s k = x.value := by
  have hex : ∃ x, Newest E s k x := ⟨x, hx⟩
  rw [view, dif_pos hex, h.newest_eq hex.choose_spec hx]

theorem view_eq_none (h : ∀ x ∈ E, ¬ x.VisibleAt s k) : view E s k = none := by
  rw [view, dif_neg]
  rintro ⟨x, hx⟩
  exact h x hx.mem hx.visible

@[simp] theorem view_empty : view (∅ : Set (Stamped κ ν)) s k = none := view_eq_none fun _ hx => hx.elim

/-- Only what the reader may see matters. -/
theorem view_congr (h : ∀ x, x.VisibleAt s k → (x ∈ E ↔ x ∈ F)) : view E s k = view F s k := by
  have hsame : ∀ x, Newest E s k x ↔ Newest F s k x := by
    intro x
    constructor
    · intro hx
      exact ⟨(h x hx.visible).1 hx.mem, hx.visible, fun y hy hyv => hx.newest y ((h y hyv).2 hy) hyv⟩
    · intro hx
      exact ⟨(h x hx.visible).2 hx.mem, hx.visible, fun y hy hyv => hx.newest y ((h y hyv).1 hy) hyv⟩
  have heq : Newest E s k = Newest F s k := funext fun x => propext (hsame x)
  rw [view, view, heq]

/-- Writes the reader may not see add nothing. -/
theorem view_union_invisible (h : ∀ y ∈ N, ¬ y.VisibleAt s k) : view (E ∪ N) s k = view E s k := by
  refine view_congr fun x hx => ⟨?_, Or.inl⟩
  rintro (hxE | hxN)
  · exact hxE
  · exact absurd hx (h x hxN)

/-- Writes after `s`, in particular. -/
theorem view_union_later (h : ∀ y ∈ N, s < y.stamp) : view (E ∪ N) s k = view E s k :=
  view_union_invisible fun y hy hyv => absurd hyv.2 (not_le.2 (h y hy))

/-- A later reader sees no more, if there is no more to see. -/
theorem view_eq_of_le {n : Nat} (hn : ∀ x ∈ E, x.stamp ≤ n) (hs : n ≤ s) : view E s k = view E n k := by
  have hsame : ∀ x, Newest E s k x ↔ Newest E n k x := by
    intro x
    constructor
    · intro hx
      exact ⟨hx.mem, ⟨hx.visible.1, hn x hx.mem⟩, fun y hy hyv => hx.newest y hy ⟨hyv.1, hyv.2.trans hs⟩⟩
    · intro hx
      exact ⟨hx.mem, ⟨hx.visible.1, hx.visible.2.trans hs⟩, fun y hy hyv => hx.newest y hy ⟨hyv.1, hn y hy⟩⟩
  have heq : Newest E s k = Newest E n k := funext fun x => propext (hsame x)
  rw [view, view, heq]

/-- Of writes newer than all others, the newest one the reader may see counts, if there is one. -/
theorem Newest.union_newer {x : Stamped κ ν} (hx : Newest N s k x) (h : ∀ x ∈ E, ∀ y ∈ N, x.stamp < y.stamp) :
    Newest (E ∪ N) s k x := by
  refine ⟨Or.inr hx.mem, hx.visible, ?_⟩
  rintro y (hy | hy) hyv
  · exact (h y hy x hx.mem).le
  · exact hx.newest y hy hyv

theorem StampsUnique.union_newer (hE : StampsUnique E) (hN : StampsUnique N)
    (h : ∀ x ∈ E, ∀ y ∈ N, x.stamp < y.stamp) :
    StampsUnique (E ∪ N) := by
  rintro x (hx | hx) y (hy | hy) hkey hstamp
  · exact hE x hx y hy hkey hstamp
  · exact absurd hstamp (h x hx y hy).ne
  · exact absurd hstamp (h y hy x hx).ne'
  · exact hN x hx y hy hkey hstamp

/-! ## Thinning a store out -/

/-- What has gone is either behind a newer write that all readers from `s₀` on see, or a deletion with nothing left to
delete. -/
structure Thinned (s₀ : Nat) (E F : Set (Stamped κ ν)) : Prop where
  subset : F ⊆ E
  gone : ∀ x ∈ E, x ∉ F →
    (∃ y ∈ E, y.key = x.key ∧ x.stamp < y.stamp ∧ y.stamp ≤ s₀) ∨
      (x.value = none ∧ ∀ y ∈ F, y.key = x.key → x.stamp < y.stamp)

/-- **No reader from `s₀` on notices.** -/
theorem Thinned.view_eq {s₀ : Nat} (h : Thinned s₀ E F) (hE : StampsUnique E) (hs : s₀ ≤ s) :
    view F s k = view E s k := by
  by_cases hv : ∃ x ∈ E, x.VisibleAt s k
  · obtain ⟨y, hy, hyv⟩ := hv
    obtain ⟨x, hx⟩ := exists_newest hy hyv
    by_cases hxF : x ∈ F
    · have hxF' : Newest F s k x := ⟨hxF, hx.visible, fun z hz => hx.newest z (h.subset hz)⟩
      rw [hE.view_eq hx, (hE.mono h.subset).view_eq hxF']
    · rcases h.gone x hx.mem hxF with ⟨z, hz, hkey, hlt, hle⟩ | ⟨hvalue, hafter⟩
      · -- a newer one would have been the newest
        have hle' := hx.newest z hz ⟨hkey.trans hx.visible.1, hle.trans hs⟩
        omega
      · rw [hE.view_eq hx, hvalue]
        refine view_eq_none fun z hz hzv => ?_
        have hlt := hafter z hz (hzv.1.trans hx.visible.1.symm)
        have hle := hx.newest z (h.subset hz) hzv
        omega
  · rw [view_eq_none fun x hx hxv => hv ⟨x, hx, hxv⟩, view_eq_none fun x hx hxv => hv ⟨x, h.subset hx, hxv⟩]

end View

/-! ## Writes one after the other -/

section Writes
variable [DecidableEq κ]

/-- One write. -/
def put (m : κ → Option ν) (w : κ × Option ν) : κ → Option ν := Function.update m w.1 w.2

/-- A batch of them. -/
def putAll (m : κ → Option ν) (ws : List (κ × Option ν)) : κ → Option ν := ws.foldl put m

/-- The writes of a batch, from this time on. -/
def stamp : Nat → List (κ × Option ν) → List (Stamped κ ν)
  | _, [] => []
  | n, (k, v) :: ws => ⟨k, n, v⟩ :: stamp (n + 1) ws

omit [DecidableEq κ] in
theorem stamp_bounds {n : Nat} {ws : List (κ × Option ν)} {x : Stamped κ ν} (hx : x ∈ stamp n ws) :
    n ≤ x.stamp ∧ x.stamp < n + ws.length := by
  induction ws generalizing n with
  | nil => simp [stamp] at hx
  | cons w ws ih =>
    simp only [stamp, List.mem_cons] at hx
    rcases hx with rfl | hx
    · simp
    · have := ih hx
      simp only [List.length_cons]
      omega

omit [DecidableEq κ] in
theorem stamp_unique (n : Nat) (ws : List (κ × Option ν)) : StampsUnique {x | x ∈ stamp n ws} := by
  induction ws generalizing n with
  | nil => intro x hx; simp [stamp] at hx
  | cons w ws ih =>
    intro x hx y hy hkey hstamp
    simp only [stamp, Set.mem_ofPred_eq, List.mem_cons] at hx hy
    rcases hx with rfl | hx
    · rcases hy with rfl | hy
      · rfl
      · have := (stamp_bounds hy).1
        dsimp only at hstamp
        omega
    · rcases hy with rfl | hy
      · have := (stamp_bounds hx).1
        dsimp only at hstamp
        omega
      · exact ih (n + 1) x hx y hy hkey hstamp

/-- **A batch.** After it, a reader sees the map the writes lead to. -/
theorem view_union_stamp {E : Set (Stamped κ ν)} (hE : StampsUnique E) {n : Nat} (hn : ∀ x ∈ E, x.stamp ≤ n)
    (ws : List (κ × Option ν)) (k : κ) :
    view (E ∪ {x | x ∈ stamp (n + 1) ws}) (n + ws.length) k = putAll (view E n) ws k := by
  induction ws generalizing E n with
  | nil => simp [stamp, putAll]
  | cons w ws ih =>
    obtain ⟨k', v⟩ := w
    -- the first write, then the rest
    have hsplit : E ∪ {x | x ∈ stamp (n + 1) ((k', v) :: ws)} =
        (E ∪ {⟨k', n + 1, v⟩}) ∪ {x | x ∈ stamp (n + 1 + 1) ws} := by
      ext x
      simp only [stamp, Set.mem_union, Set.mem_ofPred_eq, List.mem_cons, Set.mem_singleton_iff]
      tauto
    have hlt : ∀ x ∈ E, ∀ y ∈ ({⟨k', n + 1, v⟩} : Set (Stamped κ ν)), x.stamp < y.stamp := by
      rintro x hx y rfl
      exact Nat.lt_succ_of_le (hn x hx)
    have hunique : StampsUnique (E ∪ {⟨k', n + 1, v⟩}) := by
      refine hE.union_newer ?_ hlt
      rintro x rfl y rfl - -
      rfl
    have hbound : ∀ x ∈ E ∪ {⟨k', n + 1, v⟩}, x.stamp ≤ n + 1 := by
      rintro x (hx | rfl)
      · exact (hn x hx).trans (Nat.le_succ n)
      · exact le_refl _
    have hfirst : view (E ∪ {⟨k', n + 1, v⟩}) (n + 1) = put (view E n) (k', v) := by
      funext j
      by_cases hj : j = k'
      · subst hj
        have hnewest : Newest (E ∪ {⟨j, n + 1, v⟩}) (n + 1) j ⟨j, n + 1, v⟩ :=
          ⟨Or.inr rfl, ⟨rfl, le_refl _⟩, fun y hy _ => hbound y hy⟩
        rw [hunique.view_eq hnewest, put, Function.update_self]
      · rw [put, Function.update_of_ne hj]
        refine (view_congr fun x hx => ⟨?_, Or.inl⟩).trans (view_eq_of_le hn (Nat.le_succ n))
        rintro (hxE | rfl)
        · exact hxE
        · exact absurd hx.1.symm hj
    rw [hsplit, List.length_cons, Nat.add_comm ws.length 1, ← Nat.add_assoc, ih hunique hbound, hfirst]
    rfl

/-! ## All of a store -/

/-- Who sees all of the store sees this map. -/
def Shows (E : Set (Stamped κ ν)) (m : κ → Option ν) : Prop := ∀ s, (∀ x ∈ E, x.stamp ≤ s) → view E s = m

section Shows
variable {E F : Set (Stamped κ ν)} {m : κ → Option ν} {n : Nat}

omit [DecidableEq κ] in
/-- It is enough that one does. -/
theorem shows_of_view (hn : ∀ x ∈ E, x.stamp ≤ n) (h : view E n = m) : Shows E m := by
  intro s hs
  funext k
  rw [← h, ← view_eq_of_le hs (le_max_left s n), view_eq_of_le hn (le_max_right s n)]

omit [DecidableEq κ] in
@[simp] theorem shows_empty : Shows (∅ : Set (Stamped κ ν)) fun _ => none := by
  intro s _
  funext k
  exact view_empty

/-- A batch comes in. -/
theorem Shows.union_stamp (h : Shows E m) (hE : StampsUnique E) (hn : ∀ x ∈ E, x.stamp ≤ n)
    (ws : List (κ × Option ν)) : Shows (E ∪ {x | x ∈ stamp (n + 1) ws}) (putAll m ws) := by
  refine shows_of_view (n := n + ws.length) ?_ ?_
  · rintro x (hx | hx)
    · exact (hn x hx).trans (Nat.le_add_right _ _)
    · have hlt := (stamp_bounds hx).2
      omega
  · funext k
    rw [view_union_stamp hE hn ws k, h n hn]

omit [DecidableEq κ] in
/-- Thinning it out leaves the map as it is. -/
theorem Shows.thinned (h : Shows E m) (hE : StampsUnique E) (hn : ∀ x ∈ E, x.stamp ≤ n) {s₀ : Nat}
    (hthinned : Thinned s₀ E F) : Shows F m := by
  have hmax : ∀ x ∈ E, x.stamp ≤ max n s₀ := fun x hx => (hn x hx).trans (le_max_left _ _)
  refine shows_of_view (fun x hx => hmax x (hthinned.subset hx)) ?_
  funext k
  rw [hthinned.view_eq hE (le_max_right _ _), h _ hmax]

end Shows

end Writes

end Versions
