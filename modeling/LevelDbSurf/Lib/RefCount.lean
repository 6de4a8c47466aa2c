import Mathlib.Data.List.Nodup
import Mathlib.Data.List.Perm.Basic

/-!
# Reference counts

A pool of objects, each with the number of references to it; the one whose count falls to zero is freed. A reference is
a pair of the object's name and what it was when the reference was taken, so `Counted pool holders` says two things: the
counts are right, and no reference dangles or has had its object changed.
-/

namespace RefCount

/-- An object that is not freed. -/
structure Object (β : Type) where
  id : Nat
  value : β
  refs : Nat

/-- A pointer, with what it points to. -/
abbrev Reference (β : Type) := Nat × β

variable {β : Type}

/-- `++refs`. -/
def ref (id : Nat) (pool : List (Object β)) : List (Object β) :=
  pool.map fun o => if o.id = id then { o with refs := o.refs + 1 } else o

/-- `--refs`, and the object is freed at zero. -/
def unref (id : Nat) (pool : List (Object β)) : List (Object β) :=
  pool.filterMap fun o =>
    if o.id = id then
      if o.refs - 1 = 0 then none else some { o with refs := o.refs - 1 }
    else some o

theorem mem_ref {id : Nat} {pool : List (Object β)} {o : Object β} :
    o ∈ ref id pool ↔ ∃ p ∈ pool, o = if p.id = id then { p with refs := p.refs + 1 } else p := by
  simp [ref, eq_comm]

theorem mem_unref {id : Nat} {pool : List (Object β)} {o : Object β} : o ∈ unref id pool ↔
    (o ∈ pool ∧ o.id ≠ id) ∨ ∃ p ∈ pool, p.id = id ∧ p.refs - 1 ≠ 0 ∧ o = { p with refs := p.refs - 1 } := by
  unfold unref
  rw [List.mem_filterMap]
  constructor
  · rintro ⟨p, hp, ho⟩
    by_cases hid : p.id = id
    · by_cases hlast : p.refs - 1 = 0
      · simp [hid, hlast] at ho
      · rw [if_pos hid, if_neg hlast, Option.some.injEq] at ho
        exact .inr ⟨p, hp, hid, hlast, ho.symm⟩
    · simp only [hid, if_false, Option.some.injEq] at ho
      subst ho
      exact .inl ⟨hp, hid⟩
  · rintro (⟨ho, hid⟩ | ⟨p, hp, hid, hlast, rfl⟩)
    · exact ⟨o, ho, by simp [hid]⟩
    · exact ⟨p, hp, by simp [hid, hlast]⟩

/-- `unref` brings in nothing. -/
theorem exists_of_mem_unref {id : Nat} {pool : List (Object β)} {o : Object β} (h : o ∈ unref id pool) :
    ∃ p ∈ pool, p.id = o.id ∧ p.value = o.value := by
  rcases mem_unref.1 h with ⟨h, -⟩ | ⟨p, hp, -, -, rfl⟩
  · exact ⟨o, h, rfl, rfl⟩
  · exact ⟨p, hp, rfl, rfl⟩

@[simp] theorem map_id_ref (id : Nat) (pool : List (Object β)) : (ref id pool).map (·.id) = pool.map (·.id) := by
  unfold ref
  rw [List.map_map]
  refine List.map_congr_left fun o _ => ?_
  by_cases hid : o.id = id <;> simp [hid]

theorem map_id_unref (id : Nat) (pool : List (Object β)) :
    ((unref id pool).map (·.id)).Sublist (pool.map (·.id)) := by
  induction pool with
  | nil => simp [unref]
  | cons o pool ih =>
    unfold unref at ih ⊢
    rw [List.filterMap_cons]
    by_cases hid : o.id = id
    · by_cases hlast : o.refs - 1 = 0
      · simpa [hid, hlast] using ih.cons o.id
      · simpa [hid, hlast] using ih.cons_cons o.id
    · simpa [hid] using ih.cons_cons o.id

/-! ## Counted references -/

/-- Every count is the number of references, and no reference dangles. -/
structure Counted (pool : List (Object β)) (holders : List (Reference β)) : Prop where
  distinct : (pool.map (·.id)).Nodup
  refs : ∀ o ∈ pool, o.refs = (holders.map (·.1)).count o.id
  held : ∀ h ∈ holders, ∃ o ∈ pool, o.id = h.1 ∧ o.value = h.2

variable {pool : List (Object β)} {holders holders' : List (Reference β)} {id : Nat} {value : β}

theorem Counted.perm (h : Counted pool holders) (hperm : holders'.Perm holders) : Counted pool holders' :=
  ⟨h.distinct, fun o ho => by rw [h.refs o ho, (hperm.map _).count_eq], fun r hr => h.held r (hperm.mem_iff.1 hr)⟩

/-- One more reference to an object some reference has. -/
theorem Counted.ref (h : Counted pool holders) (hheld : (id, value) ∈ holders) :
    Counted (ref id pool) ((id, value) :: holders) := by
  refine ⟨by rw [map_id_ref]; exact h.distinct, ?_, ?_⟩
  · intro o ho
    obtain ⟨p, hp, rfl⟩ := mem_ref.1 ho
    by_cases hid : p.id = id
    · have hrefs := h.refs p hp
      rw [hid] at hrefs
      simp [hid, hrefs]
    · simp [hid, h.refs p hp, Ne.symm hid]
  · have hkept : ∀ r ∈ holders, ∃ o ∈ RefCount.ref id pool, o.id = r.1 ∧ o.value = r.2 := fun r hr => by
      obtain ⟨p, hp, hpid, hvalue⟩ := h.held r hr
      refine ⟨_, mem_ref.2 ⟨p, hp, rfl⟩, ?_⟩
      split <;> exact ⟨hpid, hvalue⟩
    intro r hr
    rcases List.mem_cons.1 hr with rfl | hr
    · exact hkept _ hheld
    · exact hkept r hr

/-- A reference is given up; the object is freed with its last one. -/
theorem Counted.unref (h : Counted pool ((id, value) :: holders)) : Counted (unref id pool) holders := by
  refine ⟨h.distinct.sublist (map_id_unref id pool), ?_, ?_⟩
  · intro o ho
    rcases mem_unref.1 ho with ⟨ho, hid⟩ | ⟨p, hp, hid, -, rfl⟩
    · rw [h.refs o ho]
      simp [Ne.symm hid]
    · have hrefs := h.refs p hp
      simp only [List.map_cons, hid, List.count_cons_self] at hrefs ⊢
      omega
  · intro r hr
    obtain ⟨p, hp, hpid, hvalue⟩ := h.held r (List.mem_cons_of_mem _ hr)
    by_cases hid : p.id = id
    · -- it has the one given up and this one
      have hrefs := h.refs p hp
      have hpos : 0 < (holders.map (·.1)).count id := by
        refine List.count_pos_iff.2 (List.mem_map.2 ⟨r, hr, ?_⟩)
        rw [← hpid, hid]
      simp only [List.map_cons, hid, List.count_cons_self] at hrefs
      exact ⟨_, mem_unref.2 (.inr ⟨p, hp, hid, by omega, rfl⟩), hpid, hvalue⟩
    · exact ⟨p, mem_unref.2 (.inl ⟨hp, hid⟩), hpid, hvalue⟩

/-- A new object, with one reference. -/
theorem Counted.push (h : Counted pool holders) (hnew : ∀ o ∈ pool, o.id ≠ id) :
    Counted (pool ++ [{ id, value, refs := 1 }]) ((id, value) :: holders) := by
  have hnone : (holders.map (·.1)).count id = 0 := by
    refine List.count_eq_zero.2 fun hmem => ?_
    obtain ⟨r, hr, rfl⟩ := List.mem_map.1 hmem
    obtain ⟨o, ho, hid, -⟩ := h.held r hr
    exact hnew o ho hid
  refine ⟨?_, ?_, ?_⟩
  · rw [List.map_append, List.nodup_append]
    refine ⟨h.distinct, List.nodup_singleton id, ?_⟩
    rintro i hi j hj rfl
    obtain ⟨o, ho, rfl⟩ := List.mem_map.1 hi
    exact hnew o ho (List.mem_singleton.1 hj)
  · intro o ho
    rcases List.mem_append.1 ho with ho | ho
    · simp [h.refs o ho, Ne.symm (hnew o ho)]
    · obtain rfl := List.mem_singleton.1 ho
      simp [hnone]
  · intro r hr
    rcases List.mem_cons.1 hr with rfl | hr
    · exact ⟨_, List.mem_append_right _ (List.mem_singleton_self _), rfl, rfl⟩
    · obtain ⟨o, ho, hrest⟩ := h.held r hr
      exact ⟨o, List.mem_append_left _ ho, hrest⟩

end RefCount
