import Mathlib.Data.List.Nodup
import Mathlib.Data.List.Perm.Basic
import Mathlib.Data.List.Range

/-!
# Things lent, and given back once

A lender lends things numbered in the order they go out, and takes each back once: giving back one that is not out is
undefined. `Lent lender holders` says that what is out is what the holders have, one holder each. So a thing is given
back at most once, and all have been when nobody holds one.
-/

namespace Lending

/-- How many things have been lent, and which have come back, in order. -/
structure Lender where
  lent : Nat := 0
  returned : List Nat := []

namespace Lender

/-- The next thing to go out. -/
def next (l : Lender) : Nat := l.lent

/-- It goes out. -/
def lend (l : Lender) : Lender := { l with lent := l.lent + 1 }

def isOut (l : Lender) (x : Nat) : Bool := decide (x < l.lent) && !l.returned.contains x

/-- `x` comes back; undefined if it is not out. -/
def takeBack (l : Lender) (x : Nat) : Option Lender :=
  if l.isOut x then some { l with returned := l.returned ++ [x] } else none

/-- What is out. -/
def out (l : Lender) : List Nat := (List.range l.lent).filter l.isOut

end Lender

/-- What is out is what the holders have. -/
def Lent (l : Lender) (holders : List Nat) : Prop := (l.returned ++ holders).Perm (List.range l.lent)

variable {l : Lender} {holders holders' : List Nat} {x : Nat}

theorem lent_start : Lent {} [] := .refl _

theorem Lent.perm (h : Lent l holders) (hperm : holders'.Perm holders) : Lent l holders' :=
  (hperm.append_left l.returned).trans h

theorem Lent.nodup (h : Lent l holders) : (l.returned ++ holders).Nodup := h.nodup_iff.2 List.nodup_range

/-- Nothing comes back twice. -/
theorem Lent.returned_nodup (h : Lent l holders) : l.returned.Nodup := h.nodup.of_append_left

/-- Nothing has two holders. -/
theorem Lent.holders_nodup (h : Lent l holders) : holders.Nodup := h.nodup.of_append_right

theorem Lent.isOut_iff (h : Lent l holders) : l.isOut x = true ↔ x ∈ holders := by
  have hmem : x ∈ l.returned ∨ x ∈ holders ↔ x < l.lent := by
    rw [← List.mem_append, h.mem_iff, List.mem_range]
  have hdisjoint := List.disjoint_of_nodup_append h.nodup
  simp only [Lender.isOut, Bool.and_eq_true, decide_eq_true_eq, Bool.not_eq_true', List.contains_eq_mem,
    decide_eq_false_iff_not]
  constructor
  · rintro ⟨hlt, hnot⟩
    exact (hmem.2 hlt).resolve_left hnot
  · intro hx
    exact ⟨hmem.1 (Or.inr hx), fun hreturned => hdisjoint hreturned hx⟩

/-- **What is out**, and who has it. -/
theorem Lent.out_perm (h : Lent l holders) : l.out.Perm holders := by
  have hout : l.out.Nodup := List.nodup_range.filter _
  rw [List.perm_ext_iff_of_nodup hout h.holders_nodup]
  intro x
  rw [Lender.out, List.mem_filter, List.mem_range, h.isOut_iff]
  constructor
  · exact And.right
  · intro hx
    exact ⟨List.mem_range.1 (h.mem_iff.1 (List.mem_append_right _ hx)), hx⟩

/-- When nobody has anything everything has come back. -/
theorem Lent.all_returned (h : Lent l []) : l.returned.Perm (List.range l.lent) := by
  rw [Lent, List.append_nil] at h
  exact h

/-- One more goes out. -/
theorem Lent.lend (h : Lent l holders) : Lent l.lend (l.next :: holders) := by
  rw [Lent, Lender.lend, Lender.next, List.range_succ]
  exact (List.perm_middle.trans (List.perm_append_singleton _ _).symm).trans (h.append_right _)

/-- A holder gives back what it has, and has it no more. -/
theorem Lent.takeBack (h : Lent l (x :: holders)) : ∃ l', l.takeBack x = some l' ∧ Lent l' holders := by
  refine ⟨{ l with returned := l.returned ++ [x] }, if_pos (h.isOut_iff.2 List.mem_cons_self), ?_⟩
  rwa [Lent, List.append_assoc, List.singleton_append]

end Lending
