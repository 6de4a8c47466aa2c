import LevelDbSurf.Format
import LevelDbSurf.Lib.Search

/-!
# What a snapshot shows

The meaning of a list of entries in internal-key order at a snapshot: of each user key, the newest
entry not after the snapshot counts, and it is hidden if it is a deletion. `db/db_iter.cc` and
`Version::Get` both aim at this.
-/

namespace LevelDbSurf

open Cursors

variable {α : Type} [LinearOrder α]

/-- An entry of `u` the snapshot `s` may see. -/
def sees (s : Nat) (u : α) (x : InternalKey α × Bytes) : Bool :=
  match parseInternalKey x.1 with
  | some p => decide (p.userKey = u) && decide (p.sequence ≤ s)
  | none => false

/-- The value of an entry, unless it is a deletion. -/
def liveValue (x : InternalKey α × Bytes) : Option Bytes :=
  match parseInternalKey x.1 with
  | some p => if p.type = .value then some x.2 else none
  | none => none

/-- The newest entry of `u` not after `s`: the first one, in a list in internal-key order. -/
def newest (s : Nat) (u : α) (L : List (InternalKey α × Bytes)) : Option (InternalKey α × Bytes) :=
  L.find? (sees s u)

/-- The value of `u` at the snapshot. -/
def live (s : Nat) (u : α) (L : List (InternalKey α × Bytes)) : Option Bytes := (newest s u L).bind liveValue

/-- All user keys with a value at the snapshot, in order. -/
def visible (s : Nat) (L : List (InternalKey α × Bytes)) : List (α × Bytes) :=
  ((L.map (·.1.userKey)).dedup).filterMap fun u => (live s u L).map fun v => (u, v)

theorem sees_iff {s : Nat} {u : α} {x : InternalKey α × Bytes} :
    sees s u x = true ↔ ∃ p, parseInternalKey x.1 = some p ∧ p.userKey = u ∧ p.sequence ≤ s := by
  unfold sees
  cases parseInternalKey x.1 with
  | none => simp
  | some p => simp

theorem userKey_of_sees {s : Nat} {u : α} {x : InternalKey α × Bytes} (h : sees s u x = true) :
    x.1.userKey = u := by
  obtain ⟨p, hp, hu, -⟩ := sees_iff.1 h
  rw [← (parseInternalKey_some hp).1, hu]

theorem mem_of_newest {s : Nat} {u : α} {L : List (InternalKey α × Bytes)} {x : InternalKey α × Bytes}
    (h : newest s u L = some x) : x ∈ L ∧ sees s u x = true :=
  ⟨List.mem_of_find?_eq_some h, List.find?_some h⟩

/-- An entry of `u` is seen iff it sorts at or after the lookup key. -/
theorem sees_iff_lookupKey {s : Nat} {u : α} {x : InternalKey α × Bytes}
    (hparse : (parseInternalKey x.1).isSome) :
    sees s u x = true ↔ x.1.userKey = u ∧ lookupKey u s ≤ x.1 := by
  obtain ⟨p, hp⟩ := Option.isSome_iff_exists.1 hparse
  have hkey := (parseInternalKey_some hp).1
  rw [sees_iff]
  constructor
  · rintro ⟨p', hp', rfl, hs⟩
    cases hp.symm.trans hp'
    refine ⟨hkey.symm, ?_⟩
    rw [hkey]
    exact (InternalKey.lookupKey_le_iff hp).2 hs
  · rintro ⟨rfl, hle⟩
    exact ⟨p, hp, hkey, (InternalKey.lookupKey_le_iff hp).1 hle⟩

/-- **Looking a key up by position.** The newest entry of `u` is where a seek to its lookup key ends,
if that entry is one of `u`. -/
theorem newest_eq_seek {s : Nat} {u : α} {L : List (InternalKey α × Bytes)} (hL : Sorted L)
    (hparse : ∀ x ∈ L, (parseInternalKey x.1).isSome) :
    newest s u L = (L[seekPos L (lookupKey u s)]?).filter fun x => decide (x.1.userKey = u) := by
  have hfirst : L[seekPos L (lookupKey u s)]? = L.find? fun e => decide (lookupKey u s ≤ e.1) :=
    List.find?_eq_getElem?_findIdx.symm
  rw [hfirst, newest]
  cases hx : L.find? fun e => decide (lookupKey u s ≤ e.1) with
  | none =>
    rw [Option.filter_none, List.find?_eq_none]
    intro y hy hsees
    have := List.find?_eq_none.1 hx y hy
    rw [decide_eq_true_eq] at this
    exact this ((sees_iff_lookupKey (hparse y hy)).1 hsees).2
  | some x =>
    have hxmem := List.mem_of_find?_eq_some hx
    have hle : lookupKey u s ≤ x.1 := by simpa using List.find?_some hx
    by_cases hu : x.1.userKey = u
    · rw [Option.filter_some, if_pos (by simpa using hu)]
      obtain ⟨-, as, bs, rfl, has⟩ := List.find?_eq_some_iff_append.1 hx
      refine List.find?_eq_some_iff_append.2 ⟨(sees_iff_lookupKey (hparse x hxmem)).2 ⟨hu, hle⟩, as, bs, rfl, ?_⟩
      intro y hy
      have hlt := has y hy
      rw [Bool.not_eq_true', decide_eq_false_iff_not] at hlt
      rw [Bool.not_eq_true', ← Bool.not_eq_true]
      intro hsees
      exact hlt ((sees_iff_lookupKey (hparse y (List.mem_append_left _ hy))).1 hsees).2
    · -- all that follows belongs to larger user keys
      rw [Option.filter_some, if_neg (by simpa using hu), List.find?_eq_none]
      intro y hy hsees
      obtain ⟨hyu, hyle⟩ := (sees_iff_lookupKey (hparse y hy)).1 hsees
      have hxy : x.1 ≤ y.1 := hL.find?_le hx hy (by simpa using hyle)
      have hlower : u ≤ x.1.userKey := InternalKey.userKey_le hle
      have hupper : x.1.userKey ≤ u := hyu ▸ InternalKey.userKey_le hxy
      exact hu (le_antisymm hupper hlower)

theorem mem_visible {s : Nat} {u : α} {v : Bytes} {L : List (InternalKey α × Bytes)} :
    (u, v) ∈ visible s L ↔ live s u L = some v := by
  simp only [visible, List.mem_filterMap, List.mem_dedup, Option.map_eq_some_iff]
  constructor
  · rintro ⟨u', -, v', hv, heq⟩
    cases heq
    exact hv
  · intro h
    obtain ⟨x, hx, -⟩ := Option.bind_eq_some_iff.1 h
    obtain ⟨hmem, hsees⟩ := mem_of_newest hx
    exact ⟨u, List.mem_map.2 ⟨x, hmem, userKey_of_sees hsees⟩, v, h, rfl⟩

/-- Only the entries of `u` matter. -/
theorem newest_filter {s : Nat} {u : α} {L : List (InternalKey α × Bytes)}
    {q : InternalKey α × Bytes → Bool} (hq : ∀ x, x.1.userKey = u → q x = true) :
    newest s u (L.filter q) = newest s u L := by
  unfold newest
  rw [List.find?_filter]
  congr 1
  funext x
  cases hx : sees s u x with
  | false => simp
  | true => simp [hq x (userKey_of_sees hx)]

end LevelDbSurf
