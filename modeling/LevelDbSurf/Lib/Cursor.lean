import Mathlib

/-!
# Cursors over a list of entries

An iterator object is any state with the six operations of `Cursor`. What it *means* is a list of
entries and a position in it: position `p < L.length` is valid, everything else is not. `Tracks L s p`
says that from `s` on, whatever operations follow, the object behaves as the cursor at position `p`
of `L`; it is the greatest simulation, so it is closed under the operations and one proves it by
giving any relation that is.

`behaviour s` is what a client sees, the current entry after every sequence of operations, and
`cursor L` the behaviour of a new cursor over `L`.
-/

namespace Cursors

/-- The operations of an iterator. `current` is the entry under a valid iterator, `none` under an
invalid one; `seek t` moves to the first key at or after `t`. -/
class Cursor (σ : Type) (κ ν : outParam Type) where
  current : σ → Option (κ × ν)
  seek : σ → κ → σ
  seekToFirst : σ → σ
  seekToLast : σ → σ
  next : σ → σ
  prev : σ → σ

export Cursor (current seek seekToFirst seekToLast next prev)

/-- A cursor that `next` and `prev` cannot move for ever: each decreases its measure while the
cursor is valid. -/
class FiniteCursor (σ : Type) (κ ν : outParam Type) extends Cursor σ κ ν where
  ahead : σ → Nat
  behind : σ → Nat
  ahead_next : ∀ s, (current s).isSome → ahead (next s) < ahead s
  behind_prev : ∀ s, (current s).isSome → behind (prev s) < behind s

export FiniteCursor (ahead behind)

inductive Op (κ : Type) where
  | seek (target : κ)
  | seekToFirst
  | seekToLast
  | next
  | prev
deriving DecidableEq, Repr

section Objects
variable {σ κ ν : Type} [Cursor σ κ ν]

/-- One call. `next` and `prev` may only be called on a valid iterator; a call that may not be made
does nothing. -/
def apply (s : σ) : Op κ → σ
  | .seek t => seek s t
  | .seekToFirst => seekToFirst s
  | .seekToLast => seekToLast s
  | .next => if (current s).isSome then next s else s
  | .prev => if (current s).isSome then prev s else s

def run (s : σ) (ops : List (Op κ)) : σ := ops.foldl apply s

end Objects

/-- What a client sees of an iterator: the current entry after any operations. -/
abbrev Behaviour (κ ν : Type) := List (Op κ) → Option (κ × ν)

def behaviour {σ κ ν : Type} [Cursor σ κ ν] (s : σ) : Behaviour κ ν := fun ops => current (run s ops)

/-! ## Positions in a list -/

section Positions
variable {κ ν : Type}

def lastPos (L : List (κ × ν)) : Nat := L.length - 1

/-- Before the first entry there is nothing: the cursor becomes invalid. -/
def prevPos (L : List (κ × ν)) (p : Nat) : Nat := if p = 0 then L.length else p - 1

variable [LinearOrder κ]

/-- The first entry at or after `t`, or the length. -/
def seekPos (L : List (κ × ν)) (t : κ) : Nat := L.findIdx fun e => decide (t ≤ e.1)

/-- `apply` on positions. -/
def applyPos (L : List (κ × ν)) (p : Nat) : Op κ → Nat
  | .seek t => seekPos L t
  | .seekToFirst => 0
  | .seekToLast => lastPos L
  | .next => if p < L.length then p + 1 else p
  | .prev => if p < L.length then prevPos L p else p

def runPos (L : List (κ × ν)) (p : Nat) (ops : List (Op κ)) : Nat := ops.foldl (applyPos L) p

/-- The behaviour of a new cursor over `L`: not yet positioned, hence invalid. -/
def cursor (L : List (κ × ν)) : Behaviour κ ν := fun ops => L[runPos L L.length ops]?

theorem seekPos_le (L : List (κ × ν)) (t : κ) : seekPos L t ≤ L.length := List.findIdx_le_length

theorem lt_of_seekPos {L : List (κ × ν)} {t : κ} {i : Nat} (h : i < seekPos L t)
    (hi : i < L.length) : (L.get ⟨i, hi⟩).1 < t := by
  have := List.not_of_lt_findIdx h
  simpa using this

theorem le_of_seekPos {L : List (κ × ν)} {t : κ} (h : seekPos L t < L.length) :
    t ≤ (L.get ⟨seekPos L t, h⟩).1 := by
  unfold seekPos at h ⊢
  have := @List.findIdx_getElem _ (fun e : κ × ν => decide (t ≤ e.1)) L h
  simpa using this

/-- Over a concatenation whose first part lies below `t`, and where the second does not, `seek`
finds the entry in the second. -/
theorem seekPos_append_right {A B : List (κ × ν)} {t : κ} (h : ∀ e ∈ A, e.1 < t) :
    seekPos (A ++ B) t = A.length + seekPos B t := by
  unfold seekPos
  rw [List.findIdx_append]
  have hA : A.findIdx (fun e => decide (t ≤ e.1)) = A.length := by
    rw [List.findIdx_eq_length]
    intro e he
    simpa using h e he
  rw [hA, if_neg (Nat.lt_irrefl _), Nat.add_comm]

theorem seekPos_append_left {A B : List (κ × ν)} {t : κ} (h : seekPos A t < A.length) :
    seekPos (A ++ B) t = seekPos A t := by
  unfold seekPos at h ⊢
  rw [List.findIdx_append, if_pos h]

/-- When nothing before `p` reaches `t` and the entry at `p` does, `seek` finds `p`. -/
theorem seekPos_eq {L : List (κ × ν)} {t : κ} {p : Nat} (hp : p ≤ L.length)
    (hbefore : ∀ e ∈ L.take p, e.1 < t) (hat : ∀ e ∈ L.drop p, t ≤ e.1) : seekPos L t = p := by
  conv_lhs => rw [← List.take_append_drop p L]
  rw [seekPos_append_right hbefore, List.length_take, Nat.min_eq_left hp]
  cases hd : L.drop p with
  | nil => simp [seekPos]
  | cons e rest =>
    have : t ≤ e.1 := hat e (by rw [hd]; exact List.mem_cons_self)
    simp [seekPos, List.findIdx_cons, this]

/-- An entry is related to every later one. -/
theorem pairwise_drop {τ : Type} {R : τ → τ → Prop} {l : List τ} {i : Nat} {e : τ} (h : l.Pairwise R)
    (he : l[i]? = some e) : ∀ f ∈ l.drop (i + 1), R e f := by
  obtain ⟨hi, rfl⟩ := List.getElem?_eq_some_iff.1 he
  rw [← List.take_append_drop i l, List.drop_eq_getElem_cons hi] at h
  exact (List.pairwise_cons.1 (List.pairwise_append.1 h).2.1).1

end Positions

/-! ## Tracking -/

section Tracking
variable {σ κ ν : Type} [Cursor σ κ ν] [LinearOrder κ]

/-- A relation that the operations keep, between states of an object and positions of `L`. -/
structure Simulates (L : List (κ × ν)) (R : σ → Nat → Prop) : Prop where
  current : ∀ {s p}, R s p → Cursor.current s = L[p]?
  seek : ∀ {s p} t, R s p → R (Cursor.seek s t) (seekPos L t)
  seekToFirst : ∀ {s p}, R s p → R (Cursor.seekToFirst s) 0
  seekToLast : ∀ {s p}, R s p → R (Cursor.seekToLast s) (lastPos L)
  next : ∀ {s p}, R s p → p < L.length → R (Cursor.next s) (p + 1)
  prev : ∀ {s p}, R s p → p < L.length → R (Cursor.prev s) (prevPos L p)

section Runs
variable {L : List (κ × ν)} {R : σ → Nat → Prop} {s : σ} {p : Nat}

theorem Simulates.isSome (h : Simulates L R) (hs : R s p) : (Cursor.current s).isSome = true ↔ p < L.length := by
  rw [h.current hs]
  simp

/-- **One call** keeps the relation. -/
theorem Simulates.apply (h : Simulates L R) (hs : R s p) (op : Op κ) :
    R (Cursors.apply s op) (applyPos L p op) := by
  cases op with
  | seek t => exact h.seek t hs
  | seekToFirst => exact h.seekToFirst hs
  | seekToLast => exact h.seekToLast hs
  | next =>
    by_cases hp : p < L.length
    · rw [Cursors.apply, applyPos, if_pos ((h.isSome hs).2 hp), if_pos hp]
      exact h.next hs hp
    · rw [Cursors.apply, applyPos, if_neg (mt (h.isSome hs).1 hp), if_neg hp]
      exact hs
  | prev =>
    by_cases hp : p < L.length
    · rw [Cursors.apply, applyPos, if_pos ((h.isSome hs).2 hp), if_pos hp]
      exact h.prev hs hp
    · rw [Cursors.apply, applyPos, if_neg (mt (h.isSome hs).1 hp), if_neg hp]
      exact hs

/-- **A run of calls** keeps it. -/
theorem Simulates.run (h : Simulates L R) (hs : R s p) (ops : List (Op κ)) :
    R (Cursors.run s ops) (runPos L p ops) := by
  induction ops generalizing s p with
  | nil => exact hs
  | cons op ops ih => exact ih (h.apply hs op)

end Runs

/-- From `s` on, the object behaves as the cursor at position `p` of `L`. -/
def Tracks (L : List (κ × ν)) (s : σ) (p : Nat) : Prop := ∃ R, Simulates L R ∧ R s p

/-- Coinduction. -/
theorem Simulates.tracks {L : List (κ × ν)} {R : σ → Nat → Prop} (h : Simulates L R) {s : σ} {p : Nat}
    (hs : R s p) : Tracks L s p :=
  ⟨R, h, hs⟩

theorem simulates_tracks (L : List (κ × ν)) : Simulates L (Tracks (σ := σ) L) where
  current := by rintro s p ⟨R, h, hs⟩; exact h.current hs
  seek := by rintro s p t ⟨R, h, hs⟩; exact ⟨R, h, h.seek t hs⟩
  seekToFirst := by rintro s p ⟨R, h, hs⟩; exact ⟨R, h, h.seekToFirst hs⟩
  seekToLast := by rintro s p ⟨R, h, hs⟩; exact ⟨R, h, h.seekToLast hs⟩
  next := by rintro s p ⟨R, h, hs⟩ hp; exact ⟨R, h, h.next hs hp⟩
  prev := by rintro s p ⟨R, h, hs⟩ hp; exact ⟨R, h, h.prev hs hp⟩

namespace Tracks

variable {L : List (κ × ν)} {s : σ} {p : Nat}

theorem current (h : Tracks L s p) : Cursor.current s = L[p]? := (simulates_tracks L).current h

theorem seek (h : Tracks L s p) (t : κ) : Tracks L (Cursor.seek s t) (seekPos L t) :=
  (simulates_tracks L).seek t h

theorem seekToFirst (h : Tracks L s p) : Tracks L (Cursor.seekToFirst s) 0 :=
  (simulates_tracks L).seekToFirst h

theorem seekToLast (h : Tracks L s p) : Tracks L (Cursor.seekToLast s) (lastPos L) :=
  (simulates_tracks L).seekToLast h

theorem next (h : Tracks L s p) (hp : p < L.length) : Tracks L (Cursor.next s) (p + 1) :=
  (simulates_tracks L).next h hp

theorem prev (h : Tracks L s p) (hp : p < L.length) : Tracks L (Cursor.prev s) (prevPos L p) :=
  (simulates_tracks L).prev h hp

theorem isSome (h : Tracks L s p) : (Cursor.current s).isSome = true ↔ p < L.length :=
  (simulates_tracks L).isSome h

/-- **One call** keeps tracking. -/
theorem apply (h : Tracks L s p) (op : Op κ) : Tracks L (Cursors.apply s op) (applyPos L p op) :=
  (simulates_tracks L).apply h op

/-- **A run of calls** keeps tracking. -/
theorem run (h : Tracks L s p) (ops : List (Op κ)) : Tracks L (Cursors.run s ops) (runPos L p ops) :=
  (simulates_tracks L).run h ops

/-- A new cursor over `L` is what a client sees. -/
theorem behaviour_eq (h : Tracks L s L.length) : behaviour s = cursor L := by
  funext ops
  exact (h.run ops).current

end Tracks
end Tracking

/-! ## The list behind a cursor -/

/-- Walking on by `move` after `ops` shows the entries `l`, one after the other, and then none. -/
def Yields {κ ν : Type} (b : Behaviour κ ν) (ops : List (Op κ)) (move : Op κ) (l : List (κ × ν)) : Prop :=
  ∀ n, b (ops ++ List.replicate n move) = l[n]?

/-- A walk shows one list only. -/
theorem Yields.unique {κ ν : Type} {b : Behaviour κ ν} {ops : List (Op κ)} {move : Op κ} {l l' : List (κ × ν)}
    (h : Yields b ops move l) (h' : Yields b ops move l') : l = l' :=
  List.ext_getElem? fun n => (h n).symm.trans (h' n)

section Cursor
variable {κ ν : Type} [LinearOrder κ]

theorem runPos_append (L : List (κ × ν)) (p : Nat) (ops ops' : List (Op κ)) :
    runPos L p (ops ++ ops') = runPos L (runPos L p ops) ops' := List.foldl_append

/-- `n` calls of `next` lead `n` entries on; past the end there are none. -/
theorem getElem?_runPos_next (L : List (κ × ν)) (p n : Nat) :
    L[runPos L p (List.replicate n .next)]? = L[p + n]? := by
  induction n generalizing p with
  | zero => rfl
  | succ n ih =>
    rw [List.replicate_succ, runPos, List.foldl_cons, ← runPos, ih, applyPos]
    by_cases hp : p < L.length
    · rw [if_pos hp, Nat.add_right_comm, Nat.add_assoc]
    · rw [if_neg hp, List.getElem?_eq_none (by omega), List.getElem?_eq_none (by omega)]

/-- An invalid cursor stays invalid. -/
theorem runPos_prev_length (L : List (κ × ν)) (n : Nat) :
    runPos L L.length (List.replicate n .prev) = L.length := by
  induction n with
  | zero => rfl
  | succ n ih =>
    rw [List.replicate_succ, runPos, List.foldl_cons, ← runPos, applyPos, if_neg (Nat.lt_irrefl _), ih]

/-- `n` calls of `prev` lead `n` entries back; before the first there are none. -/
theorem getElem?_runPos_prev (L : List (κ × ν)) (p n : Nat) (hp : p < L.length) :
    L[runPos L p (List.replicate n .prev)]? = (L.take (p + 1)).reverse[n]? := by
  have htake : ∀ q, q < L.length → (L.take (q + 1)).reverse = L[q]?.toList ++ (L.take q).reverse := by
    intro q hq
    rw [List.take_succ_eq_append_getElem hq, List.reverse_append, List.getElem?_eq_getElem hq]
    rfl
  induction n generalizing p with
  | zero =>
    rw [htake p hp, List.getElem?_eq_getElem hp]
    exact List.getElem?_eq_getElem hp
  | succ n ih =>
    rw [List.replicate_succ, runPos, List.foldl_cons, ← runPos, applyPos, if_pos hp, htake p hp,
      List.getElem?_eq_getElem hp]
    show _ = (L.take p).reverse[n]?
    cases p with
    | zero =>
      rw [prevPos, if_pos rfl, runPos_prev_length, List.getElem?_eq_none (Nat.le_refl _)]
      rfl
    | succ p =>
      rw [prevPos, if_neg (Nat.succ_ne_zero p), Nat.add_sub_cancel]
      exact ih p (by omega)

/-- Forward from any point: the entries from there to the end. -/
theorem cursor_yields_next (L : List (κ × ν)) (ops : List (Op κ)) :
    Yields (cursor L) ops .next (L.drop (runPos L L.length ops)) := by
  intro n
  rw [cursor, runPos_append, getElem?_runPos_next, List.getElem?_drop]

/-- Backward from the end: all entries. -/
theorem cursor_yields_prev (L : List (κ × ν)) (ops : List (Op κ)) :
    Yields (cursor L) (ops ++ [.seekToLast]) .prev L.reverse := by
  intro n
  rw [cursor, runPos_append, runPos_append]
  show L[runPos L (lastPos L) _]? = _
  cases L with
  | nil => simp
  | cons e L =>
    rw [getElem?_runPos_prev _ _ _ (by simp [lastPos]), List.take_of_length_le (by simp [lastPos])]

/-- `seekToFirst` and `i` calls of `next` reach entry `i`, if there is one. -/
def reach (i : Nat) : List (Op κ) := .seekToFirst :: List.replicate i .next

theorem cursor_reach (L : List (κ × ν)) (i : Nat) : cursor L (reach i) = L[i]? := by
  have := cursor_yields_next L [.seekToFirst] i
  rwa [show runPos L L.length [.seekToFirst] = 0 from rfl, List.drop_zero] at this

/-- The entries a cursor can show are exactly those of its list. -/
theorem exists_cursor_eq {L : List (κ × ν)} {e : κ × ν} : (∃ ops, cursor L ops = some e) ↔ e ∈ L := by
  constructor
  · rintro ⟨ops, h⟩
    exact List.mem_of_getElem? h
  · intro he
    obtain ⟨i, hi⟩ := List.getElem?_of_mem he
    exact ⟨reach i, by rw [cursor_reach, hi]⟩

theorem cursor_injective : Function.Injective (cursor : List (κ × ν) → Behaviour κ ν) := by
  intro L L' h
  apply List.ext_getElem?
  intro i
  rw [← cursor_reach, ← cursor_reach, h]

end Cursor

/-! ## Objects that are a cursor inside -/

section Inside
variable {σ τ κ ν : Type} [Cursor σ κ ν] [Cursor τ κ ν]

/-- A relation the operations of two objects keep, under which they show the same. -/
structure Bisimulates (S : τ → σ → Prop) : Prop where
  current : ∀ {t s}, S t s → Cursor.current t = Cursor.current s
  seek : ∀ {t s} k, S t s → S (Cursor.seek t k) (Cursor.seek s k)
  seekToFirst : ∀ {t s}, S t s → S (Cursor.seekToFirst t) (Cursor.seekToFirst s)
  seekToLast : ∀ {t s}, S t s → S (Cursor.seekToLast t) (Cursor.seekToLast s)
  next : ∀ {t s}, S t s → S (Cursor.next t) (Cursor.next s)
  prev : ∀ {t s}, S t s → S (Cursor.prev t) (Cursor.prev s)

theorem Bisimulates.apply {S : τ → σ → Prop} (h : Bisimulates S) {t : τ} {s : σ} (hS : S t s) (op : Op κ) :
    S (Cursors.apply t op) (Cursors.apply s op) := by
  cases op with
  | seek k => exact h.seek k hS
  | seekToFirst => exact h.seekToFirst hS
  | seekToLast => exact h.seekToLast hS
  | next =>
    rw [Cursors.apply, Cursors.apply, h.current hS]
    split
    · exact h.next hS
    · exact hS
  | prev =>
    rw [Cursors.apply, Cursors.apply, h.current hS]
    split
    · exact h.prev hS
    · exact hS

theorem Bisimulates.behaviour_eq {S : τ → σ → Prop} (h : Bisimulates S) {t : τ} {s : σ} (hS : S t s) :
    behaviour t = behaviour s := by
  have hrun : ∀ (ops : List (Op κ)) (t : τ) (s : σ), S t s → S (run t ops) (run s ops) := by
    intro ops
    induction ops with
    | nil => exact fun _ _ hS => hS
    | cons op ops ih => exact fun t s hS => ih _ _ (h.apply hS op)
  funext ops
  exact h.current (hrun ops t s hS)

theorem Bisimulates.tracks [LinearOrder κ] {S : τ → σ → Prop} (h : Bisimulates S)
    {L : List (κ × ν)} {t : τ} {s : σ} {p : Nat} (hS : S t s) (hs : Tracks L s p) : Tracks L t p := by
  refine Simulates.tracks (R := fun t p => ∃ s, S t s ∧ Tracks L s p) ?_ ⟨s, hS, hs⟩
  constructor
  · rintro t p ⟨s, hS, hs⟩; rw [h.current hS]; exact hs.current
  · rintro t p k ⟨s, hS, hs⟩; exact ⟨_, h.seek k hS, hs.seek k⟩
  · rintro t p ⟨s, hS, hs⟩; exact ⟨_, h.seekToFirst hS, hs.seekToFirst⟩
  · rintro t p ⟨s, hS, hs⟩; exact ⟨_, h.seekToLast hS, hs.seekToLast⟩
  · rintro t p ⟨s, hS, hs⟩ hp; exact ⟨_, h.next hS, hs.next hp⟩
  · rintro t p ⟨s, hS, hs⟩ hp; exact ⟨_, h.prev hS, hs.prev hp⟩

end Inside

/-! ## A cursor over a list -/

/-- Entries, a position, and what else the object carries along. -/
structure ListCursor (κ ν τ : Type) where
  entries : List (κ × ν)
  pos : Nat := entries.length
  extra : τ
deriving DecidableEq

namespace ListCursor
variable {κ ν τ : Type} [LinearOrder κ]

instance : FiniteCursor (ListCursor κ ν τ) κ ν where
  current c := c.entries[c.pos]?
  seek c t := { c with pos := seekPos c.entries t }
  seekToFirst c := { c with pos := 0 }
  seekToLast c := { c with pos := lastPos c.entries }
  next c := { c with pos := c.pos + 1 }
  prev c := { c with pos := prevPos c.entries c.pos }
  ahead c := c.entries.length - c.pos
  behind c := if c.pos < c.entries.length then c.pos + 1 else 0
  ahead_next c h := by
    have : c.pos < c.entries.length := by simpa using h
    dsimp only
    omega
  behind_prev c h := by
    have hp : c.pos < c.entries.length := by simpa using h
    unfold prevPos
    by_cases h0 : c.pos = 0
    · rw [h0] at hp ⊢
      simp [hp]
    · have : c.pos - 1 < c.entries.length := by omega
      simp only [h0, if_false, this, if_true, hp]
      omega

theorem tracks (c : ListCursor κ ν τ) : Tracks c.entries c c.pos := by
  refine Simulates.tracks (R := fun d p => d.entries = c.entries ∧ d.pos = p) ?_ ⟨rfl, rfl⟩
  constructor
  · rintro s p ⟨he, rfl⟩; rw [← he]; rfl
  · rintro s p t ⟨he, rfl⟩; exact ⟨he, by rw [← he]; rfl⟩
  · rintro s p ⟨he, rfl⟩; exact ⟨he, rfl⟩
  · rintro s p ⟨he, rfl⟩; exact ⟨he, by rw [← he]; rfl⟩
  · rintro s p ⟨he, rfl⟩ -; exact ⟨he, rfl⟩
  · rintro s p ⟨he, rfl⟩ -; exact ⟨he, by rw [← he]; rfl⟩

end ListCursor

/-! ## One of two kinds of cursor -/

section Sum
variable {σ τ κ ν : Type} [Cursor σ κ ν] [Cursor τ κ ν]

instance : Cursor (σ ⊕ τ) κ ν where
  current := Sum.elim current current
  seek s t := s.map (seek · t) (seek · t)
  seekToFirst := Sum.map seekToFirst seekToFirst
  seekToLast := Sum.map seekToLast seekToLast
  next := Sum.map next next
  prev := Sum.map prev prev

theorem bisimulates_inl : Bisimulates (τ := σ ⊕ τ) (σ := σ) fun x s => x = .inl s := by
  constructor <;> rintro _ s <;> first | rintro rfl; rfl | (rintro k rfl; rfl)

theorem bisimulates_inr : Bisimulates (τ := σ ⊕ τ) (σ := τ) fun x s => x = .inr s := by
  constructor <;> rintro _ s <;> first | rintro rfl; rfl | (rintro k rfl; rfl)

end Sum

end Cursors
