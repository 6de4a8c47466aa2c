import LevelDbSurf.TwoLevelCalls

/-!
# What a `TwoLevelIterator` owns (`two_level_iterator.cc:71-161`)

| here | there |
| --- | --- |
| `DataIterators`  | `block_function_` with its `arg_`, and `delete` of an iterator it has made |
| `OwningIterator` | `TwoLevelIterator`, which deletes its `data_iter_` when it sets another (`IteratorWrapper::Set`) and when it is deleted |

Both act on a world, and may be undefined there, as a second `delete` of one object is. `Sound` says what world they
need and leave; `Mirrors` ties the object to the one without a world.
-/

namespace LevelDbSurf

open Cursors

/-- Making and deleting data iterators. -/
structure DataIterators (δ η ω : Type) where
  make : η → ω → Option (δ × ω)
  delete : δ → ω → Option ω

/-- `TwoLevelIterator`, less its block function. -/
structure OwningIterator (ι δ η : Type) where
  indexIter : ι
  dataIter : Option δ := none
  dataBlockHandle : Option η := none
  status : Status := .ok

namespace OwningIterator

variable {ι δ η κ ν ω : Type}

section Definitions

/-- `if (data_iter_.iter() != nullptr) data_iter_.f()`. -/
def onData (it : OwningIterator ι δ η) (g : δ → δ) : OwningIterator ι δ η := { it with dataIter := it.dataIter.map g }

/-- `index_iter_.f()`. -/
def onIndex (it : OwningIterator ι δ η) (g : ι → ι) : OwningIterator ι δ η := { it with indexIter := g it.indexIter }

/-- `SaveError`. -/
def saveError (it : OwningIterator ι δ η) (s : Status) : OwningIterator ι δ η :=
  if it.status.isOk && !s.isOk then { it with status := s } else it

@[simp] theorem saveError_fields (it : OwningIterator ι δ η) (s : Status) :
    (it.saveError s).indexIter = it.indexIter ∧ (it.saveError s).dataIter = it.dataIter ∧
      (it.saveError s).dataBlockHandle = it.dataBlockHandle := by
  unfold saveError
  split <;> exact ⟨rfl, rfl, rfl⟩

variable [Iterator δ κ ν] (f : DataIterators δ η ω)

def dataCurrent (it : OwningIterator ι δ η) : Option (κ × ν) := it.dataIter.bind current

/-- `SetDataIterator` (`:141`). -/
def setDataIterator (it : OwningIterator ι δ η) (dataIter : Option δ) (w : ω) : Option (OwningIterator ι δ η × ω) :=
  match it.dataIter with
  | none => some ({ it with dataIter }, w)
  | some old => do
    let it := it.saveError (Iterator.status old)
    let w ← f.delete old w
    return ({ it with dataIter }, w)

variable [IndexIterator ι κ η] [DecidableEq η]

/-- `InitDataBlock` (`:146`). -/
def initDataBlock (it : OwningIterator ι δ η) (w : ω) : Option (OwningIterator ι δ η × ω) :=
  match current it.indexIter with
  | none => it.setDataIterator f none w
  | some (_, handle) =>
    if it.dataIter.isSome && it.dataBlockHandle = some handle then some (it, w)
    else do
      let (iter, w) ← f.make handle w
      { it with dataBlockHandle := some handle }.setDataIterator f (some iter) w

variable {f}

omit [IndexIterator ι κ η] [DecidableEq η] in
theorem setDataIterator_indexIter {it it' : OwningIterator ι δ η} {d : Option δ} {w w' : ω}
    (h : it.setDataIterator f d w = some (it', w')) : it'.indexIter = it.indexIter := by
  unfold setDataIterator at h
  cases hdata : it.dataIter with
  | none =>
    rw [hdata, Option.some.injEq, Prod.mk.injEq] at h
    rw [← h.1]
  | some old =>
    rw [hdata, Option.bind_eq_bind, Option.bind_eq_some_iff] at h
    obtain ⟨w₁, -, h⟩ := h
    obtain ⟨rfl, -⟩ := Prod.mk.inj (Option.some.inj h)
    simp

theorem initDataBlock_indexIter {it it' : OwningIterator ι δ η} {w w' : ω}
    (h : it.initDataBlock f w = some (it', w')) : it'.indexIter = it.indexIter := by
  unfold initDataBlock at h
  cases hindex : current it.indexIter with
  | none =>
    rw [hindex] at h
    exact setDataIterator_indexIter h
  | some e =>
    rw [hindex] at h
    dsimp only at h
    split at h
    · obtain ⟨rfl, -⟩ := Prod.mk.inj (Option.some.inj h)
      rfl
    · rw [Option.bind_eq_bind, Option.bind_eq_some_iff] at h
      obtain ⟨⟨iter, w₁⟩, -, h⟩ := h
      exact (setDataIterator_indexIter h).trans rfl

variable (f)

/-- `SkipEmptyDataBlocksForward` (`:115`). -/
def skipEmptyDataBlocksForward (it : OwningIterator ι δ η) (w : ω) : Option (OwningIterator ι δ η × ω) :=
  if it.dataCurrent.isSome then some (it, w)
  else if _h : (current it.indexIter).isSome then
    match _hinit : (it.onIndex next).initDataBlock f w with
    | none => none
    | some (opened, w) => (opened.onData seekToFirst).skipEmptyDataBlocksForward w
  else it.setDataIterator f none w
termination_by ahead it.indexIter
decreasing_by
  show ahead opened.indexIter < _
  rw [initDataBlock_indexIter _hinit]
  exact FiniteCursor.ahead_next _ _h

/-- `SkipEmptyDataBlocksBackward` (`:128`). -/
def skipEmptyDataBlocksBackward (it : OwningIterator ι δ η) (w : ω) : Option (OwningIterator ι δ η × ω) :=
  if it.dataCurrent.isSome then some (it, w)
  else if _h : (current it.indexIter).isSome then
    match _hinit : (it.onIndex prev).initDataBlock f w with
    | none => none
    | some (opened, w) => (opened.onData seekToLast).skipEmptyDataBlocksBackward w
  else it.setDataIterator f none w
termination_by behind it.indexIter
decreasing_by
  show behind opened.indexIter < _
  rw [initDataBlock_indexIter _hinit]
  exact FiniteCursor.behind_prev _ _h

/-- A turn of the forward loop. -/
theorem skipForward_eq {it : OwningIterator ι δ η} {w : ω} (g : DataIterators δ η ω)
    (hdata : ¬ it.dataCurrent.isSome = true) (hindex : (current it.indexIter).isSome = true) :
    it.skipEmptyDataBlocksForward g w = ((it.onIndex next).initDataBlock g w).bind fun s =>
      (s.1.onData seekToFirst).skipEmptyDataBlocksForward g s.2 := by
  rw [skipEmptyDataBlocksForward, if_neg hdata, dif_pos hindex]
  split
  · rename_i hinit
    rw [hinit]
    rfl
  · rename_i hinit
    rw [hinit]
    rfl

theorem skipBackward_eq {it : OwningIterator ι δ η} {w : ω} (g : DataIterators δ η ω)
    (hdata : ¬ it.dataCurrent.isSome = true) (hindex : (current it.indexIter).isSome = true) :
    it.skipEmptyDataBlocksBackward g w = ((it.onIndex prev).initDataBlock g w).bind fun s =>
      (s.1.onData seekToLast).skipEmptyDataBlocksBackward g s.2 := by
  rw [skipEmptyDataBlocksBackward, if_neg hdata, dif_pos hindex]
  split
  · rename_i hinit
    rw [hinit]
    rfl
  · rename_i hinit
    rw [hinit]
    rfl

/-- One call (`:82-113`). `Next` and `Prev` are not called on an invalid iterator. -/
def apply (it : OwningIterator ι δ η) (op : Op κ) (w : ω) : Option (OwningIterator ι δ η × ω) :=
  match op with
  | .seek t => do
    let (it, w) ← (it.onIndex (seek · t)).initDataBlock f w
    (it.onData (seek · t)).skipEmptyDataBlocksForward f w
  | .seekToFirst => do
    let (it, w) ← (it.onIndex seekToFirst).initDataBlock f w
    (it.onData seekToFirst).skipEmptyDataBlocksForward f w
  | .seekToLast => do
    let (it, w) ← (it.onIndex seekToLast).initDataBlock f w
    (it.onData seekToLast).skipEmptyDataBlocksBackward f w
  | .next => if it.dataCurrent.isSome then (it.onData next).skipEmptyDataBlocksForward f w else some (it, w)
  | .prev => if it.dataCurrent.isSome then (it.onData prev).skipEmptyDataBlocksBackward f w else some (it, w)

/-- `~TwoLevelIterator`: of the members, `data_iter_` deletes what it has. -/
def delete (it : OwningIterator ι δ η) (w : ω) : Option ω :=
  match it.dataIter with
  | none => some w
  | some d => f.delete d w

end Definitions

/-! ## Never undefined -/

variable [Iterator δ κ ν]

/-- What making, moving and deleting keep of the world: `P ds w` says that `ds` are the data iterators this object has
not deleted. -/
structure Sound (f : DataIterators δ η ω) (P : List δ → ω → Prop) : Prop where
  perm : ∀ {ds ds' : List δ} {w : ω}, ds'.Perm ds → P ds w → P ds' w
  move : ∀ {d : δ} {ds : List δ} {w : ω} (op : Op κ), P (d :: ds) w → P (call d op :: ds) w
  make : ∀ (handle : η) {ds : List δ} {w : ω}, P ds w → ∃ d w', f.make handle w = some (d, w') ∧ P (d :: ds) w'
  delete : ∀ {d : δ} {ds : List δ} {w : ω}, P (d :: ds) w → ∃ w', f.delete d w = some w' ∧ P ds w'

namespace Sound

variable {f : DataIterators δ η ω} {P : List δ → ω → Prop} {it : OwningIterator ι δ η} {w : ω}

/-- A result there is, and the world is in order after it. -/
def Ends (P : List δ → ω → Prop) (r : Option (OwningIterator ι δ η × ω)) : Prop :=
  ∃ it' w', r = some (it', w') ∧ P it'.dataIter.toList w'

theorem onData (h : Sound f P) (op : Op κ) (hw : P it.dataIter.toList w) :
    P (it.onData (call · op)).dataIter.toList w := by
  unfold OwningIterator.onData
  cases hdata : it.dataIter with
  | none =>
    rw [hdata] at hw
    exact hw
  | some d =>
    rw [hdata] at hw
    exact h.move op hw

/-- **`SetDataIterator`** deletes the old iterator. -/
theorem setDataIterator (h : Sound f P) (d : Option δ) (hw : P (d.toList ++ it.dataIter.toList) w) :
    Ends P (it.setDataIterator f d w) := by
  unfold OwningIterator.setDataIterator
  cases hdata : it.dataIter with
  | none =>
    rw [hdata, Option.toList_none, List.append_nil] at hw
    exact ⟨_, w, rfl, hw⟩
  | some old =>
    rw [hdata, Option.toList_some] at hw
    obtain ⟨w', hdelete, hw'⟩ := h.delete (h.perm (List.perm_append_singleton old d.toList).symm hw)
    dsimp only
    rw [hdelete]
    exact ⟨_, w', rfl, hw'⟩

variable [IndexIterator ι κ η] [DecidableEq η]

/-- **`InitDataBlock`**. -/
theorem initDataBlock (h : Sound f P) (hw : P it.dataIter.toList w) : Ends P (it.initDataBlock f w) := by
  unfold OwningIterator.initDataBlock
  cases hindex : current it.indexIter with
  | none => exact h.setDataIterator none hw
  | some e =>
    dsimp only
    split
    · exact ⟨it, w, rfl, hw⟩
    · obtain ⟨d, w', hmake, hw'⟩ := h.make e.2 hw
      rw [hmake]
      exact h.setDataIterator (some d) hw'

theorem initDataBlock_ne_none (h : Sound f P) (hw : P it.dataIter.toList w) : it.initDataBlock f w ≠ none := by
  obtain ⟨it', w', hsome, -⟩ := h.initDataBlock hw
  rw [hsome]
  exact Option.some_ne_none _

theorem initDataBlock_some (h : Sound f P) (hw : P it.dataIter.toList w) {opened : OwningIterator ι δ η} {w' : ω}
    (hinit : it.initDataBlock f w = some (opened, w')) : P opened.dataIter.toList w' := by
  obtain ⟨it', w₁, hsome, hw'⟩ := h.initDataBlock hw
  rw [hinit] at hsome
  obtain ⟨rfl, rfl⟩ := Prod.mk.inj (Option.some.inj hsome)
  exact hw'

/-- **The forward loop.** -/
theorem skipForward (h : Sound f P) (hw : P it.dataIter.toList w) : Ends P (it.skipEmptyDataBlocksForward f w) := by
  fun_induction skipEmptyDataBlocksForward f it w with
  | case1 it w hdata => exact ⟨it, w, rfl, hw⟩
  | case2 it w hdata hindex hinit =>
    exact absurd hinit (h.initDataBlock_ne_none (show P (it.onIndex next).dataIter.toList w from hw))
  | case3 it w hdata hindex opened w' hinit ih =>
    have hopened := h.initDataBlock_some (show P (it.onIndex next).dataIter.toList w from hw) hinit
    exact ih (h.onData .seekToFirst hopened)
  | case4 it w hdata hindex => exact h.setDataIterator none hw

/-- **The backward loop.** -/
theorem skipBackward (h : Sound f P) (hw : P it.dataIter.toList w) : Ends P (it.skipEmptyDataBlocksBackward f w) := by
  fun_induction skipEmptyDataBlocksBackward f it w with
  | case1 it w hdata => exact ⟨it, w, rfl, hw⟩
  | case2 it w hdata hindex hinit =>
    exact absurd hinit (h.initDataBlock_ne_none (show P (it.onIndex prev).dataIter.toList w from hw))
  | case3 it w hdata hindex opened w' hinit ih =>
    have hopened := h.initDataBlock_some (show P (it.onIndex prev).dataIter.toList w from hw) hinit
    exact ih (h.onData .seekToLast hopened)
  | case4 it w hdata hindex => exact h.setDataIterator none hw

/-- **A call** is defined. -/
theorem apply (h : Sound f P) (op : Op κ) (hw : P it.dataIter.toList w) : Ends P (it.apply f op w) := by
  cases op with
  | seek t =>
    obtain ⟨it', w', hinit, hw'⟩ := h.initDataBlock (show P (it.onIndex (seek · t)).dataIter.toList w from hw)
    simp only [OwningIterator.apply, hinit]
    exact h.skipForward (h.onData (.seek t) hw')
  | seekToFirst =>
    obtain ⟨it', w', hinit, hw'⟩ := h.initDataBlock (show P (it.onIndex seekToFirst).dataIter.toList w from hw)
    simp only [OwningIterator.apply, hinit]
    exact h.skipForward (h.onData .seekToFirst hw')
  | seekToLast =>
    obtain ⟨it', w', hinit, hw'⟩ := h.initDataBlock (show P (it.onIndex seekToLast).dataIter.toList w from hw)
    simp only [OwningIterator.apply, hinit]
    exact h.skipBackward (h.onData .seekToLast hw')
  | next =>
    rw [OwningIterator.apply]
    split
    · exact h.skipForward (h.onData .next hw)
    · exact ⟨it, w, rfl, hw⟩
  | prev =>
    rw [OwningIterator.apply]
    split
    · exact h.skipBackward (h.onData .prev hw)
    · exact ⟨it, w, rfl, hw⟩

omit [IndexIterator ι κ η] [DecidableEq η] in
/-- **The destructor** leaves nothing. -/
theorem destructor (h : Sound f P) (hw : P it.dataIter.toList w) : ∃ w', it.delete f w = some w' ∧ P [] w' := by
  unfold OwningIterator.delete
  cases hdata : it.dataIter with
  | none =>
    rw [hdata] at hw
    exact ⟨w, rfl, hw⟩
  | some d =>
    rw [hdata] at hw
    exact h.delete hw

end Sound

/-! ## The iterator without a world -/

section Reflects
variable {δ' : Type} [Iterator δ' κ ν]

/-- The same object, in no world. -/
structure Reflects (view : δ → δ') (bf : η → δ') (it : OwningIterator ι δ η) (p : TwoLevelIterator ι δ' η) :
    Prop where
  blockFunction : p.blockFunction = bf
  indexIter : p.indexIter = it.indexIter
  dataIter : p.dataIter = it.dataIter.map view
  dataBlockHandle : p.dataBlockHandle = it.dataBlockHandle
  status : p.status = it.status

/-- In the worlds of `Q`, which stay in `Q`, data iterators are made as the block function makes them, and do the
same. -/
structure Mirrors (f : DataIterators δ η ω) (view : δ → δ') (bf : η → δ') (Q : ω → Prop) : Prop where
  current : ∀ d, Cursors.current (view d) = Cursors.current d
  status : ∀ d, Iterator.status (view d) = Iterator.status d
  call : ∀ d (op : Op κ), view (call d op) = call (view d) op
  make : ∀ {handle : η} {w w' : ω} {d : δ}, Q w → f.make handle w = some (d, w') → view d = bf handle ∧ Q w'
  delete : ∀ {d : δ} {w w' : ω}, Q w → f.delete d w = some w' → Q w'

omit [Iterator δ κ ν] [Iterator δ' κ ν] in
theorem Reflects.onIndex {view : δ → δ'} {bf : η → δ'} {it : OwningIterator ι δ η} {p : TwoLevelIterator ι δ' η}
    (hp : Reflects view bf it p) (g : ι → ι) : Reflects view bf (it.onIndex g) (p.onIndex g) :=
  { hp with indexIter := congrArg g hp.indexIter }

namespace Mirrors

variable {f : DataIterators δ η ω} {view : δ → δ'} {bf : η → δ'} {Q : ω → Prop} {it it' : OwningIterator ι δ η}
  {p : TwoLevelIterator ι δ' η} {w w' : ω}

theorem onData (h : Mirrors f view bf Q) (hp : Reflects view bf it p) (op : Op κ) :
    Reflects view bf (it.onData (LevelDbSurf.call · op)) (p.onData (LevelDbSurf.call · op)) := by
  refine { hp with dataIter := ?_ }
  simp only [OwningIterator.onData, TwoLevelIterator.onData, hp.dataIter, Option.map_map]
  exact Option.map_congr fun d _ => (h.call d op).symm

theorem dataCurrent (h : Mirrors f view bf Q) (hp : Reflects view bf it p) : p.dataCurrent = it.dataCurrent := by
  rw [TwoLevelIterator.dataCurrent, OwningIterator.dataCurrent, hp.dataIter, Option.bind_map]
  exact Option.bind_congr fun d _ => h.current d

theorem setDataIterator (h : Mirrors f view bf Q) (hw : Q w) (hp : Reflects view bf it p) {d : Option δ}
    (hset : it.setDataIterator f d w = some (it', w')) :
    Reflects view bf it' (p.setDataIterator (d.map view)) ∧ Q w' := by
  unfold OwningIterator.setDataIterator at hset
  unfold TwoLevelIterator.setDataIterator
  rw [hp.dataIter]
  cases hdata : it.dataIter with
  | none =>
    rw [hdata] at hset
    obtain ⟨rfl, rfl⟩ := Prod.mk.inj (Option.some.inj hset)
    exact ⟨{ hp with dataIter := rfl }, hw⟩
  | some old =>
    rw [hdata, Option.bind_eq_bind, Option.bind_eq_some_iff] at hset
    obtain ⟨w₁, hdelete, hset⟩ := hset
    obtain ⟨rfl, rfl⟩ := Prod.mk.inj (Option.some.inj hset)
    refine ⟨?_, h.delete hw hdelete⟩
    simp only [Option.map_some, TwoLevelIterator.saveError, OwningIterator.saveError, h.status, hp.status]
    split
    · exact { hp with dataIter := rfl, status := rfl }
    · exact { hp with dataIter := rfl }

variable [IndexIterator ι κ η] [DecidableEq η]

theorem initDataBlock (h : Mirrors f view bf Q) (hw : Q w) (hp : Reflects view bf it p)
    (hinit : it.initDataBlock f w = some (it', w')) : Reflects view bf it' p.initDataBlock ∧ Q w' := by
  unfold OwningIterator.initDataBlock at hinit
  unfold TwoLevelIterator.initDataBlock
  rw [hp.indexIter, hp.dataIter, hp.dataBlockHandle, Option.isSome_map]
  cases hindex : Cursors.current it.indexIter with
  | none =>
    rw [hindex] at hinit
    exact h.setDataIterator hw hp hinit
  | some e =>
    rw [hindex] at hinit
    dsimp only at hinit ⊢
    split at hinit
    · rename_i hsame
      obtain ⟨rfl, rfl⟩ := Prod.mk.inj (Option.some.inj hinit)
      rw [if_pos hsame]
      exact ⟨hp, hw⟩
    · rename_i hother
      rw [if_neg hother]
      rw [Option.bind_eq_bind, Option.bind_eq_some_iff] at hinit
      obtain ⟨⟨d, w₁⟩, hd, hset⟩ := hinit
      obtain ⟨hview, hw₁⟩ := h.make hw hd
      have hopened : Reflects view bf { it with dataBlockHandle := some e.2 }
          { p with dataBlockHandle := some e.2, requests := p.requests ++ [e.2] } := { hp with dataBlockHandle := rfl }
      have hpure := h.setDataIterator hw₁ hopened hset
      have hmade : p.blockFunction e.2 = view d := by rw [hp.blockFunction, hview]
      rw [hp.indexIter, hp.dataIter] at hpure
      rw [hmade]
      exact hpure

theorem skipForward (h : Mirrors f view bf Q) (hw : Q w) (hp : Reflects view bf it p)
    (hskip : it.skipEmptyDataBlocksForward f w = some (it', w')) :
    Reflects view bf it' p.skipEmptyDataBlocksForward ∧ Q w' := by
  fun_induction OwningIterator.skipEmptyDataBlocksForward f it w generalizing p with
  | case1 it w hdata =>
    obtain ⟨rfl, rfl⟩ := Prod.mk.inj (Option.some.inj hskip)
    rw [TwoLevelIterator.skipEmptyDataBlocksForward, if_pos (by rwa [h.dataCurrent hp])]
    exact ⟨hp, hw⟩
  | case2 => cases hskip
  | case3 it w hdata hindex opened w₁ hinit ih =>
    rw [TwoLevelIterator.skipEmptyDataBlocksForward, if_neg (by rwa [h.dataCurrent hp]),
      dif_pos (by rwa [hp.indexIter])]
    obtain ⟨hp₁, hw₁⟩ := h.initDataBlock hw (Reflects.onIndex hp next) hinit
    exact ih hw₁ (h.onData hp₁ .seekToFirst) hskip
  | case4 it w hdata hindex =>
    rw [TwoLevelIterator.skipEmptyDataBlocksForward, if_neg (by rwa [h.dataCurrent hp]),
      dif_neg (by rwa [hp.indexIter])]
    exact h.setDataIterator hw hp hskip

theorem skipBackward (h : Mirrors f view bf Q) (hw : Q w) (hp : Reflects view bf it p)
    (hskip : it.skipEmptyDataBlocksBackward f w = some (it', w')) :
    Reflects view bf it' p.skipEmptyDataBlocksBackward ∧ Q w' := by
  fun_induction OwningIterator.skipEmptyDataBlocksBackward f it w generalizing p with
  | case1 it w hdata =>
    obtain ⟨rfl, rfl⟩ := Prod.mk.inj (Option.some.inj hskip)
    rw [TwoLevelIterator.skipEmptyDataBlocksBackward, if_pos (by rwa [h.dataCurrent hp])]
    exact ⟨hp, hw⟩
  | case2 => cases hskip
  | case3 it w hdata hindex opened w₁ hinit ih =>
    rw [TwoLevelIterator.skipEmptyDataBlocksBackward, if_neg (by rwa [h.dataCurrent hp]),
      dif_pos (by rwa [hp.indexIter])]
    obtain ⟨hp₁, hw₁⟩ := h.initDataBlock hw (Reflects.onIndex hp prev) hinit
    exact ih hw₁ (h.onData hp₁ .seekToLast) hskip
  | case4 it w hdata hindex =>
    rw [TwoLevelIterator.skipEmptyDataBlocksBackward, if_neg (by rwa [h.dataCurrent hp]),
      dif_neg (by rwa [hp.indexIter])]
    exact h.setDataIterator hw hp hskip

/-- **A call** does what it does without the world. -/
theorem apply (h : Mirrors f view bf Q) (hw : Q w) (hp : Reflects view bf it p) {op : Op κ}
    (hop : it.apply f op w = some (it', w')) : Reflects view bf it' (Cursors.apply p op) ∧ Q w' := by
  have hcurrent : (Cursors.current p).isSome = it.dataCurrent.isSome := congrArg Option.isSome (h.dataCurrent hp)
  cases op with
  | seek t =>
    obtain ⟨⟨opened, w₁⟩, hinit, hskip⟩ := Option.bind_eq_some_iff.1 hop
    obtain ⟨hp₁, hw₁⟩ := h.initDataBlock hw (Reflects.onIndex hp _) hinit
    exact h.skipForward hw₁ (h.onData hp₁ (.seek t)) hskip
  | seekToFirst =>
    obtain ⟨⟨opened, w₁⟩, hinit, hskip⟩ := Option.bind_eq_some_iff.1 hop
    obtain ⟨hp₁, hw₁⟩ := h.initDataBlock hw (Reflects.onIndex hp _) hinit
    exact h.skipForward hw₁ (h.onData hp₁ .seekToFirst) hskip
  | seekToLast =>
    obtain ⟨⟨opened, w₁⟩, hinit, hskip⟩ := Option.bind_eq_some_iff.1 hop
    obtain ⟨hp₁, hw₁⟩ := h.initDataBlock hw (Reflects.onIndex hp _) hinit
    exact h.skipBackward hw₁ (h.onData hp₁ .seekToLast) hskip
  | next =>
    rw [OwningIterator.apply] at hop
    rw [Cursors.apply, hcurrent]
    split at hop
    · rename_i hvalid
      rw [if_pos hvalid]
      exact h.skipForward hw (h.onData hp .next) hop
    · rename_i hinvalid
      rw [if_neg hinvalid]
      obtain ⟨rfl, rfl⟩ := Prod.mk.inj (Option.some.inj hop)
      exact ⟨hp, hw⟩
  | prev =>
    rw [OwningIterator.apply] at hop
    rw [Cursors.apply, hcurrent]
    split at hop
    · rename_i hvalid
      rw [if_pos hvalid]
      exact h.skipBackward hw (h.onData hp .prev) hop
    · rename_i hinvalid
      rw [if_neg hinvalid]
      obtain ⟨rfl, rfl⟩ := Prod.mk.inj (Option.some.inj hop)
      exact ⟨hp, hw⟩

end Mirrors

end Reflects

/-! ## Another block function -/

section Follows
variable {R : Type}

/-- A world that remembers the handles data iterators were made of. -/
structure Logs (f : DataIterators δ η ω) (log : ω → List η) : Prop where
  make : ∀ {handle : η} {w w' : ω} {d : δ}, f.make handle w = some (d, w') → log w' = log w ++ [handle]
  delete : ∀ {d : δ} {w w' : ω}, f.delete d w = some w' → log w' = log w

/-- From `w` on `run` ends in `w'` with `r`, and so it does for any other block function that makes the same iterators
of the handles on the way. -/
structure Follows (f : DataIterators δ η ω) (log : ω → List η) (w w' : ω) (run : DataIterators δ η ω → Option R)
    (r : R) : Prop where
  grows : log w <+: log w'
  follows : ∀ g : DataIterators δ η ω, g.delete = f.delete →
    (∀ handle ∈ (log w').drop (log w).length, g.make handle = f.make handle) → run g = some r

variable {f : DataIterators δ η ω} {log : ω → List η} {w w₁ w' : ω} {S : Type}

/-- One thing after the other. -/
theorem Follows.bind {first : DataIterators δ η ω → Option S} {s : S} {k : S → DataIterators δ η ω → Option R} {r : R}
    (hfirst : Follows f log w w₁ first s) (hrest : Follows f log w₁ w' (k s) r) :
    Follows f log w w' (fun g => (first g).bind fun s => k s g) r := by
  refine ⟨hfirst.grows.trans hrest.grows, fun g hdelete hmake => ?_⟩
  obtain ⟨made, hmade⟩ := hfirst.grows
  obtain ⟨later, hlater⟩ := hrest.grows
  have hdrop : (log w').drop (log w).length = made ++ later := by
    rw [← hlater, ← hmade, List.append_assoc, List.drop_left]
  have hs : first g = some s := by
    refine hfirst.follows g hdelete fun handle hmem => hmake handle ?_
    rw [← hmade, List.drop_left] at hmem
    rw [hdrop]
    exact List.mem_append_left later hmem
  have hr : k s g = some r := by
    refine hrest.follows g hdelete fun handle hmem => hmake handle ?_
    rw [← hlater, List.drop_left] at hmem
    rw [hdrop]
    exact List.mem_append_right made hmem
  rw [hs]
  exact hr

namespace Logs

variable {it it' : OwningIterator ι δ η}

theorem setDataIterator (h : Logs f log) {d : Option δ} (hset : it.setDataIterator f d w = some (it', w')) :
    Follows f log w w' (fun g => it.setDataIterator g d w) (it', w') := by
  refine ⟨?_, fun g hdelete _ => ?_⟩
  · unfold OwningIterator.setDataIterator at hset
    cases hdata : it.dataIter with
    | none =>
      rw [hdata] at hset
      obtain ⟨-, rfl⟩ := Prod.mk.inj (Option.some.inj hset)
      exact List.prefix_rfl
    | some old =>
      rw [hdata] at hset
      obtain ⟨w₁, hold, hset⟩ := Option.bind_eq_some_iff.1 hset
      obtain ⟨-, rfl⟩ := Prod.mk.inj (Option.some.inj hset)
      rw [h.delete hold]
  · rw [← hset]
    simp only [OwningIterator.setDataIterator, hdelete]

variable [IndexIterator ι κ η] [DecidableEq η]

theorem initDataBlock (h : Logs f log) (hinit : it.initDataBlock f w = some (it', w')) :
    Follows f log w w' (fun g => it.initDataBlock g w) (it', w') := by
  unfold OwningIterator.initDataBlock at hinit ⊢
  cases hindex : current it.indexIter with
  | none =>
    rw [hindex] at hinit
    exact h.setDataIterator hinit
  | some e =>
    rw [hindex] at hinit
    dsimp only at hinit ⊢
    split at hinit
    · rename_i hsame
      obtain ⟨rfl, rfl⟩ := Prod.mk.inj (Option.some.inj hinit)
      exact ⟨List.prefix_rfl, fun g _ _ => if_pos hsame⟩
    · rename_i hother
      obtain ⟨⟨d, w₁⟩, hmake, hset⟩ := Option.bind_eq_some_iff.1 hinit
      have hmade : Follows f log w w₁ (fun g => g.make e.2 w) (d, w₁) := by
        refine ⟨by rw [h.make hmake]; exact List.prefix_append _ _, fun g _ hsame => ?_⟩
        rw [← hmake]
        exact congrFun (hsame e.2 (by simp [h.make hmake])) w
      have hboth : Follows f log w w' (fun g => (g.make e.2 w).bind fun s =>
          { it with dataBlockHandle := some e.2 }.setDataIterator g (some s.1) s.2) (it', w') :=
        hmade.bind (h.setDataIterator hset)
      refine ⟨hboth.grows, fun g hdelete hsame => ?_⟩
      rw [if_neg hother]
      exact hboth.follows g hdelete hsame

theorem skipForward (h : Logs f log) (hskip : it.skipEmptyDataBlocksForward f w = some (it', w')) :
    Follows f log w w' (fun g => it.skipEmptyDataBlocksForward g w) (it', w') := by
  fun_induction skipEmptyDataBlocksForward f it w with
  | case1 it w hdata =>
    obtain ⟨rfl, rfl⟩ := Prod.mk.inj (Option.some.inj hskip)
    exact ⟨List.prefix_rfl, fun g _ _ => by rw [skipEmptyDataBlocksForward, if_pos hdata]⟩
  | case2 => cases hskip
  | case3 it w hdata hindex opened w₁ hinit ih =>
    have hturn := (h.initDataBlock hinit).bind (k := fun s g => (s.1.onData seekToFirst).skipEmptyDataBlocksForward g s.2)
      (ih hskip)
    refine ⟨hturn.grows, fun g hdelete hsame => ?_⟩
    rw [skipForward_eq g hdata hindex]
    exact hturn.follows g hdelete hsame
  | case4 it w hdata hindex =>
    have hclose := h.setDataIterator hskip
    refine ⟨hclose.grows, fun g hdelete hsame => ?_⟩
    rw [skipEmptyDataBlocksForward, if_neg hdata, dif_neg hindex]
    exact hclose.follows g hdelete hsame

theorem skipBackward (h : Logs f log) (hskip : it.skipEmptyDataBlocksBackward f w = some (it', w')) :
    Follows f log w w' (fun g => it.skipEmptyDataBlocksBackward g w) (it', w') := by
  fun_induction skipEmptyDataBlocksBackward f it w with
  | case1 it w hdata =>
    obtain ⟨rfl, rfl⟩ := Prod.mk.inj (Option.some.inj hskip)
    exact ⟨List.prefix_rfl, fun g _ _ => by rw [skipEmptyDataBlocksBackward, if_pos hdata]⟩
  | case2 => cases hskip
  | case3 it w hdata hindex opened w₁ hinit ih =>
    have hturn := (h.initDataBlock hinit).bind (k := fun s g => (s.1.onData seekToLast).skipEmptyDataBlocksBackward g s.2)
      (ih hskip)
    refine ⟨hturn.grows, fun g hdelete hsame => ?_⟩
    rw [skipBackward_eq g hdata hindex]
    exact hturn.follows g hdelete hsame
  | case4 it w hdata hindex =>
    have hclose := h.setDataIterator hskip
    refine ⟨hclose.grows, fun g hdelete hsame => ?_⟩
    rw [skipEmptyDataBlocksBackward, if_neg hdata, dif_neg hindex]
    exact hclose.follows g hdelete hsame

/-- **A call.** -/
theorem apply (h : Logs f log) {op : Op κ} (hop : it.apply f op w = some (it', w')) :
    Follows f log w w' (fun g => it.apply g op w) (it', w') := by
  cases op with
  | seek t =>
    obtain ⟨⟨opened, w₁⟩, hinit, hskip⟩ := Option.bind_eq_some_iff.1 hop
    exact (h.initDataBlock hinit).bind (k := fun s g => (s.1.onData (seek · t)).skipEmptyDataBlocksForward g s.2)
      (h.skipForward hskip)
  | seekToFirst =>
    obtain ⟨⟨opened, w₁⟩, hinit, hskip⟩ := Option.bind_eq_some_iff.1 hop
    exact (h.initDataBlock hinit).bind (k := fun s g => (s.1.onData seekToFirst).skipEmptyDataBlocksForward g s.2)
      (h.skipForward hskip)
  | seekToLast =>
    obtain ⟨⟨opened, w₁⟩, hinit, hskip⟩ := Option.bind_eq_some_iff.1 hop
    exact (h.initDataBlock hinit).bind (k := fun s g => (s.1.onData seekToLast).skipEmptyDataBlocksBackward g s.2)
      (h.skipBackward hskip)
  | next =>
    simp only [OwningIterator.apply] at hop ⊢
    by_cases hvalid : it.dataCurrent.isSome = true
    · simp only [if_pos hvalid] at hop ⊢
      exact h.skipForward hop
    · simp only [if_neg hvalid] at hop ⊢
      obtain ⟨rfl, rfl⟩ := Prod.mk.inj (Option.some.inj hop)
      exact ⟨List.prefix_rfl, fun _ _ _ => rfl⟩
  | prev =>
    simp only [OwningIterator.apply] at hop ⊢
    by_cases hvalid : it.dataCurrent.isSome = true
    · simp only [if_pos hvalid] at hop ⊢
      exact h.skipBackward hop
    · simp only [if_neg hvalid] at hop ⊢
      obtain ⟨rfl, rfl⟩ := Prod.mk.inj (Option.some.inj hop)
      exact ⟨List.prefix_rfl, fun _ _ _ => rfl⟩

end Logs

end Follows

end OwningIterator

end LevelDbSurf
