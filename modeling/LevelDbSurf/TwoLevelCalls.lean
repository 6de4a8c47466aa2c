import LevelDbSurf.VersionIterators

/-!
# The calls of a `TwoLevelIterator`, state by state (`two_level_iterator.cc:40-161`)

| here | there |
| --- | --- |
| `skipForwardWithin`, `skipBackwardWithin` | the two skip loops, given up after so many turns |
| `forwardStates`, `backwardStates`, `callStates` | the states a loop, or a call, goes through |
| `Failed` | an error is in `status_`, or the open data iterator reports one |

A data iterator that is replaced hands its error to `status_`, and one that stays keeps it, so an error that
is there in the middle of a call is there after it and ever after (`Failed.run`).
-/

namespace LevelDbSurf

open Cursors

section Calls
variable {σ τ κ ν : Type} [Iterator σ κ ν] [Iterator τ κ ν]

/-- A call, allowed or not. -/
def call (s : σ) : Op κ → σ
  | .seek t => seek s t
  | .seekToFirst => seekToFirst s
  | .seekToLast => seekToLast s
  | .next => next s
  | .prev => prev s

/-- An iterator that has reported an error reports one after every call. -/
def StickyErrors (σ : Type) {κ ν : Type} [Iterator σ κ ν] : Prop :=
  ∀ (s : σ) (op : Op κ), (Iterator.status s).isOk = false → (Iterator.status (call s op)).isOk = false

/-- The status of an iterator over entries in memory never changes. -/
theorem BlockIter.stickyErrors {κ ν : Type} [LinearOrder κ] : StickyErrors (BlockIter κ ν) := by
  intro s op h
  cases op <;> exact h

theorem StickyErrors.sum (hs : StickyErrors σ) (ht : StickyErrors τ) : StickyErrors (σ ⊕ τ) := by
  rintro (s | s) op h
  · have hcall := hs s op h
    cases op <;> exact hcall
  · have hcall := ht s op h
    cases op <;> exact hcall

end Calls

namespace TwoLevelIterator

variable {ι δ η κ ν : Type} [Iterator δ κ ν] [IndexIterator ι κ η] [DecidableEq η]

/-! ## The skip loops end -/

/-- `SkipEmptyDataBlocksForward`, given up after `n` turns. -/
def skipForwardWithin : Nat → TwoLevelIterator ι δ η → Option (TwoLevelIterator ι δ η)
  | 0, _ => none
  | n + 1, it =>
    if it.dataCurrent.isSome then some it
    else if (current it.indexIter).isSome then
      skipForwardWithin n ((it.onIndex next).initDataBlock.onData seekToFirst)
    else some (it.setDataIterator none)

/-- `SkipEmptyDataBlocksBackward`, given up after `n` turns. -/
def skipBackwardWithin : Nat → TwoLevelIterator ι δ η → Option (TwoLevelIterator ι δ η)
  | 0, _ => none
  | n + 1, it =>
    if it.dataCurrent.isSome then some it
    else if (current it.indexIter).isSome then
      skipBackwardWithin n ((it.onIndex prev).initDataBlock.onData seekToLast)
    else some (it.setDataIterator none)

section Turns
variable [LinearOrder κ] {I : List (κ × η)} {it : TwoLevelIterator ι δ η} {i n : Nat}

/-- Each turn forward leaves an index entry behind. -/
theorem skipForwardWithin_eq (hi : Tracks I it.indexIter i) (hn : I.length - i < n) :
    skipForwardWithin n it = some it.skipEmptyDataBlocksForward := by
  induction n generalizing it i with
  | zero => omega
  | succ n ih =>
    rw [skipForwardWithin, skipEmptyDataBlocksForward]
    by_cases hdata : it.dataCurrent.isSome = true
    · rw [if_pos hdata, if_pos hdata]
    rw [if_neg hdata, if_neg hdata]
    by_cases hvalid : (current it.indexIter).isSome = true
    · rw [if_pos hvalid, dif_pos hvalid]
      have hlt := hi.isSome.1 hvalid
      refine ih (i := i + 1) ?_ (by omega)
      rw [onData_indexIter, initDataBlock_indexIter]
      exact hi.next hlt
    · rw [if_neg hvalid, dif_neg hvalid]

/-- Each turn backward does so too, and the one from the first entry leaves the index invalid. -/
theorem skipBackwardWithin_eq (hi : Tracks I it.indexIter i) (hn : (if i < I.length then i + 1 else 0) < n) :
    skipBackwardWithin n it = some it.skipEmptyDataBlocksBackward := by
  induction n generalizing it i with
  | zero => omega
  | succ n ih =>
    rw [skipBackwardWithin, skipEmptyDataBlocksBackward]
    by_cases hdata : it.dataCurrent.isSome = true
    · rw [if_pos hdata, if_pos hdata]
    rw [if_neg hdata, if_neg hdata]
    by_cases hvalid : (current it.indexIter).isSome = true
    · rw [if_pos hvalid, dif_pos hvalid]
      have hlt := hi.isSome.1 hvalid
      rw [if_pos hlt] at hn
      refine ih (i := prevPos I i) ?_ ?_
      · rw [onData_indexIter, initDataBlock_indexIter]
        exact hi.prev hlt
      · unfold prevPos
        by_cases h0 : i = 0
        · simp only [h0, if_true, Nat.lt_irrefl, if_false]
          omega
        · rw [if_neg h0]
          split <;> omega
    · rw [if_neg hvalid, dif_neg hvalid]

end Turns

/-! ## What every step keeps -/

/-- Kept by moving either iterator, by `InitDataBlock`, and by closing the data iterator. -/
structure Kept (P : TwoLevelIterator ι δ η → Prop) : Prop where
  onIndex : ∀ it op, P it → P (it.onIndex (call · op))
  onData : ∀ it op, P it → P (it.onData (call · op))
  initDataBlock : ∀ it, P it → P it.initDataBlock
  close : ∀ it, P it → P (it.setDataIterator none)

/-- The states the forward loop goes through: at each test of its condition, and after each opening of a
data iterator. -/
def forwardStates (it : TwoLevelIterator ι δ η) : List (TwoLevelIterator ι δ η) :=
  if it.dataCurrent.isSome then [it]
  else if _h : (current it.indexIter).isSome then
    it :: (it.onIndex next).initDataBlock :: forwardStates ((it.onIndex next).initDataBlock.onData seekToFirst)
  else [it]
termination_by ahead it.indexIter
decreasing_by
  simp only [onData_indexIter, initDataBlock_indexIter]
  exact FiniteCursor.ahead_next _ _h

/-- Those of the backward loop. -/
def backwardStates (it : TwoLevelIterator ι δ η) : List (TwoLevelIterator ι δ η) :=
  if it.dataCurrent.isSome then [it]
  else if _h : (current it.indexIter).isSome then
    it :: (it.onIndex prev).initDataBlock :: backwardStates ((it.onIndex prev).initDataBlock.onData seekToLast)
  else [it]
termination_by behind it.indexIter
decreasing_by
  simp only [onData_indexIter, initDataBlock_indexIter]
  exact FiniteCursor.behind_prev _ _h

/-- The states a call goes through before it returns. -/
def callStates (it : TwoLevelIterator ι δ η) : Op κ → List (TwoLevelIterator ι δ η)
  | .seek t =>
    let opened := (it.onIndex (seek · t)).initDataBlock
    it :: opened :: forwardStates (opened.onData (seek · t))
  | .seekToFirst =>
    let opened := (it.onIndex seekToFirst).initDataBlock
    it :: opened :: forwardStates (opened.onData seekToFirst)
  | .seekToLast =>
    let opened := (it.onIndex seekToLast).initDataBlock
    it :: opened :: backwardStates (opened.onData seekToLast)
  | .next => it :: if it.dataCurrent.isSome then forwardStates (it.onData next) else []
  | .prev => it :: if it.dataCurrent.isSome then backwardStates (it.onData prev) else []

namespace Kept

variable {P : TwoLevelIterator ι δ η → Prop} {it mid : TwoLevelIterator ι δ η}

theorem skipForward (h : Kept P) (hit : P it) : P it.skipEmptyDataBlocksForward := by
  fun_induction skipEmptyDataBlocksForward it with
  | case1 it _ => exact hit
  | case2 it _ _ ih => exact ih (h.onData _ .seekToFirst (h.initDataBlock _ (h.onIndex it .next hit)))
  | case3 it _ _ => exact h.close it hit

theorem skipBackward (h : Kept P) (hit : P it) : P it.skipEmptyDataBlocksBackward := by
  fun_induction skipEmptyDataBlocksBackward it with
  | case1 it _ => exact hit
  | case2 it _ _ ih => exact ih (h.onData _ .seekToLast (h.initDataBlock _ (h.onIndex it .prev hit)))
  | case3 it _ _ => exact h.close it hit

/-- **One call.** -/
theorem call (h : Kept P) (hit : P it) (op : Op κ) : P (LevelDbSurf.call it op) := by
  have hopen := h.initDataBlock _ (h.onIndex it op hit)
  cases op with
  | seek t => exact h.skipForward (h.onData _ (.seek t) hopen)
  | seekToFirst => exact h.skipForward (h.onData _ .seekToFirst hopen)
  | seekToLast => exact h.skipBackward (h.onData _ .seekToLast hopen)
  | next => exact h.skipForward (h.onData _ .next hit)
  | prev => exact h.skipBackward (h.onData _ .prev hit)

theorem apply (h : Kept P) (hit : P it) (op : Op κ) : P (Cursors.apply it op) := by
  have hcall := h.call hit op
  cases op with
  | seek t => exact hcall
  | seekToFirst => exact hcall
  | seekToLast => exact hcall
  | next =>
    rw [Cursors.apply]
    split
    · exact hcall
    · exact hit
  | prev =>
    rw [Cursors.apply]
    split
    · exact hcall
    · exact hit

/-- **A run of calls.** -/
theorem run (h : Kept P) (hit : P it) (ops : List (Op κ)) : P (Cursors.run it ops) := by
  induction ops generalizing it with
  | nil => exact hit
  | cons op ops ih => exact ih (h.apply hit op)

/-- What holds on the way through the forward loop holds when it ends. -/
theorem of_forwardStates (h : Kept P) (hmem : mid ∈ it.forwardStates) (hmid : P mid) :
    P it.skipEmptyDataBlocksForward := by
  fun_induction forwardStates it with
  | case1 it hdata =>
    rw [List.mem_singleton.1 hmem] at hmid
    exact h.skipForward hmid
  | case2 it hdata hindex ih =>
    rcases List.mem_cons.1 hmem with rfl | hmem
    · exact h.skipForward hmid
    rw [skipEmptyDataBlocksForward, if_neg hdata, dif_pos hindex]
    rcases List.mem_cons.1 hmem with rfl | hmem
    · exact h.skipForward (h.onData _ .seekToFirst hmid)
    · exact ih hmem
  | case3 it hdata hindex =>
    rw [List.mem_singleton.1 hmem] at hmid
    exact h.skipForward hmid

theorem of_backwardStates (h : Kept P) (hmem : mid ∈ it.backwardStates) (hmid : P mid) :
    P it.skipEmptyDataBlocksBackward := by
  fun_induction backwardStates it with
  | case1 it hdata =>
    rw [List.mem_singleton.1 hmem] at hmid
    exact h.skipBackward hmid
  | case2 it hdata hindex ih =>
    rcases List.mem_cons.1 hmem with rfl | hmem
    · exact h.skipBackward hmid
    rw [skipEmptyDataBlocksBackward, if_neg hdata, dif_pos hindex]
    rcases List.mem_cons.1 hmem with rfl | hmem
    · exact h.skipBackward (h.onData _ .seekToLast hmid)
    · exact ih hmem
  | case3 it hdata hindex =>
    rw [List.mem_singleton.1 hmem] at hmid
    exact h.skipBackward hmid

/-- **What holds in the middle of a call holds after it.** -/
theorem of_callStates (h : Kept P) {op : Op κ} (hmem : mid ∈ it.callStates op) (hmid : P mid) :
    P (Cursors.apply it op) := by
  cases op with
  | seek t =>
    simp only [callStates, List.mem_cons] at hmem
    rcases hmem with rfl | rfl | hmem
    · exact h.apply hmid (.seek t)
    · exact h.skipForward (h.onData _ (.seek t) hmid)
    · exact h.of_forwardStates hmem hmid
  | seekToFirst =>
    simp only [callStates, List.mem_cons] at hmem
    rcases hmem with rfl | rfl | hmem
    · exact h.apply hmid .seekToFirst
    · exact h.skipForward (h.onData _ .seekToFirst hmid)
    · exact h.of_forwardStates hmem hmid
  | seekToLast =>
    simp only [callStates, List.mem_cons] at hmem
    rcases hmem with rfl | rfl | hmem
    · exact h.apply hmid .seekToLast
    · exact h.skipBackward (h.onData _ .seekToLast hmid)
    · exact h.of_backwardStates hmem hmid
  | next =>
    rcases List.mem_cons.1 hmem with rfl | hmem
    · exact h.apply hmid .next
    by_cases hdata : it.dataCurrent.isSome = true
    · rw [if_pos hdata] at hmem
      have happly : Cursors.apply it .next = (it.onData next).skipEmptyDataBlocksForward := if_pos hdata
      rw [happly]
      exact h.of_forwardStates hmem hmid
    · rw [if_neg hdata] at hmem
      cases hmem
  | prev =>
    rcases List.mem_cons.1 hmem with rfl | hmem
    · exact h.apply hmid .prev
    by_cases hdata : it.dataCurrent.isSome = true
    · rw [if_pos hdata] at hmem
      have happly : Cursors.apply it .prev = (it.onData prev).skipEmptyDataBlocksBackward := if_pos hdata
      rw [happly]
      exact h.of_backwardStates hmem hmid
    · rw [if_neg hdata] at hmem
      cases hmem

end Kept

/-! ## Errors stay -/

/-- An error is remembered, or the open data iterator reports one. -/
def Failed (it : TwoLevelIterator ι δ η) : Prop :=
  it.status.isOk = false ∨ ∃ d, it.dataIter = some d ∧ (Iterator.status d).isOk = false

section Failed
variable {it : TwoLevelIterator ι δ η}

/-- `status()`: the index's error, or else the data iterators'. -/
theorem status_isOk_iff :
    (Iterator.status it).isOk = false ↔ (Iterator.status it.indexIter).isOk = false ∨ it.Failed := by
  have hstatus : Iterator.status it = if !(Iterator.status it.indexIter).isOk then Iterator.status it.indexIter
      else it.dataIter.elim it.status fun d => if !(Iterator.status d).isOk then Iterator.status d else it.status := by
    obtain ⟨_, _, _ | _⟩ := it <;> rfl
  rw [hstatus, Failed]
  by_cases hindex : (Iterator.status it.indexIter).isOk = true
  · cases it.dataIter with
    | none => simp [hindex]
    | some d => by_cases herror : (Iterator.status d).isOk = true <;> simp [hindex, herror]
  · simp [hindex]

omit [IndexIterator ι κ η] [DecidableEq η] in
/-- **`SetDataIterator`** saves the error of the iterator it replaces. -/
theorem Failed.setDataIterator (h : it.Failed) (d : Option δ) : (it.setDataIterator d).Failed := by
  left
  unfold TwoLevelIterator.setDataIterator saveError
  rcases h with hstatus | ⟨old, hold, herror⟩
  · cases it.dataIter <;> simp [hstatus]
  · rw [hold]
    by_cases hstatus : it.status.isOk = true <;> simp [hstatus, herror]

/-- **`InitDataBlock`** keeps an error. -/
theorem Failed.initDataBlock (h : it.Failed) : it.initDataBlock.Failed := by
  unfold TwoLevelIterator.initDataBlock
  cases current it.indexIter with
  | none => exact h.setDataIterator none
  | some e =>
    dsimp only
    split
    · exact h
    · have hit : ({ it with dataBlockHandle := some e.2, requests := it.requests ++ [e.2] } :
          TwoLevelIterator ι δ η).Failed := h
      exact hit.setDataIterator _

theorem kept_failed (hd : StickyErrors δ) : Kept (Failed (ι := ι) (δ := δ) (η := η)) where
  onIndex _ _ h := h
  onData it op h := by
    refine h.imp id ?_
    rintro ⟨d, hdata, herror⟩
    exact ⟨call d op, by simp [onData, hdata], hd d op herror⟩
  initDataBlock _ h := h.initDataBlock
  close _ h := h.setDataIterator none

theorem kept_indexError (hi : StickyErrors ι) :
    Kept fun it : TwoLevelIterator ι δ η => (Iterator.status it.indexIter).isOk = false where
  onIndex it op h := hi it.indexIter op h
  onData _ _ h := h
  initDataBlock it h := by rwa [initDataBlock_indexIter]
  close it h := by rwa [setDataIterator_indexIter]

end Failed

/-- Errors of a `TwoLevelIterator` stay if those of its index and of its data iterators do. -/
theorem stickyErrors (hi : StickyErrors ι) (hd : StickyErrors δ) : StickyErrors (TwoLevelIterator ι δ η) := by
  intro it op h
  rw [status_isOk_iff] at h ⊢
  exact h.imp (fun hindex => (kept_indexError hi).call hindex op) fun hfailed => (kept_failed hd).call hfailed op

/-- `NewTwoLevelIterator`. -/
def newTwoLevelIterator (indexIter : ι) (blockFunction : η → δ) : TwoLevelIterator ι δ η :=
  { blockFunction, indexIter }

end TwoLevelIterator

open TwoLevelIterator

/-- So does an error of any block of any table of a level. -/
theorem ConcatenatingIterator.stickyErrors {α : Type} [LinearOrder α] [Coding] :
    StickyErrors (ConcatenatingIterator α) := by
  have hindex : StickyErrors (LevelFileNumIterator α) := by rintro it op ⟨⟩
  exact TwoLevelIterator.stickyErrors hindex
    ((TwoLevelIterator.stickyErrors BlockIter.stickyErrors BlockIter.stickyErrors).sum BlockIter.stickyErrors)

/-- **A flat iterator.** Over an index whose keys separate the sequences behind its handles, whichever of
them are empty or end in an error: after any calls a new `TwoLevelIterator` shows what a cursor over their
concatenation shows; both skip loops end, after one turn more than there are index entries at most, from
every state whose index iterator is on the index, as it is after any calls; and once an opened data
iterator reports an error, even in the middle of a call, the status after this call and after all later
ones is an error. -/
theorem twoLevelIterator_flat {ι δ η κ ν : Type} [LinearOrder κ] [Iterator δ κ ν] [IndexIterator ι κ η]
    [DecidableEq η] (blockFunction : η → δ) (I : List (κ × η)) (seq : η → List (κ × ν)) (indexIter : ι) (i : Nat)
    (hindex : Tracks I indexIter i) (hopens : Opens blockFunction I seq) (hseparates : Separates I seq)
    (hsticky : StickyErrors δ) :
    behaviour (newTwoLevelIterator indexIter blockFunction) = cursor (flat I seq) ∧
    (∀ ops, ∃ j, Tracks I (run (newTwoLevelIterator indexIter blockFunction) ops).indexIter j) ∧
    (∀ (it : TwoLevelIterator ι δ η) j, Tracks I it.indexIter j →
      skipForwardWithin (I.length + 1) it = some it.skipEmptyDataBlocksForward ∧
      skipBackwardWithin (I.length + 1) it = some it.skipEmptyDataBlocksBackward) ∧
    ∀ ops op ops', ∀ mid ∈ (run (newTwoLevelIterator indexIter blockFunction) ops).callStates op,
      ∀ d, mid.dataIter = some d → (Iterator.status d).isOk = false →
        (Iterator.status (run (newTwoLevelIterator indexIter blockFunction) (ops ++ op :: ops'))).isOk = false := by
  have hnew : Stands blockFunction I seq (newTwoLevelIterator indexIter blockFunction) (flat I seq).length :=
    Or.inr ⟨i, ⟨rfl, hindex, rfl⟩, rfl⟩
  refine ⟨(tracks_flat hindex hopens hseparates).behaviour_eq, fun ops => ?_, fun it j hj => ⟨?_, ?_⟩, ?_⟩
  · obtain ⟨j, hcoherent⟩ := ((stands_simulates hopens hseparates).run hnew ops).coherent
    exact ⟨j, hcoherent.index⟩
  · exact skipForwardWithin_eq hj (by omega)
  · refine skipBackwardWithin_eq hj ?_
    split <;> omega
  · intro ops op ops' mid hmem d hdata herror
    have hafter := (kept_failed hsticky).of_callStates hmem (Or.inr ⟨d, hdata, herror⟩)
    have hrun : run (newTwoLevelIterator indexIter blockFunction) (ops ++ op :: ops') =
        run (apply (run (newTwoLevelIterator indexIter blockFunction) ops) op) ops' := by
      simp [run]
    rw [hrun]
    exact status_isOk_iff.2 (Or.inr ((kept_failed hsticky).run hafter ops'))

namespace SampleTwoLevel

/-- Three handles: entries that end in an error, none, and one more entry. -/
def seq : Nat → List (Nat × Unit)
  | 0 => [(1, ()), (2, ())]
  | 2 => [(7, ())]
  | _ => []

def blockFunction (handle : Nat) : BlockIter Nat Unit :=
  { entries := seq handle, extra := if handle = 0 then .corruption "bad block contents" else .ok }

def I : List (Nat × Nat) := [(3, 0), (5, 1), (8, 2)]

end SampleTwoLevel

/-- The error of the first data iterator is there when a later call is at the last one. -/
theorem twoLevelIterator_flat_sample :
    behaviour (newTwoLevelIterator (BlockIter.overEntries SampleTwoLevel.I) SampleTwoLevel.blockFunction) =
      cursor [(1, ()), (2, ()), (7, ())] ∧
    (Iterator.status (run (newTwoLevelIterator (BlockIter.overEntries SampleTwoLevel.I) SampleTwoLevel.blockFunction)
      ([] ++ .seekToFirst :: [.seekToLast]))).isOk = false := by
  have hindex : Tracks SampleTwoLevel.I (BlockIter.overEntries SampleTwoLevel.I) 3 :=
    ListCursor.tracks (BlockIter.overEntries SampleTwoLevel.I)
  obtain ⟨hflat, -, -, herror⟩ := twoLevelIterator_flat SampleTwoLevel.blockFunction SampleTwoLevel.I
    SampleTwoLevel.seq (BlockIter.overEntries SampleTwoLevel.I) 3 hindex
    (fun e _ => ListCursor.tracks (SampleTwoLevel.blockFunction e.2)) ⟨by decide, by decide⟩ BlockIter.stickyErrors
  refine ⟨hflat, herror [] .seekToFirst [.seekToLast] _ (List.mem_cons_of_mem _ List.mem_cons_self)
    (SampleTwoLevel.blockFunction 0) rfl rfl⟩

end LevelDbSurf
