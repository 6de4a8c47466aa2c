import LevelDbSurf.Format
import LevelDbSurf.Lib.Cursor

/-!
# `TwoLevelIterator` (`two_level_iterator.cc`)

An index iterator whose values are handles, and at most one open data iterator, made by
`block_function_` from the handle under the index iterator. The block function may make iterators
without entries (a pruned table, a damaged block), which the two skip loops pass over.

`tracks_flat`: over an index whose keys separate the data sequences, the object is a cursor over
their concatenation.
-/

namespace LevelDbSurf

open Cursors

/-- `Iterator` (`include/leveldb/iterator.h`): a cursor that also reports a status. -/
class Iterator (σ : Type) (κ ν : outParam Type) extends Cursor σ κ ν where
  status : σ → Status

/-- An index iterator: walking it ends. -/
class IndexIterator (σ : Type) (κ ν : outParam Type) extends Iterator σ κ ν, FiniteCursor σ κ ν

/-- The iterators over entries held in memory: `Block::Iter`, `NewEmptyIterator`, `NewErrorIterator`
(`table/block.cc`, `table/iterator.cc`), which `iterator.h` describes. -/
abbrev BlockIter (κ ν : Type) := ListCursor κ ν Status

namespace BlockIter
variable {κ ν : Type}

instance [LinearOrder κ] : IndexIterator (BlockIter κ ν) κ ν where
  status c := c.extra

/-- `Block::NewIterator`. -/
def overEntries (entries : List (κ × ν)) : BlockIter κ ν := { entries, extra := .ok }

theorem current_seek [LinearOrder κ] (entries : List (κ × ν)) (t : κ) :
    current (seek (overEntries entries) t) = entries[seekPos entries t]? := rfl

theorem status_seek [LinearOrder κ] (entries : List (κ × ν)) (t : κ) :
    Iterator.status (seek (overEntries entries) t) = .ok := rfl

/-- `NewEmptyIterator`. -/
def newEmptyIterator : BlockIter κ ν := { entries := [], extra := .ok }

/-- `NewErrorIterator`. -/
def newErrorIterator (s : Status) : BlockIter κ ν := { entries := [], extra := s }

end BlockIter

instance {σ τ κ ν : Type} [Iterator σ κ ν] [Iterator τ κ ν] : Iterator (σ ⊕ τ) κ ν where
  status := Sum.elim Iterator.status Iterator.status

/-- `TwoLevelIterator`. `requests` is not a field of the class: it records the handles
`block_function_` has been called with. -/
structure TwoLevelIterator (ι δ η : Type) where
  blockFunction : η → δ
  indexIter : ι
  dataIter : Option δ := none
  dataBlockHandle : Option η := none
  status : Status := .ok
  requests : List η := []

namespace TwoLevelIterator

variable {ι δ η κ ν : Type}

section Definitions

/-- `if (data_iter_.iter() != nullptr) data_iter_.f()`. -/
def onData (it : TwoLevelIterator ι δ η) (f : δ → δ) : TwoLevelIterator ι δ η :=
  { it with dataIter := it.dataIter.map f }

/-- `index_iter_.f()`. -/
def onIndex (it : TwoLevelIterator ι δ η) (f : ι → ι) : TwoLevelIterator ι δ η :=
  { it with indexIter := f it.indexIter }

/-- `SaveError`. -/
def saveError (it : TwoLevelIterator ι δ η) (s : Status) : TwoLevelIterator ι δ η :=
  if it.status.isOk && !s.isOk then { it with status := s } else it

variable [Iterator δ κ ν]

/-- `data_iter_.Valid()`, and its entry. -/
def dataCurrent (it : TwoLevelIterator ι δ η) : Option (κ × ν) := it.dataIter.bind current

/-- `SetDataIterator` (`:141`). -/
def setDataIterator (it : TwoLevelIterator ι δ η) (dataIter : Option δ) : TwoLevelIterator ι δ η :=
  let it := match it.dataIter with
    | some old => it.saveError (Iterator.status old)
    | none => it
  { it with dataIter }

variable [IndexIterator ι κ η] [DecidableEq η]

/-- `InitDataBlock` (`:146`). -/
def initDataBlock (it : TwoLevelIterator ι δ η) : TwoLevelIterator ι δ η :=
  match current it.indexIter with
  | none => it.setDataIterator none
  | some (_, handle) =>
    if it.dataIter.isSome && it.dataBlockHandle = some handle then it
    else
      let iter := it.blockFunction handle
      let it := { it with dataBlockHandle := some handle, requests := it.requests ++ [handle] }
      it.setDataIterator (some iter)

omit [Iterator δ κ ν] [IndexIterator ι κ η] [DecidableEq η] in
@[simp] theorem onData_indexIter (it : TwoLevelIterator ι δ η) (f : δ → δ) :
    (it.onData f).indexIter = it.indexIter := rfl

omit [IndexIterator ι κ η] [DecidableEq η] in
@[simp] theorem setDataIterator_indexIter (it : TwoLevelIterator ι δ η) (d : Option δ) :
    (it.setDataIterator d).indexIter = it.indexIter := by
  unfold setDataIterator saveError
  cases it.dataIter with
  | none => rfl
  | some old => dsimp only; split <;> rfl

omit [IndexIterator ι κ η] [DecidableEq η] in
theorem setDataIterator_fields (it : TwoLevelIterator ι δ η) (d : Option δ) :
    (it.setDataIterator d).blockFunction = it.blockFunction ∧
    (it.setDataIterator d).dataBlockHandle = it.dataBlockHandle ∧
    (it.setDataIterator d).dataIter = d := by
  unfold setDataIterator saveError
  cases it.dataIter with
  | none => exact ⟨rfl, rfl, rfl⟩
  | some old => dsimp only; split <;> exact ⟨rfl, rfl, rfl⟩

@[simp] theorem initDataBlock_indexIter (it : TwoLevelIterator ι δ η) :
    it.initDataBlock.indexIter = it.indexIter := by
  unfold initDataBlock
  cases current it.indexIter with
  | none => exact setDataIterator_indexIter _ _
  | some e =>
    dsimp only
    split
    · rfl
    · exact setDataIterator_indexIter _ _

/-- `SkipEmptyDataBlocksForward` (`:115`). -/
def skipEmptyDataBlocksForward (it : TwoLevelIterator ι δ η) : TwoLevelIterator ι δ η :=
  if it.dataCurrent.isSome then it
  else if _h : (current it.indexIter).isSome then
    skipEmptyDataBlocksForward ((it.onIndex next).initDataBlock.onData seekToFirst)
  else it.setDataIterator none
termination_by ahead it.indexIter
decreasing_by
  simp only [onData_indexIter, initDataBlock_indexIter]
  exact FiniteCursor.ahead_next _ _h

/-- `SkipEmptyDataBlocksBackward` (`:128`). -/
def skipEmptyDataBlocksBackward (it : TwoLevelIterator ι δ η) : TwoLevelIterator ι δ η :=
  if it.dataCurrent.isSome then it
  else if _h : (current it.indexIter).isSome then
    skipEmptyDataBlocksBackward ((it.onIndex prev).initDataBlock.onData seekToLast)
  else it.setDataIterator none
termination_by behind it.indexIter
decreasing_by
  simp only [onData_indexIter, initDataBlock_indexIter]
  exact FiniteCursor.behind_prev _ _h

instance : Iterator (TwoLevelIterator ι δ η) κ ν where
  current it := it.dataCurrent
  seek it t := ((it.onIndex (seek · t)).initDataBlock.onData (seek · t)).skipEmptyDataBlocksForward
  seekToFirst it :=
    ((it.onIndex seekToFirst).initDataBlock.onData seekToFirst).skipEmptyDataBlocksForward
  seekToLast it :=
    ((it.onIndex seekToLast).initDataBlock.onData seekToLast).skipEmptyDataBlocksBackward
  next it := (it.onData next).skipEmptyDataBlocksForward
  prev it := (it.onData prev).skipEmptyDataBlocksBackward
  status it :=
    if !(Iterator.status it.indexIter).isOk then Iterator.status it.indexIter
    else match it.dataIter with
      | some d => if !(Iterator.status d).isOk then Iterator.status d else it.status
      | none => it.status

end Definitions

/-! ## A flat iterator -/

section Concatenation
variable {I : List (κ × η)} {seq : η → List (κ × ν)}

/-- The concatenation of the sequences. -/
def flat (I : List (κ × η)) (seq : η → List (κ × ν)) : List (κ × ν) := I.flatMap fun e => seq e.2

/-- Where the sequence of index entry `i` starts in the concatenation. -/
def offset (I : List (κ × η)) (seq : η → List (κ × ν)) (i : Nat) : Nat := (flat (I.take i) seq).length

theorem offset_zero : offset I seq 0 = 0 := rfl

theorem offset_of_le {i : Nat} (h : I.length ≤ i) : offset I seq i = (flat I seq).length := by
  rw [offset, List.take_of_length_le h]

theorem offset_succ {i : Nat} {e : κ × η} (h : I[i]? = some e) :
    offset I seq (i + 1) = offset I seq i + (seq e.2).length := by
  obtain ⟨hi, he⟩ := List.getElem?_eq_some_iff.1 h
  have : I.take (i + 1) = I.take i ++ [e] := by rw [List.take_succ_eq_append_getElem hi, he]
  rw [offset, offset, this, flat, List.flatMap_append, List.length_append]
  simp [flat]

theorem flat_split {i : Nat} {e : κ × η} (h : I[i]? = some e) :
    flat I seq = flat (I.take i) seq ++ seq e.2 ++ flat (I.drop (i + 1)) seq := by
  obtain ⟨hi, he⟩ := List.getElem?_eq_some_iff.1 h
  have : I = I.take i ++ e :: I.drop (i + 1) := by
    rw [← he, ← List.drop_eq_getElem_cons hi, List.take_append_drop]
  conv_lhs => rw [this]
  simp [flat, List.flatMap_append]

theorem flat_get {i q : Nat} {e : κ × η} (h : I[i]? = some e) (hq : q < (seq e.2).length) :
    (flat I seq)[offset I seq i + q]? = (seq e.2)[q]? := by
  rw [flat_split h, List.append_assoc, List.getElem?_append_right (by rw [offset]; omega),
    List.getElem?_append_left (by rw [offset]; omega), offset, Nat.add_sub_cancel_left]

end Concatenation

section Flat
variable [Iterator δ κ ν] [IndexIterator ι κ η] [LinearOrder κ]
variable {bf : η → δ} {I : List (κ × η)} {seq : η → List (κ × ν)}

/-- The keys of the index separate the sequences behind its handles. -/
structure Separates (I : List (κ × η)) (seq : η → List (κ × ν)) : Prop where
  upper : ∀ e ∈ I, ∀ x ∈ seq e.2, x.1 ≤ e.1
  lower : I.Pairwise fun e f => ∀ x ∈ seq f.2, e.1 < x.1

/-- What the block function returns for the handles of the index. -/
def Opens (bf : η → δ) (I : List (κ × η)) (seq : η → List (κ × ν)) : Prop :=
  ∀ e ∈ I, Tracks (seq e.2) (bf e.2) (seq e.2).length

/-- Index at position `i`; the data iterator, if any, is over the block its handle names. -/
structure Coherent (bf : η → δ) (I : List (κ × η)) (seq : η → List (κ × ν))
    (it : TwoLevelIterator ι δ η) (i : Nat) : Prop where
  function : it.blockFunction = bf
  index : Tracks I it.indexIter i
  data : ∀ d, it.dataIter = some d → ∃ e ∈ I, it.dataBlockHandle = some e.2 ∧ ∃ q, Tracks (seq e.2) d q

/-- Index at entry `i`, and the data iterator at position `q` of its sequence. -/
structure AtBlock (bf : η → δ) (I : List (κ × η)) (seq : η → List (κ × ν))
    (it : TwoLevelIterator ι δ η) (i : Nat) (e : κ × η) (q : Nat) : Prop where
  function : it.blockFunction = bf
  index : Tracks I it.indexIter i
  entry : I[i]? = some e
  handle : it.dataBlockHandle = some e.2
  data : ∃ d, it.dataIter = some d ∧ Tracks (seq e.2) d q

/-- No data iterator is open. -/
structure Off (bf : η → δ) (I : List (κ × η)) (seq : η → List (κ × ν))
    (it : TwoLevelIterator ι δ η) (i : Nat) : Prop where
  function : it.blockFunction = bf
  index : Tracks I it.indexIter i
  data : it.dataIter = none

/-- What holds between calls, at position `p` of the concatenation. -/
def Stands (bf : η → δ) (I : List (κ × η)) (seq : η → List (κ × ν))
    (it : TwoLevelIterator ι δ η) (p : Nat) : Prop :=
  (∃ i e q, AtBlock bf I seq it i e q ∧ q < (seq e.2).length ∧ p = offset I seq i + q) ∨
  (∃ i, Off bf I seq it i ∧ p = (flat I seq).length)

theorem AtBlock.coherent {it : TwoLevelIterator ι δ η} {i q : Nat} {e : κ × η}
    (h : AtBlock bf I seq it i e q) : Coherent bf I seq it i := by
  obtain ⟨d, hd, hq⟩ := h.data
  refine ⟨h.function, h.index, fun d' hd' => ⟨e, List.mem_of_getElem? h.entry, h.handle, q, ?_⟩⟩
  rw [hd] at hd'
  cases hd'
  exact hq

theorem Off.coherent {it : TwoLevelIterator ι δ η} {i : Nat} (h : Off bf I seq it i) :
    Coherent bf I seq it i :=
  ⟨h.function, h.index, fun d hd => by rw [h.data] at hd; cases hd⟩

theorem Stands.coherent {it : TwoLevelIterator ι δ η} {p : Nat} (h : Stands bf I seq it p) :
    ∃ i, Coherent bf I seq it i := by
  rcases h with ⟨i, e, q, h, -⟩ | ⟨i, h, -⟩
  · exact ⟨i, h.coherent⟩
  · exact ⟨i, h.coherent⟩

/-- Moving the index iterator leaves the data iterator where it is. -/
theorem Coherent.onIndex {it : TwoLevelIterator ι δ η} {i j : Nat} {f : ι → ι}
    (h : Coherent bf I seq it i) (hf : Tracks I (f it.indexIter) j) :
    Coherent bf I seq (it.onIndex f) j :=
  ⟨h.function, hf, h.data⟩

theorem Coherent.setNone {it : TwoLevelIterator ι δ η} {i : Nat} (h : Coherent bf I seq it i) :
    Off bf I seq (it.setDataIterator none) i := by
  obtain ⟨hf, -, hd⟩ := setDataIterator_fields it none
  exact ⟨hf.trans h.function, by rw [setDataIterator_indexIter]; exact h.index, hd⟩

/-- Moving the data iterator. -/
theorem AtBlock.onData {it : TwoLevelIterator ι δ η} {i q r : Nat} {e : κ × η} {f : δ → δ}
    (h : AtBlock bf I seq it i e q) (hf : ∀ d, Tracks (seq e.2) d q → Tracks (seq e.2) (f d) r) :
    AtBlock bf I seq (it.onData f) i e r := by
  obtain ⟨d, hd, hq⟩ := h.data
  exact ⟨h.function, h.index, h.entry, h.handle, f d, by rw [TwoLevelIterator.onData, hd]; rfl, hf d hq⟩

omit [Iterator δ κ ν] in
theorem Off.onData {it : TwoLevelIterator ι δ η} {i : Nat} {f : δ → δ} (h : Off bf I seq it i) :
    Off bf I seq (it.onData f) i :=
  ⟨h.function, h.index, by rw [TwoLevelIterator.onData, h.data]; rfl⟩

theorem AtBlock.dataCurrent {it : TwoLevelIterator ι δ η} {i q : Nat} {e : κ × η}
    (h : AtBlock bf I seq it i e q) : it.dataCurrent = (seq e.2)[q]? := by
  obtain ⟨d, hd, hq⟩ := h.data
  rw [TwoLevelIterator.dataCurrent, hd]
  exact hq.current

theorem Off.dataCurrent {it : TwoLevelIterator ι δ η} {i : Nat} (h : Off bf I seq it i) :
    it.dataCurrent = none := by
  rw [TwoLevelIterator.dataCurrent, h.data]
  rfl

/-- `Seek` on the index leads to the block that holds the first entry at or after the target, or
to one from whose end the forward loop finds it. -/
theorem seekPos_flat (hs : Separates I seq) (t : κ) {e : κ × η} (h : I[seekPos I t]? = some e) :
    seekPos (flat I seq) t = offset I seq (seekPos I t) + seekPos (seq e.2) t := by
  obtain ⟨hi, he⟩ := List.getElem?_eq_some_iff.1 h
  have hle : t ≤ e.1 := by
    have := le_of_seekPos hi
    rwa [List.get_eq_getElem, he] at this
  -- everything in the blocks before lies below the target
  have hbefore : ∀ x ∈ flat (I.take (seekPos I t)) seq, x.1 < t := by
    intro x hx
    obtain ⟨f, hf, hx⟩ := List.mem_flatMap.1 hx
    obtain ⟨j, hj, hfj⟩ := List.mem_iff_getElem.1 hf
    rw [List.length_take] at hj
    rw [List.getElem_take] at hfj
    have hlt := lt_of_seekPos (L := I) (t := t) (i := j) (by omega) (by omega)
    rw [List.get_eq_getElem, hfj] at hlt
    exact lt_of_le_of_lt (hs.upper f (List.mem_of_mem_take hf) x hx) hlt
  rw [flat_split h, List.append_assoc, seekPos_append_right hbefore]
  congr 1
  by_cases hin : seekPos (seq e.2) t < (seq e.2).length
  · exact seekPos_append_left hin
  · -- the block ends below the target, and the next entry is past the index key
    have hall : ∀ x ∈ seq e.2, x.1 < t := by
      intro x hx
      obtain ⟨j, hj, rfl⟩ := List.mem_iff_getElem.1 hx
      exact lt_of_seekPos (by omega) hj
    have hafter : ∀ x ∈ flat (I.drop (seekPos I t + 1)) seq, t ≤ x.1 := by
      intro x hx
      obtain ⟨f, hf, hx⟩ := List.mem_flatMap.1 hx
      exact le_trans hle (pairwise_drop hs.lower h f hf x hx).le
    have hlen : seekPos (seq e.2) t = (seq e.2).length := by
      have := seekPos_le (seq e.2) t
      omega
    rw [seekPos_append_right hall, hlen, seekPos_eq (L := flat _ seq) (p := 0) (Nat.zero_le _) (by simp) hafter,
      Nat.add_zero]

theorem seekPos_flat_none (hs : Separates I seq) (t : κ) (h : I[seekPos I t]? = none) :
    seekPos (flat I seq) t = (flat I seq).length := by
  have hi : I.length ≤ seekPos I t := by simpa using h
  refine seekPos_eq (le_refl _) (fun x hx => ?_) (by simp)
  rw [List.take_length] at hx
  obtain ⟨f, hf, hx⟩ := List.mem_flatMap.1 hx
  obtain ⟨j, hj, rfl⟩ := List.mem_iff_getElem.1 hf
  exact lt_of_le_of_lt (hs.upper _ hf x hx) (lt_of_seekPos (by omega) hj)

variable [DecidableEq η]

/-- **`InitDataBlock`** opens the block under the index iterator, or closes the data iterator. -/
theorem Coherent.initDataBlock {it : TwoLevelIterator ι δ η} {i : Nat} (ho : Opens bf I seq)
    (h : Coherent bf I seq it i) :
    (∀ e, I[i]? = some e → ∃ q, AtBlock bf I seq it.initDataBlock i e q) ∧
    (I[i]? = none → Off bf I seq it.initDataBlock i) := by
  have hcur : current it.indexIter = I[i]? := h.index.current
  unfold TwoLevelIterator.initDataBlock
  rw [hcur]
  refine ⟨fun e he => ?_, fun he => ?_⟩
  · obtain ⟨k, handle⟩ := e
    have hmem := List.mem_of_getElem? he
    rw [he]
    dsimp only
    split
    · -- the iterator that is open already is over this very block
      rename_i hsame
      rw [Bool.and_eq_true, decide_eq_true_eq] at hsame
      obtain ⟨d, hd⟩ := Option.isSome_iff_exists.1 hsame.1
      obtain ⟨e', -, hh, q, hq⟩ := h.data d hd
      rw [hsame.2] at hh
      cases hh
      exact ⟨q, h.function, h.index, he, hsame.2, d, hd, hq⟩
    · obtain ⟨hf, hh, hd⟩ := setDataIterator_fields
        ({ it with dataBlockHandle := some handle, requests := it.requests ++ [handle] })
        (some (it.blockFunction handle))
      refine ⟨(seq handle).length, hf.trans h.function, by rw [setDataIterator_indexIter]; exact h.index, he,
        hh, _, hd, ?_⟩
      rw [h.function]
      exact ho _ hmem
  · rw [he]
    exact h.setNone

/-- **`SkipEmptyDataBlocksForward`** stays at the same position of the concatenation. -/
theorem AtBlock.skipForward {it : TwoLevelIterator ι δ η} {i q : Nat} {e : κ × η} (ho : Opens bf I seq)
    (h : AtBlock bf I seq it i e q) (hq : q ≤ (seq e.2).length) :
    Stands bf I seq it.skipEmptyDataBlocksForward (offset I seq i + q) := by
  -- by induction on the index entries that are left
  generalize hn : I.length - i = n
  induction n generalizing it i q e with
  | zero =>
    have := (List.getElem?_eq_some_iff.1 h.entry).1
    omega
  | succ n ih =>
    rw [skipEmptyDataBlocksForward, h.dataCurrent]
    by_cases hlt : q < (seq e.2).length
    · rw [if_pos (by simpa using hlt)]
      exact Or.inl ⟨i, e, q, h, hlt, rfl⟩
    · have hi : i < I.length := (List.getElem?_eq_some_iff.1 h.entry).1
      rw [if_neg (by simpa using hlt), dif_pos (h.index.isSome.2 hi)]
      have hnext := h.coherent.onIndex (h.index.next hi)
      have hoff : offset I seq i + q = offset I seq (i + 1) := by rw [offset_succ h.entry]; omega
      rw [hoff]
      cases he : I[i + 1]? with
      | some e' =>
        obtain ⟨q', hat⟩ := (hnext.initDataBlock ho).1 e' he
        exact ih (hat.onData fun d hd => hd.seekToFirst) (Nat.zero_le _) (by omega)
      | none =>
        have hoff' := (hnext.initDataBlock ho).2 he
        have hlast : I.length ≤ i + 1 := by simpa using he
        rw [skipEmptyDataBlocksForward, hoff'.onData.dataCurrent, if_neg (by simp),
          dif_neg (mt hoff'.onData.index.isSome.1 (by omega)), offset_of_le hlast]
        exact Or.inr ⟨_, hoff'.onData.coherent.setNone, rfl⟩

/-- Closing the data iterator at the end. -/
theorem Off.skipForward {it : TwoLevelIterator ι δ η} {i : Nat} (h : Off bf I seq it i)
    (hi : I.length ≤ i) : Stands bf I seq it.skipEmptyDataBlocksForward (flat I seq).length := by
  rw [skipEmptyDataBlocksForward, h.dataCurrent, if_neg (by simp),
    dif_neg (mt h.index.isSome.1 (by omega))]
  exact Or.inr ⟨i, h.coherent.setNone, rfl⟩

theorem Off.skipBackward {it : TwoLevelIterator ι δ η} {i : Nat} (h : Off bf I seq it i)
    (hi : I.length ≤ i) : Stands bf I seq it.skipEmptyDataBlocksBackward (flat I seq).length := by
  rw [skipEmptyDataBlocksBackward, h.dataCurrent, if_neg (by simp),
    dif_neg (mt h.index.isSome.1 (by omega))]
  exact Or.inr ⟨i, h.coherent.setNone, rfl⟩

/-- On an entry, the loops do nothing. -/
theorem AtBlock.skip_valid {it : TwoLevelIterator ι δ η} {i q : Nat} {e : κ × η}
    (h : AtBlock bf I seq it i e q) (hq : q < (seq e.2).length) :
    Stands bf I seq it.skipEmptyDataBlocksBackward (offset I seq i + q) := by
  rw [skipEmptyDataBlocksBackward, h.dataCurrent, if_pos (by simpa using hq)]
  exact Or.inl ⟨i, e, q, h, hq, rfl⟩

/-- **`SkipEmptyDataBlocksBackward`** from past a block's end goes to the last entry before the
block. -/
theorem AtBlock.skipBackward {it : TwoLevelIterator ι δ η} {i : Nat} {e : κ × η} (ho : Opens bf I seq)
    (h : AtBlock bf I seq it i e (seq e.2).length) :
    Stands bf I seq it.skipEmptyDataBlocksBackward (prevPos (flat I seq) (offset I seq i)) := by
  -- by induction on the index position
  induction i generalizing it e with
  | zero =>
    have hi : 0 < I.length := (List.getElem?_eq_some_iff.1 h.entry).1
    rw [skipEmptyDataBlocksBackward, h.dataCurrent, if_neg (by simp), dif_pos (h.index.isSome.2 hi)]
    have hprev := h.coherent.onIndex (h.index.prev hi)
    have hoff := (hprev.initDataBlock ho).2 (by simp [prevPos])
    rw [offset_zero, prevPos, if_pos rfl]
    exact hoff.onData.skipBackward (by simp [prevPos])
  | succ i ih =>
    have hi : i + 1 < I.length := (List.getElem?_eq_some_iff.1 h.entry).1
    rw [skipEmptyDataBlocksBackward, h.dataCurrent, if_neg (by simp), dif_pos (h.index.isSome.2 hi)]
    have hprev := h.coherent.onIndex (h.index.prev hi)
    rw [prevPos, if_neg (Nat.succ_ne_zero i), Nat.add_sub_cancel] at hprev
    have he : I[i]? = some I[i] := List.getElem?_eq_getElem (by omega)
    obtain ⟨q, hat⟩ := (hprev.initDataBlock ho).1 _ he
    have hat := hat.onData fun d hd => hd.seekToLast
    have hoff : offset I seq (i + 1) = offset I seq i + (seq I[i].2).length := offset_succ he
    by_cases hne : (seq I[i].2).length = 0
    · -- an empty block: on to the one before it
      have hlast : lastPos (seq I[i].2) = (seq I[i].2).length := by rw [lastPos, hne]
      rw [hlast] at hat
      have := ih hat
      rwa [show offset I seq (i + 1) = offset I seq i by omega]
    · have hlast : lastPos (seq I[i].2) < (seq I[i].2).length := by unfold lastPos; omega
      have := hat.skip_valid hlast
      have hpos : prevPos (flat I seq) (offset I seq (i + 1)) =
          offset I seq i + lastPos (seq I[i].2) := by
        rw [prevPos, if_neg (by omega), lastPos]
        omega
      rwa [hpos]

/-- **One call**: between calls the object stands at a position of the concatenation. -/
theorem stands_simulates (ho : Opens bf I seq) (hs : Separates I seq) :
    Simulates (flat I seq) (Stands (ι := ι) bf I seq) where
  current := by
    rintro it p (⟨i, e, q, h, hq, rfl⟩ | ⟨i, h, rfl⟩)
    · rw [flat_get h.entry hq]
      exact h.dataCurrent
    · rw [List.getElem?_eq_none (le_refl _)]
      exact h.dataCurrent
  seek := by
    intro it p t h
    obtain ⟨i, hc⟩ := h.coherent
    have hc := hc.onIndex (f := (Cursors.seek · t)) (hc.index.seek t)
    cases he : I[seekPos I t]? with
    | some e =>
      obtain ⟨q, hat⟩ := (hc.initDataBlock ho).1 e he
      rw [seekPos_flat hs t he]
      exact (hat.onData fun d hd => hd.seek t).skipForward ho (seekPos_le _ _)
    | none =>
      rw [seekPos_flat_none hs t he]
      exact ((hc.initDataBlock ho).2 he).onData.skipForward (by simpa using he)
  seekToFirst := by
    intro it p h
    obtain ⟨i, hc⟩ := h.coherent
    have hc := hc.onIndex hc.index.seekToFirst
    cases he : I[0]? with
    | some e =>
      obtain ⟨q, hat⟩ := (hc.initDataBlock ho).1 e he
      have := (hat.onData fun d hd => hd.seekToFirst).skipForward ho (Nat.zero_le _)
      rwa [offset_zero] at this
    | none =>
      have hnil : I = [] := by simpa using he
      have := ((hc.initDataBlock ho).2 he).onData (f := seekToFirst) |>.skipForward (by simp [hnil])
      rwa [show (flat I seq).length = 0 by simp [hnil, flat]] at this
  seekToLast := by
    intro it p h
    obtain ⟨i, hc⟩ := h.coherent
    have hc := hc.onIndex hc.index.seekToLast
    cases he : I[lastPos I]? with
    | some e =>
      obtain ⟨q, hat⟩ := (hc.initDataBlock ho).1 e he
      have hat := hat.onData fun d hd => hd.seekToLast
      have hi := (List.getElem?_eq_some_iff.1 he).1
      have hend : offset I seq (lastPos I) + (seq e.2).length = (flat I seq).length := by
        rw [← offset_succ he, offset_of_le (by unfold lastPos; omega)]
      by_cases hne : (seq e.2).length = 0
      · have hlast : lastPos (seq e.2) = (seq e.2).length := by rw [lastPos, hne]
        rw [hlast] at hat
        have := hat.skipBackward ho
        have hpos : prevPos (flat I seq) (offset I seq (lastPos I)) = lastPos (flat I seq) := by
          unfold prevPos
          rw [lastPos.eq_def (flat I seq)]
          split <;> omega
        rwa [hpos] at this
      · have := hat.skip_valid (by unfold lastPos; omega)
        have hpos : offset I seq (lastPos I) + lastPos (seq e.2) = lastPos (flat I seq) := by
          rw [lastPos.eq_def (seq e.2), lastPos.eq_def (flat I seq)]
          omega
        rwa [hpos] at this
    | none =>
      have hnil : I = [] := by
        have : I.length ≤ lastPos I := by simpa using he
        unfold lastPos at this
        exact List.length_eq_zero_iff.1 (by omega)
      have := ((hc.initDataBlock ho).2 he).onData (f := seekToLast) |>.skipBackward (by simp [hnil])
      rwa [show lastPos (flat I seq) = (flat I seq).length by simp [hnil, flat, lastPos]]
  next := by
    rintro it p (⟨i, e, q, h, hq, rfl⟩ | ⟨i, h, rfl⟩) hp
    · exact (h.onData fun d hd => hd.next hq).skipForward ho hq
    · omega
  prev := by
    rintro it p (⟨i, e, q, h, hq, rfl⟩ | ⟨i, h, rfl⟩) hp
    · have hat := h.onData fun d hd => hd.prev hq
      by_cases h0 : q = 0
      · -- the first entry of its block: the data iterator becomes invalid
        rw [h0, prevPos, if_pos rfl] at hat
        have := hat.skipBackward ho
        rwa [h0, Nat.add_zero]
      · rw [prevPos, if_neg h0] at hat
        have := hat.skip_valid (by omega)
        have hpos : prevPos (flat I seq) (offset I seq i + q) = offset I seq i + (q - 1) := by
          rw [prevPos, if_neg (by omega)]
          omega
        rwa [hpos]
    · omega

/-- **A flat iterator.** Over an index whose keys separate the sequences behind its handles, a new
`TwoLevelIterator` is a cursor over their concatenation, whichever of them are empty. -/
theorem tracks_flat {index : ι} {i : Nat} (hindex : Tracks I index i) (ho : Opens bf I seq)
    (hs : Separates I seq) :
    Tracks (flat I seq) ({ blockFunction := bf, indexIter := index } : TwoLevelIterator ι δ η)
      (flat I seq).length :=
  (stands_simulates ho hs).tracks (Or.inr ⟨i, ⟨rfl, hindex, rfl⟩, rfl⟩)

end Flat

end TwoLevelIterator

end LevelDbSurf
