import LevelDbSurf.OneBlockTable
import LevelDbSurf.VersionGet
import LevelDbSurf.VersionIterators

/-!
# The filter counters

| here | there |
| --- | --- |
| `ForwardScan.start`, `ForwardScan.step` | the children of a scan's internal iterator: `Version::AddIterators`, then the calls the merging iterator makes on them |
| `countRequests`       | what `GetFileIterator` does to the counters when a child calls it (`table_cache.cc:96`) |
| `Version.consulted`   | the data blocks `Version::Get` looks at, through `Table::InternalGet` (`table.cc:225`) |
| `IntCounters`         | `MetricsCounters` (`options.h:152`) with its `int`s; `MetricsCounters.ints` is what they hold |

In a forward scan every child is positioned once, by `Seek` or `SeekToFirst`, and from then on moves by
`Next`. So the index iterator of a level only moves forward, and `InitDataBlock` asks for each file once
(`Forward`). A point lookup asks for one block of each table at most. Either way the counters are moved by a
list of answers of the filter, one for each table or block (`MetricsCounters.countAll`). The `int`s hold the
counts as long as there are fewer than `2^31`; what comes after, C++ leaves undefined, and here they wrap.
-/

namespace LevelDbSurf

open Cursors TwoLevelIterator

variable {α : Type} [LinearOrder α]

/-! ## Counting -/

namespace MetricsCounters

/-- One more answer of a filter; `pruned` if it was negative. -/
def count (m : MetricsCounters) (pruned : Bool) : MetricsCounters := if pruned then m.countPruned else m.countOpened

def countAll (m : MetricsCounters) (answers : List Bool) : MetricsCounters := answers.foldl count m

/-- Everything considered was either pruned or opened. -/
def Balanced (m : MetricsCounters) : Prop := m.considered = m.pruned + m.opened

@[simp] theorem countAll_nil (m : MetricsCounters) : m.countAll [] = m := rfl

@[simp] theorem countAll_append (m : MetricsCounters) (as bs : List Bool) :
    m.countAll (as ++ bs) = (m.countAll as).countAll bs := List.foldl_append

@[simp] theorem count_considered (m : MetricsCounters) (pruned : Bool) :
    (m.count pruned).considered = m.considered + 1 := by
  cases pruned <;> rfl

@[simp] theorem count_pruned (m : MetricsCounters) (pruned : Bool) :
    (m.count pruned).pruned = m.pruned + if pruned then 1 else 0 := by
  cases pruned <;> simp [count, countPruned, countOpened]

@[simp] theorem count_opened (m : MetricsCounters) (pruned : Bool) :
    (m.count pruned).opened = m.opened + if pruned then 0 else 1 := by
  cases pruned <;> simp [count, countPruned, countOpened]

theorem countAll_considered (m : MetricsCounters) (answers : List Bool) :
    (m.countAll answers).considered = m.considered + answers.length := by
  induction answers generalizing m with
  | nil => simp
  | cons a answers ih =>
    rw [countAll, List.foldl_cons, ← countAll, ih]
    simp
    omega

theorem countAll_pruned (m : MetricsCounters) (answers : List Bool) :
    (m.countAll answers).pruned = m.pruned + answers.count true := by
  induction answers generalizing m with
  | nil => simp
  | cons a answers ih =>
    rw [countAll, List.foldl_cons, ← countAll, ih]
    cases a <;> simp
    omega

theorem countAll_opened (m : MetricsCounters) (answers : List Bool) :
    (m.countAll answers).opened = m.opened + answers.count false := by
  induction answers generalizing m with
  | nil => simp
  | cons a answers ih =>
    rw [countAll, List.foldl_cons, ← countAll, ih]
    cases a <;> simp
    omega

/-- What counters are that have been counted up from zero. -/
structure Counted (m : MetricsCounters) : Prop where
  balanced : m.Balanced
  pruned_nonneg : 0 ≤ m.pruned
  opened_nonneg : 0 ≤ m.opened

theorem counted_zero : Counted {} := ⟨rfl, le_refl _, le_refl _⟩

theorem Counted.count {m : MetricsCounters} (h : m.Counted) (pruned : Bool) : (m.count pruned).Counted := by
  obtain ⟨hbalanced, hpruned, hopened⟩ := h
  unfold Balanced at hbalanced
  constructor
  · unfold Balanced
    cases pruned <;> simp [hbalanced] <;> omega
  · cases pruned <;> simp <;> omega
  · cases pruned <;> simp <;> omega

theorem Counted.countAll {m : MetricsCounters} (h : m.Counted) (answers : List Bool) :
    (m.countAll answers).Counted := by
  induction answers generalizing m with
  | nil => exact h
  | cons a answers ih => exact ih (h.count a)

end MetricsCounters

/-! ### The `int`s -/

/-- `MetricsCounters`, with its `int`s. -/
structure IntCounters where
  considered : Int32 := 0
  pruned : Int32 := 0
  opened : Int32 := 0
deriving DecidableEq

namespace IntCounters

/-- `considered++; pruned++`. -/
def countPruned (c : IntCounters) : IntCounters :=
  { c with considered := c.considered + 1, pruned := c.pruned + 1 }

/-- `considered++; opened++`. -/
def countOpened (c : IntCounters) : IntCounters :=
  { c with considered := c.considered + 1, opened := c.opened + 1 }

/-- They say that so many were considered, and so many of them pruned. -/
structure Tells (c : IntCounters) (considered pruned : Int) : Prop where
  balanced : c.considered.toInt = c.pruned.toInt + c.opened.toInt
  considered : c.considered.toInt = considered
  pruned : c.pruned.toInt = pruned

end IntCounters

namespace MetricsCounters

/-- What the `int`s hold that have been counted as far. -/
def ints (m : MetricsCounters) : IntCounters where
  considered := Int32.ofInt m.considered
  pruned := Int32.ofInt m.pruned
  opened := Int32.ofInt m.opened

@[simp] theorem ints_zero : ints {} = {} := rfl

@[simp] theorem ints_countPruned (m : MetricsCounters) : m.countPruned.ints = m.ints.countPruned := by
  simp [ints, countPruned, IntCounters.countPruned, Int32.ofInt_add]

@[simp] theorem ints_countOpened (m : MetricsCounters) : m.countOpened.ints = m.ints.countOpened := by
  simp [ints, countOpened, IntCounters.countOpened, Int32.ofInt_add]

theorem toInt_ofInt_iff {n : Int} (hn : 0 ≤ n) : (Int32.ofInt n).toInt = n ↔ n < 2 ^ 31 := by
  rw [Int32.toInt_ofInt, Int32.size, Int.bmod_def]
  omega

/-- **The `int`s tell the counts** if and only if `considered` does not overflow. -/
theorem Counted.tells_iff {m : MetricsCounters} (h : m.Counted) :
    m.ints.Tells m.considered m.pruned ↔ m.considered < 2 ^ 31 := by
  obtain ⟨hbalanced, hpruned, hopened⟩ := h
  unfold Balanced at hbalanced
  constructor
  · intro htells
    exact (toInt_ofInt_iff (by omega)).1 htells.considered
  · intro hlt
    have hc : (ints m).considered.toInt = m.considered := (toInt_ofInt_iff (by omega)).2 hlt
    have hp : (ints m).pruned.toInt = m.pruned := (toInt_ofInt_iff hpruned).2 (by omega)
    have ho : (ints m).opened.toInt = m.opened := (toInt_ofInt_iff hopened).2 (by omega)
    exact ⟨by rw [hc, hp, ho, hbalanced], hc, hp⟩

end MetricsCounters

/-! ## Forward scans -/

section Scans
variable [Slice α] [Coding] [TableFormat]

/-- The values a child has called `GetFileIterator` with. -/
def VersionIterator.requests : VersionIterator α → List Bytes
  | .inl _ => []
  | .inr it => it.requests

/-- The counters after `GetFileIterator` has been called with these values. -/
def countRequests (cache : TableCache α) (options : ReadOptions α) (lo hi : α) (values : List Bytes)
    (metrics : Option MetricsCounters) : Option MetricsCounters :=
  values.foldl (fun metrics v => (getFileIterator cache lo hi options v metrics).metrics) metrics

/-- A child of the internal iterator. -/
structure ScanChild (α : Type) [LinearOrder α] where
  iter : VersionIterator α
  positioned : Bool := false

/-- A call a forward scan may make on a child: one that positions it, once, or else `Next`. -/
def ScanChild.allows (c : ScanChild α) : Op (InternalKey α) → Bool
  | .seek _ => !c.positioned
  | .seekToFirst => !c.positioned
  | .next => c.positioned && (current c.iter).isSome
  | _ => false

/-- The children of a scan, and the counters of its read options. -/
structure ForwardScan (α : Type) [LinearOrder α] where
  children : List (ScanChild α)
  metrics : Option MetricsCounters

namespace ForwardScan

/-- `AddIterators`. -/
def start (v : Version α) (cache : TableCache α) (options : ReadOptions α) (lo hi : α)
    (metrics : Option MetricsCounters) : ForwardScan α :=
  let (iters, metrics) := v.addIterators cache options lo hi metrics
  { children := iters.map fun iter => { iter }, metrics }

/-- A call on child `i`. -/
def step (cache : TableCache α) (options : ReadOptions α) (lo hi : α) (s : ForwardScan α) (i : Nat)
    (op : Op (InternalKey α)) : Option (ForwardScan α) :=
  match s.children[i]? with
  | none => none
  | some c =>
    if c.allows op then
      let iter := apply c.iter op
      some {
        children := s.children.set i { iter, positioned := true }
        metrics := countRequests cache options lo hi (iter.requests.drop c.iter.requests.length) s.metrics }
    else none

def run (cache : TableCache α) (options : ReadOptions α) (lo hi : α) (s : ForwardScan α)
    (calls : List (Nat × Op (InternalKey α))) : Option (ForwardScan α) :=
  calls.foldlM (fun s call => s.step cache options lo hi call.1 call.2) s

end ForwardScan

end Scans

/-! ### A level's iterator asks for each file once -/

section Walk
variable [Coding]

/-- The index iterator has come from file `a` to where it is, and each file on the way has been asked for. The
data iterator, if any, is over the last one. -/
structure Forward (files : List (FileMetaData α)) (a : Nat) (it : ConcatenatingIterator α) : Prop where
  flist : it.indexIter.flist = files
  start_le : a ≤ it.indexIter.index
  requests : it.requests = ((files.drop a).take (it.indexIter.index + 1 - a)).map fileValue
  handle : it.dataIter.isSome = true → ∃ f, files[it.indexIter.index]? = some f ∧ it.dataBlockHandle = some (fileValue f)

variable {files : List (FileMetaData α)} {a : Nat} {it : ConcatenatingIterator α}

omit [Coding] in
theorem setDataIterator_requests (it : ConcatenatingIterator α) (d : Option (FileIterator α)) :
    (it.setDataIterator d).requests = it.requests := by
  unfold setDataIterator saveError
  cases it.dataIter with
  | none => rfl
  | some old => dsimp only; split <;> rfl

/-- `InitDataBlock`, after the index iterator has moved on to `i`. -/
theorem forward_initDataBlock (hdistinct : (files.map fileValue).Nodup) {i : Nat} (ha : a ≤ i)
    (hflist : it.indexIter.flist = files) (hi : it.indexIter.index = i)
    (hrequests : it.requests = ((files.drop a).take (i - a)).map fileValue)
    (hhandle : it.dataIter.isSome = true → ∃ f ∈ files.take i, it.dataBlockHandle = some (fileValue f)) :
    Forward files a it.initDataBlock := by
  have hcurrent : current it.indexIter = files[i]?.map fun f => (f.largest, fileValue f) := by
    rw [← hflist, ← hi]
    rfl
  unfold initDataBlock
  rw [hcurrent]
  cases hf : files[i]? with
  | none =>
    -- past the last file: all from `a` on have been asked for
    have hlen : files.length ≤ i := List.getElem?_eq_none_iff.1 hf
    obtain ⟨-, -, hdata⟩ := setDataIterator_fields it none
    refine ⟨by simpa using hflist, by simpa [hi] using ha, ?_, by simp [hdata]⟩
    simp only [Option.map_none, setDataIterator_requests, setDataIterator_indexIter, hi, hrequests]
    rw [List.take_of_length_le (by simp; omega), List.take_of_length_le (by simp; omega)]
  | some f =>
    obtain ⟨hlt, hget⟩ := List.getElem?_eq_some_iff.1 hf
    simp only [Option.map_some]
    have hnew : ¬ (it.dataIter.isSome && decide (it.dataBlockHandle = some (fileValue f))) = true := by
      intro hsame
      rw [Bool.and_eq_true, decide_eq_true_eq] at hsame
      obtain ⟨g, hg, hgv⟩ := hhandle hsame.1
      obtain ⟨j, hj, hgj⟩ := List.mem_iff_getElem.1 hg
      rw [List.length_take] at hj
      rw [List.getElem_take] at hgj
      have hlt' : i < (files.map fileValue).length := by simpa using hlt
      have hj' : j < (files.map fileValue).length := by omega
      have hvalues : (files.map fileValue)[j] = (files.map fileValue)[i] := by
        rw [List.getElem_map, List.getElem_map, hgj, hget]
        exact (Option.some.inj (hsame.2.symm.trans hgv)).symm
      have hindex := (List.Nodup.getElem_inj_iff hdistinct).1 hvalues
      omega
    rw [if_neg hnew]
    have hnext : ((files.drop a).take (i + 1 - a)).map fileValue =
        ((files.drop a).take (i - a)).map fileValue ++ [fileValue f] := by
      rw [show i + 1 - a = (i - a) + 1 by omega, List.take_succ_eq_append_getElem (by simp; omega), List.map_append]
      simp [show a + (i - a) = i by omega, hget]
    obtain ⟨-, hh, hdata⟩ := setDataIterator_fields
      ({ it with dataBlockHandle := some (fileValue f), requests := it.requests ++ [fileValue f] })
      (some (it.blockFunction (fileValue f)))
    refine ⟨by simpa using hflist, by simpa [hi] using ha, ?_, fun _ => ⟨f, by simpa [hi] using hf, hh⟩⟩
    simp only [setDataIterator_requests, setDataIterator_indexIter, hi, hrequests, hnext]

theorem Forward.onData (h : Forward files a it) (f : FileIterator α → FileIterator α) :
    Forward files a (it.onData f) :=
  ⟨h.flist, h.start_le, h.requests, fun hsome => h.handle (by simpa [TwoLevelIterator.onData] using hsome)⟩

theorem Forward.setNone (h : Forward files a it) : Forward files a (it.setDataIterator none) := by
  obtain ⟨-, -, hdata⟩ := setDataIterator_fields it none
  exact ⟨by simpa using h.flist, by simpa using h.start_le, by simpa [setDataIterator_requests] using h.requests,
    by simp [hdata]⟩

/-- **The skip loop** asks for the files it passes over. -/
theorem Forward.skipForward (hdistinct : (files.map fileValue).Nodup) (h : Forward files a it) :
    Forward files a it.skipEmptyDataBlocksForward := by
  fun_induction skipEmptyDataBlocksForward it with
  | case1 it hvalid => exact h
  | case2 it hinvalid hindex ih =>
    have hinit : Forward files a (it.onIndex next).initDataBlock := by
      refine forward_initDataBlock hdistinct (i := it.indexIter.index + 1) (Nat.le_succ_of_le h.start_le) h.flist rfl
        h.requests fun hsome => ?_
      obtain ⟨f, hf, hvalue⟩ := h.handle hsome
      obtain ⟨hlt, hget⟩ := List.getElem?_eq_some_iff.1 hf
      refine ⟨f, ?_, hvalue⟩
      rw [List.take_succ_eq_append_getElem hlt, hget]
      simp
    exact ih (hinit.onData _)
  | case3 it hinvalid hindex => exact h.setNone

theorem Forward.requests_sublist (h : Forward files a it) : it.requests.Sublist (files.map fileValue) := by
  rw [h.requests]
  exact ((List.take_sublist _ _).trans (List.drop_sublist _ _)).map _

/-! ### Requests are only added -/

omit [Coding] in
theorem initDataBlock_requests (it : ConcatenatingIterator α) [Coding] :
    it.requests <+: it.initDataBlock.requests := by
  unfold initDataBlock
  cases current it.indexIter with
  | none => simp [setDataIterator_requests]
  | some e =>
    dsimp only
    split
    · exact List.prefix_rfl
    · simp [setDataIterator_requests]

theorem skipForward_requests (it : ConcatenatingIterator α) :
    it.requests <+: it.skipEmptyDataBlocksForward.requests := by
  fun_induction skipEmptyDataBlocksForward it with
  | case1 it hvalid => exact List.prefix_rfl
  | case2 it hinvalid hindex ih => exact (initDataBlock_requests (it.onIndex next)).trans ih
  | case3 it hinvalid hindex => simp [setDataIterator_requests]

theorem position_requests (it : ConcatenatingIterator α) (f : LevelFileNumIterator α → LevelFileNumIterator α)
    (g : FileIterator α → FileIterator α) :
    it.requests <+: ((it.onIndex f).initDataBlock.onData g).skipEmptyDataBlocksForward.requests :=
  (initDataBlock_requests (it.onIndex f)).trans (skipForward_requests ((it.onIndex f).initDataBlock.onData g))

end Walk

section Children
variable [Coding]

/-- What a child has behind it: the files of a level, or one table that is open already. -/
def ScanChild.Walks (files : List (FileMetaData α)) (c : ScanChild α) : Prop :=
  match c.iter with
  | .inl _ => files = []
  | .inr it =>
    if c.positioned then ∃ a, Forward files a it
    else it.indexIter.flist = files ∧ it.requests = [] ∧ it.dataIter = none

variable {files : List (FileMetaData α)} {c : ScanChild α}

theorem ScanChild.Walks.requests_sublist (h : c.Walks files) : c.iter.requests.Sublist (files.map fileValue) := by
  unfold ScanChild.Walks at h
  unfold VersionIterator.requests
  cases hc : c.iter with
  | inl fileIter => simp
  | inr it =>
    rw [hc] at h
    dsimp only at h ⊢
    split at h
    · obtain ⟨a, h⟩ := h
      exact h.requests_sublist
    · simp [h.2.1]

/-- A table that is open already stays one. -/
theorem apply_inl (x : FileIterator α) (op : Op (InternalKey α)) :
    ∃ y, Cursors.apply (Sum.inl x : VersionIterator α) op = .inl y := by
  cases op with
  | next =>
    by_cases h : (current (Sum.inl x : VersionIterator α)).isSome = true
    · exact ⟨_, if_pos h⟩
    · exact ⟨x, if_neg h⟩
  | prev =>
    by_cases h : (current (Sum.inl x : VersionIterator α)).isSome = true
    · exact ⟨_, if_pos h⟩
    · exact ⟨x, if_neg h⟩
  | _ => exact ⟨_, rfl⟩

/-- The child's iterator is put on file `a`. -/
theorem forward_position (hdistinct : (files.map fileValue).Nodup) {it : ConcatenatingIterator α}
    (hrequests : it.requests = []) (hdata : it.dataIter = none)
    {f : LevelFileNumIterator α → LevelFileNumIterator α} (hf : (f it.indexIter).flist = files)
    (g : FileIterator α → FileIterator α) :
    Forward files (f it.indexIter).index ((it.onIndex f).initDataBlock.onData g).skipEmptyDataBlocksForward := by
  have hinit : Forward files (f it.indexIter).index (it.onIndex f).initDataBlock :=
    forward_initDataBlock hdistinct (le_refl _) hf rfl (by simp [TwoLevelIterator.onIndex, hrequests])
      (by simp [TwoLevelIterator.onIndex, hdata])
  exact (hinit.onData g).skipForward hdistinct

/-- **One call.** -/
theorem ScanChild.Walks.apply (hdistinct : (files.map fileValue).Nodup) (h : c.Walks files)
    {op : Op (InternalKey α)} (hallows : c.allows op = true) :
    ScanChild.Walks files { iter := Cursors.apply c.iter op, positioned := true } ∧
      c.iter.requests <+: (Cursors.apply c.iter op).requests := by
  obtain ⟨iter, positioned⟩ := c
  unfold ScanChild.Walks at h ⊢
  cases iter with
  | inl x =>
    obtain ⟨y, hy⟩ := apply_inl x op
    dsimp only at h ⊢
    rw [hy]
    exact ⟨h, List.prefix_rfl⟩
  | inr it =>
    dsimp only at h ⊢
    cases op with
    | seek t =>
      obtain rfl : positioned = false := by simpa [ScanChild.allows] using hallows
      obtain ⟨hflist, hrequests, hdata⟩ := h
      exact ⟨⟨_, forward_position hdistinct hrequests hdata (f := (seek · t)) hflist _⟩,
        position_requests it (seek · t) (seek · t)⟩
    | seekToFirst =>
      obtain rfl : positioned = false := by simpa [ScanChild.allows] using hallows
      obtain ⟨hflist, hrequests, hdata⟩ := h
      exact ⟨⟨_, forward_position hdistinct hrequests hdata (f := seekToFirst) hflist _⟩,
        position_requests it seekToFirst seekToFirst⟩
    | next =>
      simp only [ScanChild.allows, Bool.and_eq_true] at hallows
      obtain ⟨rfl, hvalid⟩ := hallows
      obtain ⟨a, h⟩ := h
      unfold Cursors.apply
      rw [if_pos hvalid]
      exact ⟨⟨a, (h.onData next).skipForward hdistinct⟩, skipForward_requests (it.onData next)⟩
    | seekToLast => cases hallows
    | prev => cases hallows

end Children

/-! ### What the counters say of a scan -/

section Lists
variable {β γ δ : Type}

theorem forall₂_set {R : β → γ → Prop} {as : List β} {cs : List γ} (h : List.Forall₂ R as cs) {i : Nat} {c c' : γ}
    (hc : cs[i]? = some c) (hset : ∀ a ∈ as, R a c → R a c') : List.Forall₂ R as (cs.set i c') := by
  induction h generalizing i with
  | nil => cases hc
  | cons hac hrest ih =>
    cases i with
    | zero =>
      obtain rfl := Option.some.inj hc
      exact .cons (hset _ List.mem_cons_self hac) hrest
    | succ i => exact .cons hac (ih hc fun a ha => hset a (List.mem_cons_of_mem _ ha))

theorem exists_of_forall₂ {R : β → γ → Prop} {as : List β} {cs : List γ} (h : List.Forall₂ R as cs) {i : Nat} {c : γ}
    (hc : cs[i]? = some c) : ∃ a ∈ as, R a c := by
  induction h generalizing i with
  | nil => cases hc
  | cons hac hrest ih =>
    cases i with
    | zero =>
      obtain rfl := Option.some.inj hc
      exact ⟨_, List.mem_cons_self, hac⟩
    | succ i =>
      obtain ⟨a, ha, hr⟩ := ih hc
      exact ⟨a, List.mem_cons_of_mem _ ha, hr⟩

theorem exists_right_of_forall₂ {R : β → γ → Prop} {as : List β} {cs : List γ} (h : List.Forall₂ R as cs) {a : β}
    (ha : a ∈ as) : ∃ c ∈ cs, R a c := by
  obtain ⟨i, hi⟩ := List.mem_iff_getElem?.1 ha
  obtain ⟨c, hc, hr⟩ := exists_of_forall₂ h.flip hi
  exact ⟨c, hc, hr⟩

theorem perm_flatMap_set {cs : List γ} {g : γ → List δ} {i : Nat} {c c' : γ} {added : List δ}
    (hc : cs[i]? = some c) (hg : g c' = g c ++ added) :
    ((cs.set i c').flatMap g).Perm (cs.flatMap g ++ added) := by
  induction cs generalizing i with
  | nil => cases hc
  | cons b cs ih =>
    cases i with
    | zero =>
      obtain rfl := Option.some.inj hc
      simp only [List.set_cons_zero, List.flatMap_cons, hg, List.append_assoc]
      exact List.perm_append_comm.append_left _
    | succ i =>
      simp only [List.set_cons_succ, List.flatMap_cons, List.append_assoc]
      exact (ih hc).append_left _

end Lists

section ScanCounters
variable [Slice α] [Coding] [TableFormat]

namespace TableCache

/-- The file's table can be opened. -/
def canOpen (cache : TableCache α) (f : FileMetaData α) : Bool :=
  match cache.findTable f.number f.fileSize with
  | .ok _ => true
  | .error _ => false

/-- `RangeMayMatch` is false of the file's table. -/
def prunes (cache : TableCache α) (lo hi : α) (f : FileMetaData α) : Bool :=
  match cache.findTable f.number f.fileSize with
  | .ok t => !t.rangeMayMatch lo hi
  | .error _ => false

/-- What a request for this value adds to the counters. -/
def answers (cache : TableCache α) (lo hi : α) (v : Bytes) : List Bool :=
  match cache.findTable (decodeFixed64 (v.take 8)) (decodeFixed64 ((v.drop 8).take 8)) with
  | .ok t => [!t.rangeMayMatch lo hi]
  | .error _ => []

variable {cache : TableCache α} {lo hi : α}

/-- **`NewIterator`**, with both bounds. -/
theorem newIterator_metrics (hb : bounded lo hi = true) (options : ReadOptions α) (f : FileMetaData α)
    (metrics : Option MetricsCounters) :
    (cache.newIterator options f.number f.fileSize lo hi metrics).metrics =
      metrics.map (·.countAll (cache.answers lo hi (fileValue f))) := by
  unfold newIterator answers
  rw [fileValue_number, fileValue_fileSize]
  cases cache.findTable f.number f.fileSize with
  | error s => simp
  | ok t =>
    simp only [hb, if_true]
    cases t.rangeMayMatch lo hi <;> rfl

theorem countRequests_eq (hb : bounded lo hi = true) (options : ReadOptions α) (files : List (FileMetaData α))
    (metrics : Option MetricsCounters) :
    countRequests cache options lo hi (files.map fileValue) metrics =
      metrics.map (·.countAll ((files.map fileValue).flatMap (cache.answers lo hi))) := by
  induction files generalizing metrics with
  | nil => simp [countRequests]
  | cons f files ih =>
    have hnext : countRequests cache options lo hi ((f :: files).map fileValue) metrics =
        countRequests cache options lo hi (files.map fileValue)
          (cache.newIterator options f.number f.fileSize lo hi metrics).metrics := by
      rw [← getFileIterator_fileValue]
      rfl
    rw [hnext, ih, newIterator_metrics hb]
    cases metrics <;> simp

theorem length_answers (files : List (FileMetaData α)) :
    ((files.map fileValue).flatMap (cache.answers lo hi)).length = (files.filter cache.canOpen).length := by
  induction files with
  | nil => rfl
  | cons f files ih =>
    have hf : (cache.answers lo hi (fileValue f)).length = if cache.canOpen f then 1 else 0 := by
      unfold answers canOpen
      rw [fileValue_number, fileValue_fileSize]
      cases cache.findTable f.number f.fileSize <;> rfl
    simp only [List.map_cons, List.flatMap_cons, List.length_append, ih, hf, List.filter_cons]
    split <;> simp
    omega

theorem count_answers (files : List (FileMetaData α)) :
    ((files.map fileValue).flatMap (cache.answers lo hi)).count true =
      (files.filter (cache.prunes lo hi)).length := by
  induction files with
  | nil => rfl
  | cons f files ih =>
    have hf : (cache.answers lo hi (fileValue f)).count true = if cache.prunes lo hi f then 1 else 0 := by
      unfold answers prunes
      rw [fileValue_number, fileValue_fileSize]
      cases cache.findTable f.number f.fileSize with
      | error s => rfl
      | ok t => cases h : t.rangeMayMatch lo hi <;> simp [h]
    simp only [List.map_cons, List.flatMap_cons, List.count_append, ih, hf, List.filter_cons]
    split <;> simp
    omega

end TableCache

/-- The files of a version, level by level. -/
def Version.allFiles (v : Version α) : List (FileMetaData α) :=
  v.files 0 ++ (List.range' 1 (kNumLevels - 1)).flatMap v.files

/-- The files behind the children `AddIterators` makes: those of level 0 are open already. -/
def Version.sources (v : Version α) : List (List (FileMetaData α)) :=
  (v.files 0).map (fun _ => []) ++ v.deeperLevels.map v.files

omit [Slice α] [Coding] [TableFormat] in
theorem Version.sources_flatten (v : Version α) :
    v.sources.flatten = (List.range' 1 (kNumLevels - 1)).flatMap v.files := by
  have hnil : ∀ levels : List Nat, ((levels.filter fun level => !(v.files level).isEmpty).map v.files).flatten =
      levels.flatMap v.files := by
    intro levels
    induction levels with
    | nil => rfl
    | cons level levels ih =>
      rw [List.filter_cons, List.flatMap_cons, ← ih]
      cases hfiles : v.files level <;> simp [hfiles]
  have hzero : ((v.files 0).map fun _ => ([] : List (FileMetaData α))).flatten = [] := by simp
  rw [sources, List.flatten_append, hzero, List.nil_append]
  exact hnil _

namespace ForwardScan

variable {v : Version α} {cache : TableCache α} {options : ReadOptions α} {lo hi : α} {m₀ : MetricsCounters}
  {s s' : ForwardScan α}

/-- The tables a bounded iterator has been requested for: all of level 0, and those the children have asked
`GetFileIterator` for. -/
def requested (v : Version α) (s : ForwardScan α) : List (FileMetaData α) :=
  v.files 0 ++ ((List.range' 1 (kNumLevels - 1)).flatMap v.files).filter fun f =>
    decide (fileValue f ∈ s.children.flatMap (·.iter.requests))

/-- The invariant of a scan: every child walks its files forward, and the counters have counted what has been
requested, in some order. -/
structure Counts (v : Version α) (cache : TableCache α) (lo hi : α) (m₀ : MetricsCounters) (s : ForwardScan α) :
    Prop where
  walks : List.Forall₂ ScanChild.Walks v.sources s.children
  counted : ∃ log : List (FileMetaData α),
    s.metrics = some (m₀.countAll ((log.map fileValue).flatMap (cache.answers lo hi))) ∧
      (log.map fileValue).Perm ((v.files 0).map fileValue ++ s.children.flatMap (·.iter.requests))

theorem addLevel0_metrics (cache : TableCache α) (options : ReadOptions α) (hb : bounded lo hi = true)
    (files : List (FileMetaData α)) (metrics : Option MetricsCounters) :
    (Version.addLevel0 cache options lo hi files metrics).2 =
        metrics.map (·.countAll ((files.map fileValue).flatMap (cache.answers lo hi))) ∧
      List.Forall₂ ScanChild.Walks (files.map fun _ => [])
        ((Version.addLevel0 cache options lo hi files metrics).1.map fun iter => { iter }) := by
  induction files generalizing metrics with
  | nil => exact ⟨by simp [Version.addLevel0], .nil⟩
  | cons f files ih =>
    obtain ⟨hmetrics, hwalks⟩ := ih (cache.newIterator options f.number f.fileSize lo hi metrics).metrics
    rw [Version.addLevel0]
    refine ⟨?_, .cons rfl hwalks⟩
    dsimp only
    rw [hmetrics, TableCache.newIterator_metrics hb]
    cases metrics <;> simp

omit [Slice α] [TableFormat] in
/-- Children that have not been positioned have not asked for anything. -/
theorem requests_of_new {sources : List (List (FileMetaData α))} {children : List (ScanChild α)}
    (h : List.Forall₂ ScanChild.Walks sources children) (hnew : ∀ c ∈ children, c.positioned = false) :
    children.flatMap (·.iter.requests) = [] := by
  induction h with
  | nil => rfl
  | @cons files c _ _ hwalks _ ih =>
    have hc : c.iter.requests = [] := by
      unfold ScanChild.Walks at hwalks
      unfold VersionIterator.requests
      rw [hnew c List.mem_cons_self] at hwalks
      cases hiter : c.iter with
      | inl x => rfl
      | inr it =>
        rw [hiter] at hwalks
        exact hwalks.2.1
    rw [List.flatMap_cons, hc, List.nil_append]
    exact ih fun c hc => hnew c (List.mem_cons_of_mem _ hc)

/-- **Creation.** -/
theorem start_counts (hb : bounded lo hi = true) :
    Counts v cache lo hi m₀ (ForwardScan.start v cache options lo hi (some m₀)) := by
  obtain ⟨hmetrics, hwalks⟩ := addLevel0_metrics cache options hb (v.files 0) (some m₀)
  have hlevels : List.Forall₂ ScanChild.Walks (v.deeperLevels.map v.files)
      ((v.deeperLevels.map fun level =>
        Sum.inr (v.newConcatenatingIterator cache options level lo hi)).map fun iter => { iter }) := by
    rw [List.map_map, List.forall₂_map_left_iff, List.forall₂_map_right_iff, List.forall₂_same]
    exact fun level _ => ⟨rfl, rfl, rfl⟩
  have hall : List.Forall₂ ScanChild.Walks v.sources (ForwardScan.start v cache options lo hi (some m₀)).children := by
    unfold Version.sources ForwardScan.start Version.addIterators
    dsimp only
    rw [List.map_append]
    exact List.rel_append hwalks hlevels
  refine ⟨hall, v.files 0, hmetrics, ?_⟩
  have hrequests : (ForwardScan.start v cache options lo hi (some m₀)).children.flatMap (·.iter.requests) = [] := by
    refine requests_of_new hall fun c hc => ?_
    obtain ⟨iter, -, rfl⟩ := List.mem_map.1 hc
    rfl
  rw [hrequests, List.append_nil]

omit [Slice α] [TableFormat] in
theorem requests_sublist {sources : List (List (FileMetaData α))} {children : List (ScanChild α)}
    (h : List.Forall₂ ScanChild.Walks sources children) :
    (children.flatMap (·.iter.requests)).Sublist (sources.flatten.map fileValue) := by
  induction h with
  | nil => exact List.Sublist.refl _
  | cons hwalks _ ih =>
    rw [List.flatMap_cons, List.flatten_cons, List.map_append]
    exact hwalks.requests_sublist.append ih

omit [Slice α] [TableFormat] in
theorem values_nodup (hdistinct : (v.allFiles.map (·.number)).Nodup) : (v.allFiles.map fileValue).Nodup := by
  refine List.Nodup.of_map (fun value => decodeFixed64 (value.take 8)) ?_
  rw [List.map_map]
  simpa [Function.comp_def, fileValue_number] using hdistinct

omit [Slice α] [Coding] [TableFormat] in
theorem deeper_sublist (v : Version α) : v.sources.flatten.Sublist v.allFiles := by
  rw [v.sources_flatten]
  exact List.sublist_append_right _ _

/-- **One call.** -/
theorem Counts.step (hb : bounded lo hi = true) (hdistinct : (v.allFiles.map (·.number)).Nodup)
    (h : Counts v cache lo hi m₀ s) {i : Nat} {op : Op (InternalKey α)}
    (hstep : s.step cache options lo hi i op = some s') : Counts v cache lo hi m₀ s' := by
  have hnodup : ∀ files ∈ v.sources, (files.map fileValue).Nodup := fun files hf =>
    (values_nodup hdistinct).sublist (((List.sublist_flatten_of_mem hf).trans (deeper_sublist v)).map _)
  unfold ForwardScan.step at hstep
  split at hstep
  · cases hstep
  · rename_i c hc
    split at hstep
    · rename_i hallows
      cases hstep
      obtain ⟨files, hfiles, hwalks⟩ := exists_of_forall₂ h.walks hc
      obtain ⟨hwalks', added, hadded⟩ := hwalks.apply (hnodup files hfiles) hallows
      have hsub : added.Sublist (files.map fileValue) := by
        have hrequests := hwalks'.requests_sublist
        dsimp only at hrequests
        rw [← hadded] at hrequests
        exact (List.sublist_append_right _ _).trans hrequests
      obtain ⟨new, -, rfl⟩ := List.sublist_map_iff.1 hsub
      obtain ⟨log, hmetrics, hperm⟩ := h.counted
      refine ⟨forall₂_set h.walks hc fun files hf hw => (hw.apply (hnodup files hf) hallows).1, log ++ new, ?_, ?_⟩
      · dsimp only
        rw [← hadded, List.drop_left, TableCache.countRequests_eq hb, hmetrics]
        simp
      · rw [List.map_append]
        have hset : ((s.children.set i { iter := apply c.iter op, positioned := true }).flatMap
            (·.iter.requests)).Perm _ := perm_flatMap_set hc hadded.symm
        exact (hperm.append_right _).trans ((List.append_assoc _ _ _).symm ▸ (hset.symm.append_left _))
    · cases hstep

/-- **Run.** -/
theorem Counts.run (hb : bounded lo hi = true) (hdistinct : (v.allFiles.map (·.number)).Nodup)
    (h : Counts v cache lo hi m₀ s) {calls : List (Nat × Op (InternalKey α))}
    (hrun : s.run cache options lo hi calls = some s') : Counts v cache lo hi m₀ s' := by
  induction calls generalizing s with
  | nil =>
    obtain rfl := Option.some.inj hrun
    exact h
  | cons call calls ih =>
    unfold ForwardScan.run at hrun
    rw [List.foldlM_cons] at hrun
    obtain ⟨s₁, hstep, hrest⟩ := Option.bind_eq_some_iff.1 hrun
    exact ih (h.step hb hdistinct hstep) hrest

omit [Slice α] [TableFormat] in
theorem requested_sublist (s : ForwardScan α) (v : Version α) : (s.requested v).Sublist v.allFiles :=
  List.filter_sublist.append_left _

/-- What has been counted is what has been requested. -/
theorem Counts.requested (hdistinct : (v.allFiles.map (·.number)).Nodup) (h : Counts v cache lo hi m₀ s) :
    ((s.requested v).map (·.number)).Nodup ∧ ∃ answers, s.metrics = some (m₀.countAll answers) ∧
      answers.length = ((s.requested v).filter cache.canOpen).length ∧
      answers.count true = ((s.requested v).filter (cache.prunes lo hi)).length := by
  have hsub := requests_sublist h.walks
  rw [v.sources_flatten] at hsub
  obtain ⟨log, hmetrics, hperm⟩ := h.counted
  -- the children's requests, as files
  have hdeeper : (s.children.flatMap (·.iter.requests)).Perm
      ((((List.range' 1 (kNumLevels - 1)).flatMap v.files).filter fun f =>
        decide (fileValue f ∈ s.children.flatMap (·.iter.requests))).map fileValue) := by
    have hvalues : (((List.range' 1 (kNumLevels - 1)).flatMap v.files).map fileValue).Nodup :=
      (values_nodup hdistinct).sublist ((List.sublist_append_right _ _).map _)
    refine (List.perm_ext_iff_of_nodup (hvalues.sublist hsub)
      (hvalues.sublist (List.filter_sublist.map _))).2 fun value => ?_
    simp only [List.mem_map, List.mem_filter, decide_eq_true_eq]
    constructor
    · intro hvalue
      obtain ⟨f, hf, rfl⟩ := List.mem_map.1 (hsub.subset hvalue)
      exact ⟨f, ⟨hf, hvalue⟩, rfl⟩
    · rintro ⟨f, ⟨-, hf⟩, rfl⟩
      exact hf
  have hlog : (log.map fileValue).Perm ((s.requested v).map fileValue) := by
    rw [ForwardScan.requested, List.map_append]
    exact hperm.trans (hdeeper.append_left _)
  have hanswers := hlog.flatMap_right (cache.answers lo hi)
  refine ⟨hdistinct.sublist ((s.requested_sublist v).map _), _, hmetrics, ?_, ?_⟩
  · rw [hanswers.length_eq, TableCache.length_answers]
  · rw [hanswers.count_eq, TableCache.count_answers]

end ForwardScan

end ScanCounters

/-! ## Point lookups -/

section Gets
variable [Slice α] [Coding] [TableFormat]

/-- The handle under the index iterator, where `InternalGet` looks. -/
def Table.consultedBlock (t : Table α) (k : InternalKey α) : Option Bytes :=
  (current (seek (BlockIter.overEntries t.indexBlock) k)).map (·.2)

/-- The data block a lookup consults in a file. -/
def TableCache.consulted (cache : TableCache α) (k : InternalKey α) (f : FileMetaData α) :
    Option (Table α × Bytes) :=
  match cache.findTable f.number f.fileSize with
  | .ok t => (t.consultedBlock k).map fun handleValue => (t, handleValue)
  | .error _ => none

/-- The files `Get` calls `Match` on, in order. -/
def Version.visited (v : Version α) (cache : TableCache α) (options : ReadOptions α) (userKey : α)
    (sequence : Nat) (value : Bytes) : List (FileMetaData α) :=
  let ikey := lookupKey userKey sequence
  (v.forEachOverlapping userKey ikey (({ saver := { userKey, value }, metrics := none } : GetState α), [])
    fun st level f =>
      let (state, go) := GetState.matchFile cache options ikey st.1 level f
      ((state, st.2 ++ [f]), go)).2

/-- The data blocks `Get` consults, each with its table. -/
def Version.consulted (v : Version α) (cache : TableCache α) (options : ReadOptions α) (userKey : α)
    (sequence : Nat) (value : Bytes) : List (Table α × Bytes) :=
  (v.visited cache options userKey sequence value).filterMap (cache.consulted (lookupKey userKey sequence))

/-- What a file adds to the counters. -/
def TableCache.getAnswers (cache : TableCache α) (k : InternalKey α) (f : FileMetaData α) : List Bool :=
  (cache.consulted k f).toList.map fun b => b.1.filterRejects b.2 k

/-- **`InternalGet`** counts the block it consults. -/
theorem TableCache.get_metrics {S : Type} (cache : TableCache α) (options : ReadOptions α) (f : FileMetaData α)
    (k : InternalKey α) (arg : S) (handleResult : S → InternalKey α → Bytes → S)
    (metrics : Option MetricsCounters) :
    (cache.get options f.number f.fileSize k arg handleResult metrics).2.2 =
      metrics.map (·.countAll (cache.getAnswers k f)) := by
  unfold TableCache.get TableCache.getAnswers TableCache.consulted
  cases cache.findTable f.number f.fileSize with
  | error s => simp
  | ok t =>
    dsimp only
    unfold Table.internalGet Table.consultedBlock
    dsimp only
    cases current (seek (BlockIter.overEntries t.indexBlock) k) with
    | none => simp
    | some e =>
      dsimp only
      unfold Table.consultBlock
      cases hr : t.filterRejects e.2 k <;> simp [hr, MetricsCounters.countAll, MetricsCounters.count]

/-- The counters decide nothing. -/
theorem TableCache.get_congr {S : Type} (cache : TableCache α) (options : ReadOptions α) (f : FileMetaData α)
    (k : InternalKey α) (arg : S) (handleResult : S → InternalKey α → Bytes → S)
    (metrics metrics' : Option MetricsCounters) :
    (cache.get options f.number f.fileSize k arg handleResult metrics).1 =
        (cache.get options f.number f.fileSize k arg handleResult metrics').1 ∧
      (cache.get options f.number f.fileSize k arg handleResult metrics).2.1 =
        (cache.get options f.number f.fileSize k arg handleResult metrics').2.1 := by
  unfold TableCache.get
  cases cache.findTable f.number f.fileSize with
  | error s => exact ⟨rfl, rfl⟩
  | ok t =>
    dsimp only
    unfold Table.internalGet
    dsimp only
    cases current (seek (BlockIter.overEntries t.indexBlock) k) with
    | none => exact ⟨rfl, rfl⟩
    | some e =>
      dsimp only
      unfold Table.consultBlock
      by_cases hr : t.filterRejects e.2 k = true <;> simp [hr]

omit [Slice α] [Coding] [TableFormat] in
/-- Two callbacks in lockstep. -/
theorem Version.forEachOverlapping_lockstep {S T : Type} (v : Version α) (userKey : α) (k : InternalKey α)
    {func : S → Nat → FileMetaData α → S × Bool} {func' : T → Nat → FileMetaData α → T × Bool}
    {R : S → T → Prop}
    (hstep : ∀ s t level f, R s t → (func s level f).2 = (func' t level f).2 ∧
      R (func s level f).1 (func' t level f).1)
    {s : S} {t : T} (h : R s t) :
    R (v.forEachOverlapping userKey k s func) (v.forEachOverlapping userKey k t func') := by
  obtain ⟨hgo, hR⟩ : (visit (func · 0 ·) s (v.overlappingLevel0 userKey)).2 =
      (visit (func' · 0 ·) t (v.overlappingLevel0 userKey)).2 ∧ R _ _ :=
    visit_lockstep (fun f _ s t h => hstep s t 0 f h) h
  unfold Version.forEachOverlapping
  dsimp only
  rw [hgo]
  split
  · refine (visit_lockstep (fun level _ s t h => ?_) hR).2
    unfold Version.visitLevel
    cases v.overlappingFile userKey k level with
    | none => exact ⟨rfl, h⟩
    | some f => exact hstep s t level f h
  · exact hR

omit [Slice α] [Coding] [TableFormat] in
theorem GetState.charge_metrics (state : GetState α) (metrics : Option MetricsCounters) :
    ({ state with metrics } : GetState α).charge = { state.charge with metrics } ∧
      state.charge.metrics = state.metrics := by
  obtain ⟨saver, ⟨seekFile, seekFileLevel⟩, lastFileRead, lastFileReadLevel, s, found, old⟩ := state
  cases seekFile <;> cases lastFileRead <;> exact ⟨rfl, rfl⟩

/-- `Match` does the same without counters, and counts what it consults with them. -/
theorem GetState.matchFile_metrics (cache : TableCache α) (options : ReadOptions α) (k : InternalKey α)
    (state : GetState α) (level : Nat) (f : FileMetaData α) :
    (GetState.matchFile cache options k state level f).2 =
        (GetState.matchFile cache options k { state with metrics := none } level f).2 ∧
      { (GetState.matchFile cache options k state level f).1 with metrics := none } =
        (GetState.matchFile cache options k { state with metrics := none } level f).1 ∧
      (GetState.matchFile cache options k state level f).1.metrics =
        state.metrics.map (·.countAll (cache.getAnswers k f)) := by
  obtain ⟨hcharge, hmetrics⟩ := state.charge_metrics none
  have hcount := cache.get_metrics options f k state.charge.saver saveValue state.charge.metrics
  have hnone := cache.get_metrics options f k state.charge.saver saveValue none
  obtain ⟨hstatus, hsaver⟩ := cache.get_congr options f k state.charge.saver saveValue state.charge.metrics none
  unfold GetState.matchFile
  dsimp only
  rw [hcharge]
  dsimp only
  rw [← hmetrics]
  generalize cache.get options f.number f.fileSize k state.charge.saver saveValue state.charge.metrics = r at *
  generalize cache.get options f.number f.fileSize k state.charge.saver saveValue none = r' at *
  obtain ⟨status, saver, metrics⟩ := r
  obtain ⟨status', saver', metrics'⟩ := r'
  dsimp only at hstatus hsaver hcount hnone ⊢
  subst hstatus hsaver hcount hnone
  by_cases hok : (!status.isOk) = true
  · simp [hok]
  · simp only [hok]
    cases saver.state <;> simp

/-- **`Get`** counts the blocks it consults. -/
theorem Version.get_metrics (v : Version α) (cache : TableCache α) (options : ReadOptions α) (userKey : α)
    (sequence : Nat) (value : Bytes) (metrics : Option MetricsCounters) :
    (v.get cache options userKey sequence value metrics).metrics =
      metrics.map (·.countAll ((v.consulted cache options userKey sequence value).map fun b =>
        b.1.filterRejects b.2 (lookupKey userKey sequence))) := by
  have hanswers : ∀ files : List (FileMetaData α), ((files.filterMap
      (cache.consulted (lookupKey userKey sequence))).map fun b =>
        b.1.filterRejects b.2 (lookupKey userKey sequence)) =
      files.flatMap (cache.getAnswers (lookupKey userKey sequence)) := by
    intro files
    induction files with
    | nil => rfl
    | cons f files ih =>
      rw [List.filterMap_cons, List.flatMap_cons, ← ih]
      unfold TableCache.getAnswers
      cases cache.consulted (lookupKey userKey sequence) f <;> simp
  unfold Version.consulted Version.visited
  rw [hanswers]
  dsimp only
  unfold Version.get
  dsimp only
  refine Version.forEachOverlapping_lockstep v userKey (lookupKey userKey sequence)
    (R := fun (state : GetState α) (st : GetState α × List (FileMetaData α)) =>
      { state with metrics := none } = st.1 ∧ state.metrics = metrics.map
        (·.countAll (st.2.flatMap (cache.getAnswers (lookupKey userKey sequence))))) ?_ ⟨rfl, by simp⟩ |>.2
  rintro state ⟨state', files⟩ level f ⟨hstate, hmetrics⟩
  obtain ⟨hgo, hnone, hcount⟩ := state.matchFile_metrics cache options (lookupKey userKey sequence) level f
  dsimp only at hstate hmetrics ⊢
  rw [← hstate]
  refine ⟨hgo, hnone, ?_⟩
  rw [hcount, hmetrics]
  cases metrics <;> simp

/-- A call of `Get`, on the version it found current. -/
structure GetCall (α : Type) [LinearOrder α] [Slice α] where
  version : Version α
  options : ReadOptions α := {}
  userKey : α
  sequence : Nat
  value : Bytes := []

/-- A data block a lookup has looked at. -/
structure ConsultedBlock (α : Type) where
  table : Table α
  handleValue : Bytes
  key : InternalKey α

/-- `KeyMayMatch` was false of it. -/
def ConsultedBlock.rejected (b : ConsultedBlock α) : Bool := b.table.filterRejects b.handleValue b.key

namespace GetCall

def consulted (cache : TableCache α) (c : GetCall α) : List (ConsultedBlock α) :=
  (c.version.consulted cache c.options c.userKey c.sequence c.value).map fun b =>
    { table := b.1, handleValue := b.2, key := lookupKey c.userKey c.sequence }

/-- The counters after these calls. -/
def countersAfter (cache : TableCache α) (calls : List (GetCall α)) (metrics : Option MetricsCounters) :
    Option MetricsCounters :=
  calls.foldl (fun metrics c =>
    (c.version.get cache c.options c.userKey c.sequence c.value metrics).metrics) metrics

theorem countersAfter_eq (cache : TableCache α) (calls : List (GetCall α)) (metrics : Option MetricsCounters) :
    countersAfter cache calls metrics =
      metrics.map (·.countAll ((calls.flatMap (consulted cache)).map ConsultedBlock.rejected)) := by
  induction calls generalizing metrics with
  | nil => simp [countersAfter]
  | cons c calls ih =>
    have hnext : countersAfter cache (c :: calls) metrics = countersAfter cache calls
        (c.version.get cache c.options c.userKey c.sequence c.value metrics).metrics := rfl
    rw [hnext, ih, Version.get_metrics]
    cases metrics <;> simp [consulted, ConsultedBlock.rejected, Function.comp_def]

theorem considered_after {cache : TableCache α} {calls : List (GetCall α)} {m : MetricsCounters}
    (h : countersAfter cache calls (some {}) = some m) : m.considered = (calls.flatMap (consulted cache)).length := by
  rw [countersAfter_eq, Option.map_some] at h
  rw [← Option.some.inj h, MetricsCounters.countAll_considered, List.length_map]
  exact Int.zero_add _

end GetCall

end Gets

/-- **The counters count what they say**, as long as the `int`s last: then `considered` is always `pruned + opened`.
In a forward scan with both bounds, from its creation on and after any calls, it has counted every table once that
an iterator was requested for and that could be opened, and `pruned` those whose `RangeMayMatch` was false. Over any
`Get` calls it has counted every data block looked at, and `pruned` those whose `KeyMayMatch` was false. -/
theorem filterCounters_exact [Slice α] [Coding] [TableFormat] (cache : TableCache α) {m₀ : MetricsCounters}
    (hm : m₀.Counted) :
    (∀ (v : Version α) (lo hi : α), Slice.empty lo = false → Slice.empty hi = false →
      (v.allFiles.map (·.number)).Nodup → ∀ (options : ReadOptions α) (calls : List (Nat × Op (InternalKey α)))
      (s : ForwardScan α), (ForwardScan.start v cache options lo hi (some m₀)).run cache options lo hi calls = some s →
        ((s.requested v).map (·.number)).Nodup ∧ ∃ m, s.metrics = some m ∧
          (m.ints.Tells (m₀.considered + ((s.requested v).filter cache.canOpen).length)
              (m₀.pruned + ((s.requested v).filter (cache.prunes lo hi)).length) ↔
            m₀.considered + ((s.requested v).filter cache.canOpen).length < 2 ^ 31)) ∧
    ∀ calls : List (GetCall α), ∃ m, GetCall.countersAfter cache calls (some m₀) = some m ∧
      (m.ints.Tells (m₀.considered + (calls.flatMap (GetCall.consulted cache)).length)
          (m₀.pruned + ((calls.flatMap (GetCall.consulted cache)).filter ConsultedBlock.rejected).length) ↔
        m₀.considered + (calls.flatMap (GetCall.consulted cache)).length < 2 ^ 31) := by
  refine ⟨fun v lo hi hlo hhi hdistinct options calls s hrun => ?_, fun calls => ?_⟩
  · have hb : bounded lo hi = true := by simp [bounded, hlo, hhi]
    obtain ⟨hnodup, answers, hmetrics, hlength, hcount⟩ :=
      ((ForwardScan.start_counts hb).run hb hdistinct hrun).requested hdistinct
    refine ⟨hnodup, _, hmetrics, ?_⟩
    have htells := (hm.countAll answers).tells_iff
    rwa [MetricsCounters.countAll_considered, MetricsCounters.countAll_pruned, hlength, hcount] at htells
  · refine ⟨_, GetCall.countersAfter_eq cache calls (some m₀), ?_⟩
    have htells := (hm.countAll ((calls.flatMap (GetCall.consulted cache)).map ConsultedBlock.rejected)).tells_iff
    rw [MetricsCounters.countAll_considered, MetricsCounters.countAll_pruned, List.length_map,
      List.count_eq_countP, List.countP_map, List.countP_eq_length_filter] at htells
    simpa [Function.comp_def] using htells

/-! ### One table, asked for once -/

namespace SampleForward

def entry : InternalKey Bytes × Bytes := (⟨[97], packSequenceAndType 1 .value⟩, [])

def version : Version Bytes where
  files := fun
    | 1 => [⟨7, 500, entry.1, entry.1, le_refl _⟩]
    | _ => []

def cache : TableCache Bytes := OneBlock.cache {} fun
  | 7 => some (OneBlock.file entry.1 [entry] [] [])
  | _ => none

/-- A lookup of the key, with the table on level 0. -/
def call : GetCall Bytes where
  version := { files := fun level => if level = 0 then version.files 1 else [] }
  userKey := [97]
  sequence := 1

end SampleForward

theorem filterCounters_exact_sample :
    letI := littleEndian
    letI := smallHandles
    ∃ s m, (ForwardScan.start SampleForward.version SampleForward.cache {} [97] [98] (some {})).run
        SampleForward.cache {} [97] [98] [(0, .seekToFirst)] = some s ∧ s.metrics = some m ∧
      m.ints.considered.toInt = ((s.requested SampleForward.version).filter SampleForward.cache.canOpen).length := by
  let _ := littleEndian
  let _ := smallHandles
  have hle : ∀ s : ForwardScan Bytes,
      ((s.requested SampleForward.version).filter SampleForward.cache.canOpen).length ≤ 1 := fun s =>
    (List.filter_sublist.trans (s.requested_sublist SampleForward.version)).length_le
  obtain ⟨-, m, hmetrics, htells⟩ := (filterCounters_exact SampleForward.cache
    MetricsCounters.counted_zero).1 SampleForward.version [97] [98] rfl rfl (by decide) {} [(0, .seekToFirst)] _ rfl
  refine ⟨_, m, rfl, hmetrics, Eq.trans (htells.2 ?_).considered (Int.zero_add _)⟩
  exact (Int.add_le_add_left (Int.ofNat_le.2 (hle _)) 0).trans_lt (by decide)

/-- `2^31` lookups of the one key look at one block each. -/
theorem filterCounters_overflow :
    ¬ ∀ [Coding] [TableFormat] (cache : TableCache Bytes) (calls : List (GetCall Bytes)),
      ∃ m, GetCall.countersAfter cache calls (some {}) = some m ∧
        m.ints.Tells (calls.flatMap (GetCall.consulted cache)).length
          ((calls.flatMap (GetCall.consulted cache)).filter ConsultedBlock.rejected).length := by
  intro h
  let _ := littleEndian
  let _ := smallHandles
  obtain ⟨m, hm, htells⟩ := h SampleForward.cache (List.replicate (2 ^ 31) SampleForward.call)
  have hone : (GetCall.consulted SampleForward.cache SampleForward.call).length = 1 := by decide
  have hmany : ((List.replicate (2 ^ 31) SampleForward.call).flatMap
      (GetCall.consulted SampleForward.cache)).length = 2 ^ 31 := by
    rw [List.length_flatMap, List.map_replicate, List.sum_replicate, hone, smul_eq_mul, Nat.mul_one]
  have hconsidered := htells.considered
  rw [← GetCall.considered_after hm] at hconsidered
  have hlt := (MetricsCounters.toInt_ofInt_iff (by rw [GetCall.considered_after hm]; omega)).1 hconsidered
  rw [GetCall.considered_after hm, hmany] at hlt
  revert hlt
  decide

end LevelDbSurf
