import LevelDbSurf.FilterMetrics
import LevelDbSurf.OwningIterator
import LevelDbSurf.Resurrection

/-!
# Bounds that point into the caller's memory (`version_set.cc:214-263`, `two_level_iterator.cc:146-161`)

| here | there |
| --- | --- |
| `BufferSlice`      | a `Slice`: a place in a buffer of the caller, and a number of bytes |
| `BoundedScan.start`| `Version::AddIterators`, which copies `options.lo` and `options.hi` into each `TableCacheArg` as they are |
| `BoundedScan.step` | a call on one of those iterators, or a byte the caller writes |
| `Opening`          | a table `TableCache::NewIterator` was asked for: by `AddIterators` itself, or by `GetFileIterator` |

`GetFileIterator` looks at the bytes when it is called. `now` reads them in the memory as it is then, as the source
does; `copied` reads them as they were when the iterators were made. The merging iterator over these iterators makes
some sequence of calls on them. During a call the caller writes nothing.
-/

namespace LevelDbSurf

open Cursors

/-- Keys made of their bytes. -/
class ByteKey (α : Type) extends Slice α where
  ofBytes : Bytes → α
  data_ofBytes : ∀ bytes, data (ofBytes bytes) = bytes

instance : ByteKey Bytes where
  ofBytes := id
  data_ofBytes _ := rfl

/-- The caller's buffers. -/
abbrev Buffers := Nat → Bytes

structure BufferSlice where
  buffer : Nat
  start : Nat
  size : Nat

namespace BufferSlice

def bytes (s : BufferSlice) (mem : Buffers) : Bytes := ((mem s.buffer).drop s.start).take s.size

def key {α : Type} [ByteKey α] (s : BufferSlice) (mem : Buffers) : α := ByteKey.ofBytes (s.bytes mem)

end BufferSlice

/-- A table that was asked for, by its `file_value`, and whether the range check turned it away. -/
structure Opening where
  file : Bytes
  pruned : Bool
deriving DecidableEq

variable {α : Type} [LinearOrder α]

/-- An iterator `AddIterators` makes. -/
abbrev BoundedChild (α : Type) [LinearOrder α] :=
  FileIterator α ⊕ OwningIterator (LevelFileNumIterator α) (FileIterator α) Bytes

structure BoundedScan (α : Type) [LinearOrder α] where
  mem : Buffers
  children : List (BoundedChild α)
  openings : List Opening

inductive ScanEvent (α : Type) where
  /-- The caller writes a byte. -/
  | write (buffer offset : Nat) (byte : UInt8)
  /-- A call on the iterator with this number. -/
  | call (child : Nat) (op : Op (InternalKey α))

/-- The counters say that the table was turned away. -/
def OpenedIterator.pruned (opened : OpenedIterator α) : Bool := opened.metrics.any fun m => decide (m.pruned ≠ 0)

section Definitions

section
variable [Slice α] [Coding] [TableFormat] (cache : TableCache α) (options : ReadOptions α)

/-- The range check of a table, by its `file_value`. -/
def prunes (lo hi : α) (file : Bytes) : Bool := (getFileIterator cache lo hi options file (some {})).pruned

/-- `GetFileIterator`, for a `TableCacheArg` with these bounds. -/
def fileIterators (lo hi : α) : DataIterators (FileIterator α) Bytes (List Opening) where
  make file openings :=
    let opened := getFileIterator cache lo hi options file (some {})
    some (opened.iter, openings ++ [{ file, pruned := opened.pruned }])
  delete _ openings := some openings

end

variable [ByteKey α] [Coding] [TableFormat] (cache : TableCache α) (options : ReadOptions α)

/-- The bytes at the time of the call. -/
def now (lo hi : BufferSlice) (mem : Buffers) : α × α := (lo.key mem, hi.key mem)

/-- The bytes at the time the iterators were made. -/
def copied (lo hi : BufferSlice) (mem₀ : Buffers) : Buffers → α × α := fun _ => now lo hi mem₀

namespace BoundedScan

/-- `AddIterators`. -/
def start (v : Version α) (lo hi : BufferSlice) (mem : Buffers) : BoundedScan α :=
  let (loKey, hiKey) := now lo hi mem
  let level0 := (v.files 0).map fun f => cache.newIterator options f.number f.fileSize loKey hiKey (some {})
  { mem
    children := level0.map (.inl ·.iter) ++
      v.deeperLevels.map fun level => .inr { indexIter := { flist := v.files level } }
    openings := List.zipWith (fun f opened => { file := fileValue f, pruned := opened.pruned }) (v.files 0) level0 }

def step (bounds : Buffers → α × α) (s : BoundedScan α) : ScanEvent α → Option (BoundedScan α)
  | .write buffer offset byte =>
    some { s with mem := Function.update s.mem buffer ((s.mem buffer).set offset byte) }
  | .call i op =>
    match s.children[i]? with
    | none => some s
    | some (.inl it) => some { s with children := s.children.set i (.inl (Cursors.apply it op)) }
    | some (.inr it) => do
      let (lo, hi) := bounds s.mem
      let (it, openings) ← it.apply (fileIterators cache options lo hi) op s.openings
      return { s with children := s.children.set i (.inr it), openings }

def run (bounds : Buffers → α × α) (s : BoundedScan α) (events : List (ScanEvent α)) : Option (BoundedScan α) :=
  events.foldlM (step cache options bounds) s

/-- Each table was checked against these bounds. -/
def CheckedAgainst (lo hi : α) (s : BoundedScan α) : Prop :=
  ∀ o ∈ s.openings, o.pruned = prunes cache options lo hi o.file

/-- Whenever a call opens a table, the bytes the caller has then lead to the same answer of the range check as the copy
does. -/
def SameChecks (lo hi : BufferSlice) (mem₀ : Buffers) : BoundedScan α → List (ScanEvent α) → Prop
  | _, [] => True
  | s, event :: events => ∃ s', s.step cache options (copied lo hi mem₀) event = some s' ∧
      (∀ o ∈ s'.openings.drop s.openings.length,
        prunes cache options (lo.key s.mem) (hi.key s.mem) o.file = o.pruned) ∧
      SameChecks lo hi mem₀ s' events

end BoundedScan

end Definitions

/-! ## One opening -/

section Openings
variable [Slice α] [Coding] [TableFormat] {cache : TableCache α} {options : ReadOptions α} {lo hi lo' hi' : α}

omit [LinearOrder α] in
/-- A table that is turned away shows nothing, and any other what it shows without bounds. -/
theorem getFileIterator_iter (file : Bytes) (metrics : Option MetricsCounters) :
    (getFileIterator cache lo hi options file metrics).iter =
      if prunes cache options lo hi file then .inr BlockIter.newEmptyIterator
      else (getFileIterator cache Slice.nil Slice.nil options file none).iter := by
  unfold prunes getFileIterator
  by_cases hlength : file.length ≠ 16
  · simp [if_pos hlength, OpenedIterator.pruned]
  · simp only [if_neg hlength]
    unfold TableCache.newIterator
    cases cache.findTable (decodeFixed64 (file.take 8)) (decodeFixed64 ((file.drop 8).take 8)) with
    | error s => simp [OpenedIterator.pruned]
    | ok t =>
      dsimp only
      rw [bounded_nil]
      cases bounded lo hi with
      | false => simp [OpenedIterator.pruned]
      | true =>
        by_cases hmatch : t.rangeMayMatch lo hi = true <;>
          simp [hmatch, OpenedIterator.pruned, MetricsCounters.countPruned, MetricsCounters.countOpened]

omit [LinearOrder α] in
/-- Bounds that give the same answer give the same iterator. -/
theorem fileIterators_make_of_prunes {file : Bytes}
    (h : prunes cache options lo hi file = prunes cache options lo' hi' file) :
    (fileIterators cache options lo hi).make file = (fileIterators cache options lo' hi').make file := by
  funext openings
  show some ((getFileIterator cache lo hi options file (some {})).iter,
      openings ++ [{ file, pruned := prunes cache options lo hi file }]) =
    some ((getFileIterator cache lo' hi' options file (some {})).iter,
      openings ++ [{ file, pruned := prunes cache options lo' hi' file }])
  rw [getFileIterator_iter, @getFileIterator_iter _ _ _ _ _ _ lo' hi' file, h]

omit [LinearOrder α] in
theorem fileIterators_logs : OwningIterator.Logs (fileIterators cache options lo hi) (·.map Opening.file) where
  make hmake := by
    obtain ⟨-, rfl⟩ := Prod.mk.inj (Option.some.inj hmake)
    simp
  delete hdelete := by
    rw [← Option.some.inj hdelete]

/-- What a call adds to the openings has been checked against its bounds. -/
theorem fileIterators_sound (cache : TableCache α) (options : ReadOptions α) (lo hi : α) (openings : List Opening) :
    OwningIterator.Sound (κ := InternalKey α) (fileIterators cache options lo hi) fun _ openings' =>
      ∃ new, openings' = openings ++ new ∧ ∀ o ∈ new, o.pruned = prunes cache options lo hi o.file where
  perm _ h := h
  move _ h := h
  make file _ _ h := by
    obtain ⟨new, rfl, hnew⟩ := h
    refine ⟨_, _, rfl, new ++ [{ file, pruned := prunes cache options lo hi file }], List.append_assoc _ _ _, ?_⟩
    intro o ho
    rcases List.mem_append.1 ho with hold | hlast
    · exact hnew o hold
    · rw [List.mem_singleton.1 hlast]
  delete h := ⟨_, rfl, h⟩

end Openings

/-! ## Steps and runs -/

namespace BoundedScan

section Runs
variable [ByteKey α] [Coding] [TableFormat] {cache : TableCache α} {options : ReadOptions α} {lo hi : BufferSlice}
  {mem₀ : Buffers} {bounds bounds' : Buffers → α × α} {s s' : BoundedScan α} {event : ScanEvent α}
  {events : List (ScanEvent α)}

/-- **A step** is defined. The tables it opens are checked against the bounds of that time. -/
theorem step_spec (cache : TableCache α) (options : ReadOptions α) (bounds : Buffers → α × α) (s : BoundedScan α)
    (event : ScanEvent α) :
    ∃ s' new, s.step cache options bounds event = some s' ∧ s'.openings = s.openings ++ new ∧
      ∀ o ∈ new, o.pruned = prunes cache options (bounds s.mem).1 (bounds s.mem).2 o.file := by
  have hnothing : ∀ o ∈ ([] : List Opening),
      o.pruned = prunes cache options (bounds s.mem).1 (bounds s.mem).2 o.file := by
    rintro o ⟨⟩
  cases event with
  | write buffer offset byte => exact ⟨_, [], rfl, (List.append_nil _).symm, hnothing⟩
  | call i op =>
    match hchild : s.children[i]? with
    | none => exact ⟨s, [], by simp only [step, hchild], (List.append_nil _).symm, hnothing⟩
    | some (.inl it) =>
      exact ⟨{ s with children := s.children.set i (.inl (Cursors.apply it op)) }, [], by simp only [step, hchild],
        (List.append_nil _).symm, hnothing⟩
    | some (.inr it) =>
      have hsound := fileIterators_sound cache options (bounds s.mem).1 (bounds s.mem).2 s.openings
      have hnone : ∃ new, s.openings = s.openings ++ new ∧
          ∀ o ∈ new, o.pruned = prunes cache options (bounds s.mem).1 (bounds s.mem).2 o.file :=
        ⟨[], (List.append_nil _).symm, hnothing⟩
      obtain ⟨it', _, hcall, new, rfl, hnew⟩ : OwningIterator.Sound.Ends _ (it.apply _ op s.openings) :=
        hsound.apply op hnone
      refine ⟨{ s with children := s.children.set i (.inr it'), openings := s.openings ++ new }, new, ?_, rfl, hnew⟩
      simp only [step, hchild, hcall]
      rfl

/-- What a step opens. -/
theorem step_opened (h : s.step cache options bounds event = some s') :
    s.openings <+: s'.openings ∧ ∀ o ∈ s'.openings.drop s.openings.length,
      o.pruned = prunes cache options (bounds s.mem).1 (bounds s.mem).2 o.file := by
  obtain ⟨s₁, new, hstep, hopenings, hnew⟩ := step_spec cache options bounds s event
  rw [h] at hstep
  obtain rfl := Option.some.inj hstep
  rw [hopenings, List.drop_left]
  exact ⟨List.prefix_append _ _, hnew⟩

/-- Bounds that turn away the same of what it opens give the same step. -/
theorem step_of_prunes (h : s.step cache options bounds event = some s')
    (hsame : ∀ o ∈ s'.openings.drop s.openings.length,
      prunes cache options (bounds' s.mem).1 (bounds' s.mem).2 o.file = o.pruned) :
    s.step cache options bounds' event = some s' := by
  have hchecked := (step_opened h).2
  cases event with
  | write buffer offset byte => exact h
  | call i op =>
    match hchild : s.children[i]? with
    | none =>
      simp only [step, hchild] at h ⊢
      exact h
    | some (.inl it) =>
      simp only [step, hchild] at h ⊢
      exact h
    | some (.inr it) =>
      simp only [step, hchild] at h ⊢
      obtain ⟨⟨it', openings⟩, hcall, hs'⟩ := Option.bind_eq_some_iff.1 h
      obtain rfl := Option.some.inj hs'
      have hsameCall := (fileIterators_logs.apply hcall).follows
        (fileIterators cache options (bounds' s.mem).1 (bounds' s.mem).2) rfl fun file hfile => by
          rw [List.length_map, ← List.map_drop] at hfile
          obtain ⟨o, ho, rfl⟩ := List.mem_map.1 hfile
          exact fileIterators_make_of_prunes ((hsame o ho).trans (hchecked o ho))
      rw [hsameCall]
      rfl

theorem run_cons (bounds : Buffers → α × α) (s : BoundedScan α) (event : ScanEvent α) (events : List (ScanEvent α)) :
    s.run cache options bounds (event :: events) =
      (s.step cache options bounds event).bind fun s => s.run cache options bounds events := List.foldlM_cons

/-- **A run** is defined, and what has been opened stays on record. -/
theorem run_spec (cache : TableCache α) (options : ReadOptions α) (bounds : Buffers → α × α)
    (events : List (ScanEvent α)) (s : BoundedScan α) :
    ∃ s', s.run cache options bounds events = some s' ∧ s.openings <+: s'.openings := by
  induction events generalizing s with
  | nil => exact ⟨s, rfl, List.prefix_rfl⟩
  | cons event events ih =>
    obtain ⟨s₁, new, hstep, hopenings, -⟩ := step_spec cache options bounds s event
    obtain ⟨s', hrun, hgrows⟩ := ih s₁
    refine ⟨s', by rw [run_cons, hstep]; exact hrun, ?_⟩
    rw [hopenings] at hgrows
    exact (List.prefix_append _ _).trans hgrows

/-- `AddIterators` checks level 0 when it is called. -/
theorem start_checked (v : Version α) (lo hi : BufferSlice) (mem : Buffers) :
    (start cache options v lo hi mem).CheckedAgainst cache options (lo.key mem) (hi.key mem) := by
  intro o ho
  unfold start at ho
  simp only [List.zipWith_map_right, List.zipWith_self, List.mem_map] at ho
  obtain ⟨f, -, rfl⟩ := ho
  rw [prunes, getFileIterator_fileValue]
  rfl

/-- **From a state on** that both have come to, the bytes of the time of each call give the answers of the copy just as
long as the two go on in step. -/
theorem run_checked_iff (events : List (ScanEvent α))
    (hs : s.CheckedAgainst cache options (lo.key mem₀) (hi.key mem₀)) :
    ∃ s', s.run cache options (now lo hi) events = some s' ∧
      (s'.CheckedAgainst cache options (lo.key mem₀) (hi.key mem₀) ↔
        SameChecks cache options lo hi mem₀ s events) := by
  induction events generalizing s with
  | nil => exact ⟨s, rfl, iff_of_true hs trivial⟩
  | cons event events ih =>
    obtain ⟨c, new, hcopied, hopenings, hnew⟩ :=
      step_spec cache options (copied lo hi mem₀) s event
    by_cases hsame : ∀ o ∈ c.openings.drop s.openings.length,
        prunes cache options (lo.key s.mem) (hi.key s.mem) o.file = o.pruned
    · -- the step is the one of the copy
      have hstep : s.step cache options (now lo hi) event = some c := step_of_prunes hcopied hsame
      have hc : c.CheckedAgainst cache options (lo.key mem₀) (hi.key mem₀) := by
        intro o ho
        rw [hopenings] at ho
        exact (List.mem_append.1 ho).elim (hs o) (hnew o)
      obtain ⟨s', hrun, hiff⟩ := ih hc
      refine ⟨s', by rw [run_cons, hstep]; exact hrun, hiff.trans ⟨fun h => ⟨c, hcopied, hsame, h⟩, ?_⟩⟩
      rintro ⟨c', hcopied', -, h⟩
      rw [hcopied] at hcopied'
      rwa [Option.some.inj hcopied']
    · -- one of the tables it opens gets another answer, and keeps it
      obtain ⟨s₁, -, hstep, -, -⟩ := step_spec cache options (now lo hi) s event
      obtain ⟨s', hrun, hgrows⟩ := run_spec cache options (now lo hi) events s₁
      refine ⟨s', by rw [run_cons, hstep]; exact hrun, iff_of_false (fun hchecked => hsame ?_) ?_⟩
      · obtain ⟨-, hopened⟩ := step_opened hstep
        have hboth : s.step cache options (copied lo hi mem₀) event = some s₁ :=
          step_of_prunes hstep fun o ho => (hchecked o (hgrows.subset (List.mem_of_mem_drop ho))).symm
        rw [hcopied] at hboth
        obtain rfl := Option.some.inj hboth
        exact fun o ho => (hopened o ho).symm
      · rintro ⟨c', hcopied', hsame', -⟩
        rw [hcopied] at hcopied'
        obtain rfl := Option.some.inj hcopied'
        exact hsame hsame'

/-- **The tables are checked against the bytes at creation**, on every level, just if the bytes at the time of each call
give the tables it opens the same answers. -/
theorem start_run_checked_iff (cache : TableCache α) (options : ReadOptions α) (v : Version α) (lo hi : BufferSlice)
    (mem : Buffers) (events : List (ScanEvent α)) :
    ∃ s, (start cache options v lo hi mem).run cache options (now lo hi) events = some s ∧
      (s.CheckedAgainst cache options (lo.key mem) (hi.key mem) ↔
        SameChecks cache options lo hi mem (start cache options v lo hi mem) events) :=
  run_checked_iff events (start_checked v lo hi mem)

end Runs

end BoundedScan

/-- A byte of the slice is written. -/
def ScanEvent.Touches (slice : BufferSlice) : ScanEvent α → Prop
  | .write buffer offset _ => buffer = slice.buffer ∧ slice.start ≤ offset ∧ offset < slice.start + slice.size
  | .call _ _ => False

section Untouched

/-- A byte elsewhere does not show. -/
theorem BufferSlice.bytes_set (slice : BufferSlice) (mem : Buffers) {buffer offset : Nat} (byte : UInt8)
    (h : ¬ (buffer = slice.buffer ∧ slice.start ≤ offset ∧ offset < slice.start + slice.size)) :
    slice.bytes (Function.update mem buffer ((mem buffer).set offset byte)) = slice.bytes mem := by
  unfold BufferSlice.bytes
  by_cases hbuffer : slice.buffer = buffer
  · subst hbuffer
    rw [Function.update_self, List.drop_set]
    split
    · rfl
    · rw [List.take_set_of_le (by omega)]
  · rw [Function.update_of_ne hbuffer]

variable [ByteKey α] [Coding] [TableFormat] {cache : TableCache α} {options : ReadOptions α} {lo hi : BufferSlice}
  {mem₀ : Buffers} {bounds : Buffers → α × α} {s s' : BoundedScan α} {event : ScanEvent α}
  {events : List (ScanEvent α)}

namespace BoundedScan

theorem step_bytes {slice : BufferSlice} (h : s.step cache options bounds event = some s')
    (huntouched : ¬ event.Touches slice) : slice.bytes s'.mem = slice.bytes s.mem := by
  cases event with
  | write buffer offset byte =>
    rw [← Option.some.inj h]
    exact slice.bytes_set s.mem byte huntouched
  | call i op =>
    match hchild : s.children[i]? with
    | none =>
      simp only [step, hchild] at h
      rw [← Option.some.inj h]
    | some (.inl it) =>
      simp only [step, hchild] at h
      rw [← Option.some.inj h]
    | some (.inr it) =>
      simp only [step, hchild] at h
      obtain ⟨⟨it', openings⟩, -, hs'⟩ := Option.bind_eq_some_iff.1 h
      rw [← Option.some.inj hs']

/-- **A caller that leaves the bytes alone** has every table checked against the bounds it gave. -/
theorem run_untouched (hlo : lo.bytes s.mem = lo.bytes mem₀) (hhi : hi.bytes s.mem = hi.bytes mem₀)
    (hs : s.CheckedAgainst cache options (lo.key mem₀) (hi.key mem₀))
    (huntouched : ∀ event ∈ events, ¬ event.Touches lo ∧ ¬ event.Touches hi)
    (hrun : s.run cache options (now lo hi) events = some s') :
    s'.CheckedAgainst cache options (lo.key mem₀) (hi.key mem₀) := by
  induction events generalizing s with
  | nil =>
    obtain rfl := Option.some.inj hrun
    exact hs
  | cons event events ih =>
    obtain ⟨s₁, new, hstep, hopenings, hnew⟩ := step_spec cache options (now lo hi) s event
    rw [run_cons, hstep] at hrun
    obtain ⟨hnotLo, hnotHi⟩ := huntouched event List.mem_cons_self
    refine ih ((step_bytes hstep hnotLo).trans hlo) ((step_bytes hstep hnotHi).trans hhi) ?_
      (fun event hevent => huntouched event (List.mem_cons_of_mem _ hevent)) hrun
    intro o ho
    rw [hopenings] at ho
    refine (List.mem_append.1 ho).elim (hs o) fun ho => (hnew o ho).trans ?_
    have hkeys : (now lo hi s.mem : α × α) = now lo hi mem₀ := by
      simp only [now, BufferSlice.key, hlo, hhi]
    rw [hkeys]
    rfl

end BoundedScan

end Untouched

/-! ## The children of the merging iterator -/

section Children
variable [ByteKey α] [Coding] [TableFormat] {cache : TableCache α} {options : ReadOptions α}

section
variable {σ τ κ ν : Type} [Iterator σ κ ν] [Iterator τ κ ν]

omit [ByteKey α] [Coding] [TableFormat] in
theorem apply_sum_inl (x : σ) (op : Op κ) : Cursors.apply (Sum.inl x : σ ⊕ τ) op = .inl (Cursors.apply x op) := by
  cases op with
  | next => exact (apply_ite Sum.inl _ _ _).symm
  | prev => exact (apply_ite Sum.inl _ _ _).symm
  | _ => rfl

omit [ByteKey α] [Coding] [TableFormat] in
theorem apply_sum_inr (x : τ) (op : Op κ) : Cursors.apply (Sum.inr x : σ ⊕ τ) op = .inr (Cursors.apply x op) := by
  cases op with
  | next => exact (apply_ite Sum.inr _ _ _).symm
  | prev => exact (apply_ite Sum.inr _ _ _).symm
  | _ => rfl

end

/-- The same iterator, with the bounds for good. -/
def SameChild (cache : TableCache α) (options : ReadOptions α) (lo hi : α) : BoundedChild α → VersionIterator α → Prop
  | .inl it, .inl p => p = it
  | .inr it, .inr p => it.Reflects id (fun file => (getFileIterator cache lo hi options file none).iter) p
  | _, _ => False

theorem fileIterators_mirrors {lo hi : α} :
    OwningIterator.Mirrors (κ := InternalKey α) (fileIterators cache options lo hi) id
      (fun file => (getFileIterator cache lo hi options file none).iter) fun _ => True where
  current _ := rfl
  status _ := rfl
  call _ _ := rfl
  make {file _ _ _} _ hmake := by
    obtain ⟨hiter, -⟩ := Prod.mk.inj (Option.some.inj hmake)
    rw [← hiter]
    exact ⟨(getFileIterator_iter file (some {})).trans (getFileIterator_iter file none).symm, trivial⟩
  delete _ _ := trivial

/-- The iterators `AddIterators` makes. -/
theorem BoundedScan.start_children (v : Version α) (lo hi : BufferSlice) (mem : Buffers)
    (metrics : Option MetricsCounters) :
    List.Forall₂ (SameChild cache options (lo.key mem) (hi.key mem))
      (BoundedScan.start cache options v lo hi mem).children
      (v.addIterators cache options (lo.key mem) (hi.key mem) metrics).1 := by
  unfold BoundedScan.start Version.addIterators
  dsimp only [now]
  refine List.rel_append ?_ ?_
  · -- level 0
    induction v.files 0 generalizing metrics with
    | nil => exact .nil
    | cons f files ih =>
      refine .cons ?_ (ih _)
      show (cache.newIterator options f.number f.fileSize (lo.key mem) (hi.key mem) metrics).iter =
        (cache.newIterator options f.number f.fileSize (lo.key mem) (hi.key mem) (some {})).iter
      rw [← getFileIterator_fileValue, ← getFileIterator_fileValue, getFileIterator_iter,
        getFileIterator_iter _ (some {})]
  · rw [List.forall₂_map_left_iff, List.forall₂_map_right_iff]
    exact List.forall₂_same.2 fun level _ => ⟨rfl, rfl, rfl, rfl, rfl⟩

theorem SameChild.apply_inl {lo hi : α} {it : FileIterator α} {p : VersionIterator α}
    (h : SameChild cache options lo hi (.inl it) p) (op : Op (InternalKey α)) :
    SameChild cache options lo hi (.inl (Cursors.apply it op)) (Cursors.apply p op) := by
  cases p with
  | inr p => exact h.elim
  | inl p =>
    obtain rfl : p = it := h
    rw [apply_sum_inl]
    rfl

theorem SameChild.apply_inr {lo hi : α} {it it' : OwningIterator (LevelFileNumIterator α) (FileIterator α) Bytes}
    {p : VersionIterator α} (h : SameChild cache options lo hi (.inr it) p) {op : Op (InternalKey α)}
    {openings openings' : List Opening}
    (hcall : it.apply (fileIterators cache options lo hi) op openings = some (it', openings')) :
    SameChild cache options lo hi (.inr it') (Cursors.apply p op) := by
  cases p with
  | inl p => exact h.elim
  | inr p =>
    rw [apply_sum_inr]
    exact (fileIterators_mirrors.apply trivial h hcall).1

omit [ByteKey α] [Coding] [TableFormat] [LinearOrder α] in
theorem forall₂_modify {σ τ : Type} {R : σ → τ → Prop} {xs : List σ} {ys : List τ} (h : List.Forall₂ R xs ys)
    {i : Nat} {x x' : σ} {f : τ → τ} (hx : xs[i]? = some x) (hf : ∀ y, R x y → R x' (f y)) :
    List.Forall₂ R (xs.set i x') (ys.modify i f) := by
  induction h generalizing i with
  | nil => cases hx
  | cons hxy hrest ih =>
    cases i with
    | zero =>
      obtain rfl := Option.some.inj hx
      exact .cons (hf _ hxy) hrest
    | succ i => exact .cons hxy (ih hx)

/-- **With the copy**, a call on a child is a call on the iterator of the merging iterator. -/
theorem BoundedScan.step_copied {lo hi : BufferSlice} {mem₀ : Buffers} {s s' : BoundedScan α} {i : Nat}
    {op : Op (InternalKey α)} {iters : List (VersionIterator α)}
    (h : List.Forall₂ (SameChild cache options (lo.key mem₀) (hi.key mem₀)) s.children iters)
    (hstep : s.step cache options (copied lo hi mem₀) (.call i op) = some s') :
    List.Forall₂ (SameChild cache options (lo.key mem₀) (hi.key mem₀)) s'.children
      (iters.modify i (Cursors.apply · op)) := by
  match hchild : s.children[i]? with
  | none =>
    simp only [step, hchild] at hstep
    obtain rfl := Option.some.inj hstep
    rw [List.modify_eq_self (by rw [← h.length_eq]; exact List.getElem?_eq_none_iff.1 hchild)]
    exact h
  | some (.inl it) =>
    simp only [step, hchild] at hstep
    obtain rfl := Option.some.inj hstep
    exact forall₂_modify h hchild fun p hp => hp.apply_inl op
  | some (.inr it) =>
    simp only [step, hchild] at hstep
    obtain ⟨⟨it', openings⟩, hcall, hs'⟩ := Option.bind_eq_some_iff.1 hstep
    obtain rfl := Option.some.inj hs'
    exact forall₂_modify h hchild fun p hp => hp.apply_inr hcall

end Children

/-! ## The caller writes to the buffers -/

section Written
variable [ByteKey α] [Coding] [TableFormat] {cache : TableCache α} {options : ReadOptions α}

/-- `SeekToFirst` on a new iterator opens the first file. -/
theorem seekToFirst_opens (cache : TableCache α) (options : ReadOptions α) (lo hi : α)
    {it : OwningIterator (LevelFileNumIterator α) (FileIterator α) Bytes} {k : InternalKey α}
    {file : Bytes} (hnew : it.dataIter = none) (hfirst : current (seekToFirst it.indexIter) = some (k, file))
    (openings : List Opening) :
    ∃ it' later, it.apply (fileIterators cache options lo hi) .seekToFirst openings = some (it',
      openings ++ { file, pruned := prunes cache options lo hi file } :: later) := by
  have hopen : (it.onIndex seekToFirst).initDataBlock (fileIterators cache options lo hi) openings =
      some ({ it.onIndex seekToFirst with
          dataBlockHandle := some file, dataIter := some (getFileIterator cache lo hi options file (some {})).iter },
        openings ++ [{ file, pruned := prunes cache options lo hi file }]) := by
    unfold OwningIterator.initDataBlock OwningIterator.onIndex OwningIterator.setDataIterator
    simp only [hfirst, hnew]
    rfl
  have hsound := fileIterators_sound cache options lo hi
    (openings ++ [{ file, pruned := prunes cache options lo hi file }])
  have hnone : ∃ new, openings ++ [{ file, pruned := prunes cache options lo hi file }] =
      openings ++ [{ file, pruned := prunes cache options lo hi file }] ++ new ∧
      ∀ o ∈ new, o.pruned = prunes cache options lo hi o.file :=
    ⟨[], (List.append_nil _).symm, by rintro o ⟨⟩⟩
  let opened : OwningIterator (LevelFileNumIterator α) (FileIterator α) Bytes :=
    { it.onIndex seekToFirst with
      dataBlockHandle := some file, dataIter := some (getFileIterator cache lo hi options file (some {})).iter }
  obtain ⟨it', _, hskip, later, rfl, -⟩ :
      OwningIterator.Sound.Ends _ ((opened.onData seekToFirst).skipEmptyDataBlocksForward _ _) :=
    hsound.skipForward hnone
  refine ⟨it', later, ?_⟩
  rw [OwningIterator.apply, hopen]
  show OwningIterator.skipEmptyDataBlocksForward _ _ _ = _
  rw [hskip, List.append_assoc, List.singleton_append]

theorem BoundedScan.step_seekToFirst (cache : TableCache α) (options : ReadOptions α) (bounds : Buffers → α × α)
    {s : BoundedScan α} {i : Nat}
    {it : OwningIterator (LevelFileNumIterator α) (FileIterator α) Bytes} {k : InternalKey α} {file : Bytes}
    (hchild : s.children[i]? = some (.inr it)) (hnew : it.dataIter = none)
    (hfirst : current (seekToFirst it.indexIter) = some (k, file)) :
    ∃ s', s.step cache options bounds (.call i .seekToFirst) = some s' ∧
      { file, pruned := prunes cache options (bounds s.mem).1 (bounds s.mem).2 file } ∈ s'.openings := by
  obtain ⟨it', later, hcall⟩ :=
    seekToFirst_opens cache options (bounds s.mem).1 (bounds s.mem).2 hnew hfirst s.openings
  refine ⟨{ s with children := s.children.set i (.inr it'), openings := _ }, ?_,
    List.mem_append_right s.openings (List.mem_cons_self (l := later))⟩
  simp only [step, hchild, hcall]
  rfl

end Written

namespace SampleDelete

/-- One byte of the caller's for `lo`, one for `hi`. -/
def mem : Buffers := fun buffer => if buffer = 0 then [98] else [99]

variable [Coding]

/-- For `[d, e]` the table with `b` is turned away. -/
theorem rangeMayMatch_old_later :
    (OneBlock.table options entryB.1 [oldA, entryB] (OneBlock.filterEntry policy)
      (blockOf [97, 98])).rangeMayMatch [100] [101] = false := by
  rw [OneBlock.table_rangeMayMatch rfl _ _ (by decide) (by decide)]
  rfl

theorem prunes_old (lo hi : Bytes) (hb : bounded lo hi = true) (rest : ReadOptions Bytes) :
    letI := smallHandles
    prunes db.tableCache rest lo hi (fileValue fileOld) =
      !(OneBlock.table options entryB.1 [oldA, entryB] (OneBlock.filterEntry policy)
        (blockOf [97, 98])).rangeMayMatch lo hi := by
  let _ := smallHandles
  rw [prunes, getFileIterator_fileValue, TableCache.newIterator, serves_old.1.found]
  dsimp only
  rw [hb, if_pos rfl]
  cases (OneBlock.table options entryB.1 [oldA, entryB] (OneBlock.filterEntry policy)
    (blockOf [97, 98])).rangeMayMatch lo hi <;> rfl

end SampleDelete

open SampleDelete in
/-- The bounds are `[b, c]` when the iterators are made and `[d, e]` when level 1 is reached: its one table, with `b`, is
turned away. -/
theorem bounds_written_before_level_one :
    letI := littleEndian
    letI := smallHandles
    ∃ s, (BoundedScan.start db.tableCache readOptions db.current ⟨0, 0, 1⟩ ⟨1, 0, 1⟩ mem).run db.tableCache readOptions
        (now ⟨0, 0, 1⟩ ⟨1, 0, 1⟩) [.write 0 0 100, .write 1 0 101, .call 1 .seekToFirst] = some s ∧
      ¬ s.CheckedAgainst db.tableCache readOptions [98] [99] := by
  let _ := littleEndian
  let _ := smallHandles
  let written : BoundedScan Bytes :=
    { BoundedScan.start db.tableCache readOptions db.current ⟨0, 0, 1⟩ ⟨1, 0, 1⟩ mem with
      mem := Function.update (Function.update mem 0 [100]) 1 [101] }
  have hchild : written.children[1]? = some (.inr { indexIter := { flist := [fileOld] } }) := rfl
  obtain ⟨s, hstep, hopened⟩ := BoundedScan.step_seekToFirst db.tableCache readOptions (now ⟨0, 0, 1⟩ ⟨1, 0, 1⟩)
    hchild rfl (rfl : _ = some (fileOld.largest, fileValue fileOld))
  refine ⟨s, ?_, fun hchecked => ?_⟩
  · have hwrites : ∀ rest : BoundedScan Bytes → Option (BoundedScan Bytes),
        ((BoundedScan.step db.tableCache readOptions (now ⟨0, 0, 1⟩ ⟨1, 0, 1⟩)
            (BoundedScan.start db.tableCache readOptions db.current ⟨0, 0, 1⟩ ⟨1, 0, 1⟩ mem) (.write 0 0 100)).bind
          fun s => (BoundedScan.step db.tableCache readOptions (now ⟨0, 0, 1⟩ ⟨1, 0, 1⟩) s (.write 1 0 101)).bind rest) =
            rest written := fun _ => rfl
    simp only [BoundedScan.run_cons]
    rw [hwrites, hstep]
    rfl
  · have hbounds : now ⟨0, 0, 1⟩ ⟨1, 0, 1⟩ written.mem = (([100], [101]) : Bytes × Bytes) := rfl
    rw [hbounds] at hopened
    have hold := hchecked _ hopened
    dsimp only at hold
    rw [prunes_old _ _ rfl, prunes_old _ _ rfl, rangeMayMatch_old_later, rangeMayMatch_old] at hold
    cases hold

end LevelDbSurf
