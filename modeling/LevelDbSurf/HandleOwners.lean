import LevelDbSurf.TableHandles

/-!
# Handles and arguments are released once

`World.Good w its args` says that the handles that are out are those the cleanups of the iterators `its` release, one
for each iterator over an opened table, and that the arguments that are not deleted are `args`. Every request keeps
that for the live iterators, with the open data iterators of those over the files of a level (`Serves`).
-/

namespace LevelDbSurf

open Cursors Lending

variable {α : Type}

/-! ## What an iterator has -/

/-- The handle it releases. -/
def Cleanup.handle? : Cleanup → Option Nat
  | .unrefEntry handle => some handle
  | .deleteTableCacheArg _ => none

namespace Registered

/-- It is over an opened table. -/
def overTable (it : TableCacheIterator α) : Bool := it.iter.isLeft

/-- The handles its cleanups release. -/
def handles {σ : Type} (it : Registered σ) : List Nat := it.cleanups.filterMap Cleanup.handle?

/-- An iterator over an opened table has one cleanup, which releases the handle; any other has none. -/
def WellFormed (it : TableCacheIterator α) : Prop :=
  (it.overTable = true ∧ ∃ handle, it.cleanups = [.unrefEntry handle]) ∨ (it.overTable = false ∧ it.cleanups = [])

variable {it : TableCacheIterator α}

theorem WellFormed.length_handles (h : it.WellFormed) : it.handles.length = if it.overTable then 1 else 0 := by
  rcases h with ⟨hover, handle, hcleanups⟩ | ⟨hover, hcleanups⟩
  · simp [handles, hcleanups, hover, Cleanup.handle?]
  · simp [handles, hcleanups, hover]

theorem call_cleanups [LinearOrder α] (it : TableCacheIterator α) (op : Op (InternalKey α)) :
    (call it op).cleanups = it.cleanups ∧ (call it op).overTable = it.overTable := by
  obtain ⟨iter, cleanups⟩ := it
  cases op <;> cases iter <;> exact ⟨rfl, rfl⟩

theorem WellFormed.call [LinearOrder α] (h : it.WellFormed) (op : Op (InternalKey α)) : WellFormed (call it op) := by
  obtain ⟨hcleanups, hover⟩ := it.call_cleanups op
  rw [WellFormed, hcleanups, hover]
  exact h

end Registered

/-! ## What is out -/

/-- The handles that are out belong to these iterators, and these arguments are not deleted. -/
structure World.Good (w : World α) (its : List (TableCacheIterator α)) (args : List Nat) : Prop where
  wellFormed : ∀ it ∈ its, it.WellFormed
  handles : Lent w.handles (its.flatMap Registered.handles)
  args : Lent w.args args
  fields : w.argFields.length = w.args.lent

namespace World.Good

variable {w w' : World α} {its its' : List (TableCacheIterator α)} {args args' : List Nat} {it : TableCacheIterator α}

theorem start : World.Good ({} : World α) [] [] :=
  ⟨fun _ h => absurd h List.not_mem_nil, lent_start, lent_start, rfl⟩

theorem perm (h : w.Good its args) (hits : its'.Perm its) (hargs : args'.Perm args) : w.Good its' args' :=
  ⟨fun it hit => h.wellFormed it (hits.mem_iff.1 hit), h.handles.perm (hits.flatMap_right _), h.args.perm hargs, h.fields⟩

/-- An iterator over no table needs nothing. -/
theorem cons_empty (h : w.Good its args) (iter : BlockIter (InternalKey α) Bytes) :
    w.Good ({ iter := .inr iter } :: its) args :=
  ⟨List.forall_mem_cons.2 ⟨Or.inr ⟨rfl, rfl⟩, h.wellFormed⟩, h.handles, h.args, h.fields⟩

theorem move [LinearOrder α] (h : w.Good (it :: its) args) (op : Op (InternalKey α)) :
    w.Good (call it op :: its) args := by
  obtain ⟨hit, hits⟩ := List.forall_mem_cons.1 h.wellFormed
  refine ⟨List.forall_mem_cons.2 ⟨hit.call op, hits⟩, ?_, h.args, h.fields⟩
  have hhandles : (call it op).handles = it.handles := by
    rw [Registered.handles, (it.call_cleanups op).1, Registered.handles]
  rw [List.flatMap_cons, hhandles, ← List.flatMap_cons]
  exact h.handles

/-- **`~Iterator`** releases what the iterator has. -/
theorem runCleanups (h : w.Good (it :: its) args) : ∃ w', it.runCleanups w = some w' ∧ w'.Good its args := by
  obtain ⟨hit, hits⟩ := List.forall_mem_cons.1 h.wellFormed
  have hhandles := h.handles
  rw [List.flatMap_cons] at hhandles
  rcases hit with ⟨-, handle, hcleanups⟩ | ⟨-, hcleanups⟩
  · rw [Registered.handles, hcleanups] at hhandles
    obtain ⟨handles, htake, hlent⟩ := hhandles.takeBack
    refine ⟨{ w with handles }, ?_, hits, hlent, h.args, h.fields⟩
    simp [Registered.runCleanups, hcleanups, Cleanup.run, World.release, htake]
  · rw [Registered.handles, hcleanups] at hhandles
    exact ⟨w, by simp [Registered.runCleanups, hcleanups], hits, hhandles, h.args, h.fields⟩

/-- **`new TableCacheArg`**. -/
theorem newArg (h : w.Good its args) (fields : TableCacheArg α) :
    (w.newArg fields).2.Good its ((w.newArg fields).1 :: args) :=
  ⟨h.wellFormed, h.handles, h.args.lend, by simp [World.newArg, Lender.lend, h.fields]⟩

/-- An argument that is not deleted can be read. -/
theorem readArg (h : w.Good its args) {arg : Nat} (harg : arg ∈ args) : ∃ fields, w.readArg arg = some fields := by
  have hout : w.args.isOut arg = true := h.args.isOut_iff.2 harg
  have hlt : arg < w.argFields.length := by
    rw [h.fields]
    exact List.mem_range.1 (h.args.mem_iff.1 (List.mem_append_right _ harg))
  exact ⟨w.argFields[arg], by rw [World.readArg, if_pos hout, List.getElem?_eq_getElem hlt]⟩

/-- **`DeleteTableCacheArg`**. -/
theorem deleteArg {arg : Nat} (h : w.Good its (arg :: args)) :
    ∃ w', w.deleteArg arg = some w' ∧ w'.Good its args := by
  obtain ⟨args', htake, hlent⟩ := h.args.takeBack
  refine ⟨{ w with args := args' }, by simp [World.deleteArg, htake], h.wellFormed, h.handles, hlent, ?_⟩
  obtain ⟨-, rfl⟩ : w.args.isOut arg = true ∧ { w.args with returned := w.args.returned ++ [arg] } = args' := by
    simpa [Lender.takeBack] using htake
  exact h.fields

/-- One handle for each iterator over a table. -/
theorem length_handles (h : w.Good its args) : w.handles.out.length = (its.filter Registered.overTable).length := by
  rw [h.handles.out_perm.length_eq, List.length_flatMap]
  have hlengths : ∀ its : List (TableCacheIterator α), (∀ it ∈ its, it.WellFormed) →
      (its.map fun it => it.handles.length).sum = (its.filter Registered.overTable).length := by
    intro its hits
    induction its with
    | nil => rfl
    | cons it its ih =>
      obtain ⟨hit, hits⟩ := List.forall_mem_cons.1 hits
      rw [List.map_cons, List.sum_cons, ih hits, hit.length_handles]
      by_cases hover : it.overTable = true
      · simp [hover, Nat.add_comm]
      · simp [hover]
  exact hlengths its h.wellFormed

theorem found (h : w.Good its args) : World.Good { w with finds := w.finds + 1 } its args :=
  ⟨h.wellFormed, h.handles, h.args, h.fields⟩

/-- A handle that was got and released at once. -/
theorem release (h : w.Good its args) : ∃ w',
    World.release { w with finds := w.finds + 1, handles := w.handles.lend } w.handles.next = some w' ∧ w'.Good its args := by
  obtain ⟨handles, htake, hlent⟩ := h.handles.lend.takeBack
  exact ⟨{ w with finds := w.finds + 1, handles }, by simp [World.release, htake], h.wellFormed, hlent, h.args, h.fields⟩

end World.Good

/-! ## The table cache -/

section Cache
variable {disk : Disk α} {w : World α} {its : List (TableCacheIterator α)} {args : List Nat} [Coding] [TableFormat]

/-- **`FindTable`** returns a handle with a table only. -/
theorem Disk.findTable_spec (disk : Disk α) (fileNumber fileSize : UInt64) (w : World α) :
    (∃ s, disk.findTable fileNumber fileSize w = (.error s, { w with finds := w.finds + 1 })) ∨
      ∃ table, disk.findTable fileNumber fileSize w =
        (.ok (table, w.handles.next), { w with finds := w.finds + 1, handles := w.handles.lend }) := by
  unfold Disk.findTable
  cases disk.lookup w.finds fileNumber with
  | some table => exact Or.inr ⟨table, rfl⟩
  | none =>
    cases (disk.tableCache w.finds).findTable fileNumber fileSize with
    | error s => exact Or.inl ⟨s, rfl⟩
    | ok table => exact Or.inr ⟨table, rfl⟩

variable [Slice α]

/-- **`NewIterator`**: what it returns has the handle, or there is none; `*tableptr` is set in the first case only. -/
theorem World.Good.newIterator (h : w.Good its args) (disk : Disk α) (options : ReadOptions α)
    (fileNumber fileSize : UInt64) (lo hi : α) : ∃ opened w',
      disk.newIterator options fileNumber fileSize lo hi w = some (opened, w') ∧ w'.Good (opened.iter :: its) args ∧
        opened.tableptr.isSome = opened.iter.overTable := by
  unfold Disk.newIterator
  rcases disk.findTable_spec fileNumber fileSize w with ⟨s, hfind⟩ | ⟨table, hfind⟩
  · rw [hfind]
    exact ⟨_, _, rfl, h.found.cons_empty _, rfl⟩
  · rw [hfind]
    dsimp only
    split
    · obtain ⟨w', hrelease, hw'⟩ := h.release
      rw [hrelease]
      exact ⟨_, w', rfl, hw'.cons_empty _, rfl⟩
    · refine ⟨_, _, rfl, ⟨?_, h.handles.lend, h.args, h.fields⟩, rfl⟩
      exact List.forall_mem_cons.2 ⟨Or.inl ⟨rfl, w.handles.next, rfl⟩, h.wellFormed⟩

/-- **`GetFileIterator`**, for an argument that is not deleted. -/
theorem World.Good.getFileIterator (h : w.Good its args) (disk : Disk α) (options : ReadOptions α) {arg : Nat}
    (harg : arg ∈ args) (fileValue : Bytes) : ∃ it w',
      disk.getFileIterator options arg fileValue w = some (it, w') ∧ w'.Good (it :: its) args := by
  unfold Disk.getFileIterator
  split
  · exact ⟨_, w, rfl, h.cons_empty _⟩
  · obtain ⟨fields, hread⟩ := h.readArg harg
    obtain ⟨opened, w', hopen, hw', -⟩ := h.newIterator disk options (decodeFixed64 (fileValue.take 8))
      (decodeFixed64 ((fileValue.drop 8).take 8)) fields.lo fields.hi
    exact ⟨opened.iter, w', by simp [hread, hopen], hw'⟩

variable [LinearOrder α]

/-- **`Get`** keeps no handle. -/
theorem World.Good.get {S : Type} (h : w.Good its args) (disk : Disk α) (options : ReadOptions α)
    (fileNumber fileSize : UInt64) (k : InternalKey α) (arg : S) (handleResult : S → InternalKey α → Bytes → S)
    (metrics : Option MetricsCounters) : ∃ result w',
      disk.get options fileNumber fileSize k arg handleResult metrics w = some (result, w') ∧ w'.Good its args := by
  unfold Disk.get
  rcases disk.findTable_spec fileNumber fileSize w with ⟨s, hfind⟩ | ⟨table, hfind⟩
  · rw [hfind]
    exact ⟨_, _, rfl, h.found⟩
  · rw [hfind]
    obtain ⟨w', hrelease, hw'⟩ := h.release
    dsimp only
    rw [hrelease]
    exact ⟨_, w', rfl, hw'⟩

/-- **The data iterators** of a level, as long as its argument is not deleted. -/
theorem LevelIterator.sound (disk : Disk α) (it : LevelIterator α) (its : List (TableCacheIterator α))
    (harg : it.arg ∈ args) :
    OwningIterator.Sound (it.dataIterators disk) fun ds w => w.Good (ds ++ its) args where
  perm hds h := h.perm (hds.append_right its) (.refl _)
  move op h := h.move op
  make fileValue _ _ h := h.getFileIterator disk it.options harg fileValue
  delete h := h.runCleanups

end Cache

/-! ## Live iterators -/

namespace LiveIterator

section Parts
variable [LinearOrder α] [Slice α]

/-- The iterators of the table cache in it. -/
def tables : LiveIterator α → List (TableCacheIterator α)
  | .inl it => [it]
  | .inr it => it.iter.files.dataIter.toList

/-- Its argument. -/
def args : LiveIterator α → List Nat
  | .inl _ => []
  | .inr it => [it.iter.arg]

/-- An iterator over the files of a level deletes its argument. -/
def Owns : LiveIterator α → Prop
  | .inl _ => True
  | .inr it => it.cleanups = [.deleteTableCacheArg it.iter.arg]

end Parts

end LiveIterator

section Live
variable [LinearOrder α] [Slice α]

/-- What is out belongs to these live iterators. -/
structure World.Serves (w : World α) (live : List (LiveIterator α)) : Prop where
  good : w.Good (live.flatMap LiveIterator.tables) (live.flatMap LiveIterator.args)
  owns : ∀ it ∈ live, it.Owns

namespace World.Serves

variable {disk : Disk α} {w : World α} {live live' : List (LiveIterator α)} {it : LiveIterator α}

theorem start : World.Serves ({} : World α) [] := ⟨World.Good.start, fun _ h => absurd h List.not_mem_nil⟩

theorem perm (h : w.Serves live) (hlive : live'.Perm live) : w.Serves live' :=
  ⟨h.good.perm (hlive.flatMap_right _) (hlive.flatMap_right _), fun it hit => h.owns it (hlive.mem_iff.1 hit)⟩

/-- **`new TableCacheArg`**, and the iterator that deletes it. -/
theorem newLevelFiles (h : w.Serves live) (options : ReadOptions α) (files : List (FileMetaData α)) (lo hi : α) :
    (LevelDbSurf.newLevelFiles options files lo hi w).2.Serves
      (.inr (LevelDbSurf.newLevelFiles options files lo hi w).1 :: live) :=
  ⟨h.good.newArg { lo, hi }, List.forall_mem_cons.2 ⟨rfl, h.owns⟩⟩

theorem openLevels (h : w.Serves live) (options : ReadOptions α) (lo hi : α) (levels : List (List (FileMetaData α))) :
    (Disk.openLevels options lo hi levels w).2.Serves ((Disk.openLevels options lo hi levels w).1 ++ live) := by
  induction levels generalizing w live with
  | nil => exact h
  | cons files levels ih =>
    have hnew := ih (h.newLevelFiles options files lo hi)
    exact hnew.perm List.perm_middle.symm

variable [Coding] [TableFormat]

theorem newIterator (h : w.Serves live) (disk : Disk α) (options : ReadOptions α) (fileNumber fileSize : UInt64)
    (lo hi : α) : ∃ opened w', disk.newIterator options fileNumber fileSize lo hi w = some (opened, w') ∧
      w'.Serves (.inl opened.iter :: live) := by
  obtain ⟨opened, w', hopen, hgood, -⟩ := h.good.newIterator disk options fileNumber fileSize lo hi
  exact ⟨opened, w', hopen, hgood, List.forall_mem_cons.2 ⟨trivial, h.owns⟩⟩

theorem openFiles (h : w.Serves live) (disk : Disk α) (options : ReadOptions α) (lo hi : α)
    (files : List (FileMetaData α)) : ∃ iters w',
      disk.openFiles options lo hi files w = some (iters, w') ∧ w'.Serves (iters ++ live) := by
  induction files generalizing w live with
  | nil => exact ⟨[], w, rfl, h⟩
  | cons f files ih =>
    obtain ⟨opened, w₁, hopen, h₁⟩ := h.newIterator disk options f.number f.fileSize lo hi
    obtain ⟨iters, w₂, hrest, h₂⟩ := ih h₁
    exact ⟨.inl opened.iter :: iters, w₂, by simp [Disk.openFiles, hopen, hrest], h₂.perm List.perm_middle.symm⟩

/-- **`AddIterators`**. -/
theorem addIterators (h : w.Serves live) (disk : Disk α) (v : Version α) (options : ReadOptions α) (lo hi : α) :
    ∃ iters w', disk.addIterators v options lo hi w = some (iters, w') ∧ w'.Serves (iters ++ live) := by
  obtain ⟨level0, w₁, hopen, h₁⟩ := h.openFiles disk options lo hi (v.files 0)
  have hlevels := h₁.openLevels options lo hi
    (((List.range' 1 (kNumLevels - 1)).filter fun level => !(v.files level).isEmpty).map v.files)
  refine ⟨_, _, by rw [Disk.addIterators, hopen]; rfl, hlevels.perm ?_⟩
  rw [← List.append_assoc]
  exact List.perm_append_comm.append_right live

theorem inputIterators (h : w.Serves live) (disk : Disk α) (options : ReadOptions α) (level : Nat)
    (files : List (FileMetaData α)) : ∃ iters w',
      disk.inputIterators options level files w = some (iters, w') ∧ w'.Serves (iters ++ live) := by
  unfold Disk.inputIterators
  split
  · exact ⟨[], w, rfl, h⟩
  · split
    · exact h.openFiles disk options Slice.nil Slice.nil files
    · exact ⟨_, _, rfl, h.openLevels options Slice.nil Slice.nil [files]⟩

/-- **`MakeInputIterator`**. -/
theorem makeInputIterators (h : w.Serves live) (disk : Disk α) (options : ReadOptions α) (c : Compaction α) :
    ∃ iters w', disk.makeInputIterators options c w = some (iters, w') ∧ w'.Serves (iters ++ live) := by
  obtain ⟨first, w₁, hfirst, h₁⟩ := h.inputIterators disk options c.level (c.inputs 0)
  obtain ⟨second, w₂, hsecond, h₂⟩ := h₁.inputIterators disk options (c.level + 1) (c.inputs 1)
  refine ⟨first ++ second, w₂, by simp [Disk.makeInputIterators, hfirst, hsecond], h₂.perm ?_⟩
  rw [← List.append_assoc]
  exact List.perm_append_comm.append_right live

/-- **A call** on a live iterator. -/
theorem apply (h : w.Serves (it :: live)) (disk : Disk α) (op : Op (InternalKey α)) : ∃ it' w',
    it.apply disk op w = some (it', w') ∧ w'.Serves (it' :: live) := by
  cases it with
  | inl it =>
    refine ⟨_, w, rfl, ?_, List.forall_mem_cons.2 ⟨trivial, fun it hit => h.owns it (List.mem_cons_of_mem _ hit)⟩⟩
    cases op with
    | next =>
      rw [Cursors.apply]
      split
      · exact h.good.move .next
      · exact h.good
    | prev =>
      rw [Cursors.apply]
      split
      · exact h.good.move .prev
      · exact h.good
    | seek t => exact h.good.move (.seek t)
    | seekToFirst => exact h.good.move .seekToFirst
    | seekToLast => exact h.good.move .seekToLast
  | inr it =>
    obtain ⟨hit, howns⟩ := List.forall_mem_cons.1 h.owns
    have harg : it.iter.arg ∈ it.iter.arg :: live.flatMap LiveIterator.args := List.mem_cons_self
    have hsound := it.iter.sound disk (live.flatMap LiveIterator.tables) harg
    obtain ⟨files, w', happly, hgood⟩ := hsound.apply op h.good
    exact ⟨.inr { it with iter := { it.iter with files } }, w', by simp [LiveIterator.apply, happly], hgood,
      List.forall_mem_cons.2 ⟨hit, howns⟩⟩

/-- **`delete`** of a live iterator: it leaves nothing behind. -/
theorem delete (h : w.Serves (it :: live)) (disk : Disk α) : ∃ w', it.delete disk w = some w' ∧ w'.Serves live := by
  obtain ⟨hit, howns⟩ := List.forall_mem_cons.1 h.owns
  cases it with
  | inl it =>
    obtain ⟨w', hrun, hgood⟩ := World.Good.runCleanups h.good
    exact ⟨w', hrun, hgood, howns⟩
  | inr it =>
    have harg : it.iter.arg ∈ it.iter.arg :: live.flatMap LiveIterator.args := List.mem_cons_self
    have hsound := it.iter.sound disk (live.flatMap LiveIterator.tables) harg
    obtain ⟨w₁, hdelete, h₁⟩ := hsound.destructor h.good
    obtain ⟨w', harg, hgood⟩ := h₁.deleteArg
    have hcleanups : it.cleanups = [.deleteTableCacheArg it.iter.arg] := hit
    exact ⟨w', by simp [LiveIterator.delete, hdelete, Registered.runCleanups, hcleanups, Cleanup.run, harg], hgood, howns⟩

end World.Serves

/-! ## Runs -/

namespace Iterators

/-- The live iterators over an opened table, the open data iterators of the others among them. -/
def overTables (s : Iterators α) : List (TableCacheIterator α) :=
  (s.live.flatMap LiveIterator.tables).filter Registered.overTable

/-- The arguments of the live iterators. -/
def liveArgs (s : Iterators α) : List Nat := s.live.flatMap LiveIterator.args

variable [Coding] [TableFormat] {disk : Disk α} {s : Iterators α}

/-- **One request.** -/
theorem step_serves (h : s.world.Serves s.live) (disk : Disk α) (request : Request α) :
    ∃ s', s.step disk request = some s' ∧ s'.world.Serves s'.live := by
  cases request with
  | newIterator options fileNumber fileSize lo hi =>
    obtain ⟨opened, w, hopen, hw⟩ := h.newIterator disk options fileNumber fileSize lo hi
    exact ⟨{ world := w, live := s.live ++ [.inl opened.iter] }, by simp [step, hopen],
      hw.perm (List.perm_append_singleton _ _)⟩
  | get options fileNumber fileSize k =>
    obtain ⟨result, w, hget, hgood⟩ :=
      h.good.get disk options fileNumber fileSize k () (fun _ _ _ => ()) none
    exact ⟨{ s with world := w }, by simp [step, hget], hgood, h.owns⟩
  | addIterators v options lo hi =>
    obtain ⟨iters, w, hadd, hw⟩ := h.addIterators disk v options lo hi
    exact ⟨{ world := w, live := s.live ++ iters }, by simp [step, hadd], hw.perm List.perm_append_comm⟩
  | makeInputIterator options c =>
    obtain ⟨iters, w, hmake, hw⟩ := h.makeInputIterators disk options c
    exact ⟨{ world := w, live := s.live ++ iters }, by simp [step, hmake], hw.perm List.perm_append_comm⟩
  | apply i op =>
    cases hi : s.live[i]? with
    | none => exact ⟨s, by simp [step, hi], h⟩
    | some it =>
      obtain ⟨hlt, rfl⟩ := List.getElem?_eq_some_iff.1 hi
      obtain ⟨it', w, happly, hw⟩ := (h.perm (List.getElem_cons_eraseIdx_perm hlt)).apply disk op
      exact ⟨{ world := w, live := s.live.set i it' }, by simp [step, hi, happly],
        hw.perm (List.set_perm_cons_eraseIdx hlt it')⟩
  | delete i =>
    cases hi : s.live[i]? with
    | none => exact ⟨s, by simp [step, hi], h⟩
    | some it =>
      obtain ⟨hlt, rfl⟩ := List.getElem?_eq_some_iff.1 hi
      obtain ⟨w, hdelete, hw⟩ := (h.perm (List.getElem_cons_eraseIdx_perm hlt)).delete disk
      exact ⟨{ world := w, live := s.live.eraseIdx i }, by simp [step, hi, hdelete], hw⟩

/-- **A run.** -/
theorem run_serves (h : s.world.Serves s.live) (disk : Disk α) (requests : List (Request α)) :
    ∃ s', s.run disk requests = some s' ∧ s'.world.Serves s'.live := by
  induction requests generalizing s with
  | nil => exact ⟨s, rfl, h⟩
  | cons request requests ih =>
    obtain ⟨s₁, hstep, h₁⟩ := step_serves h disk request
    obtain ⟨s', hrun, h'⟩ := ih h₁
    exact ⟨s', by rw [run, List.foldlM_cons, hstep]; exact hrun, h'⟩

/-- Nothing is released twice, and what has not been released belongs to a live iterator. -/
structure ReleasesOnce (s : Iterators α) : Prop where
  /-- `FindTable` returned it, and it was released once. -/
  handles : s.world.handles.returned.Nodup ∧ ∀ handle ∈ s.world.handles.returned, handle < s.world.handles.lent
  outstanding : s.world.handles.out.length = s.overTables.length
  /-- Without live iterators, every handle has been released. -/
  allHandles : s.live = [] → s.world.handles.returned.Perm (List.range s.world.handles.lent)
  args : s.world.args.returned.Nodup
  /-- An argument lives as long as its iterator. -/
  liveArgs : s.world.args.out.Perm s.liveArgs
  allArgs : s.live = [] → s.world.args.returned.Perm (List.range s.world.args.lent)

omit [Coding] [TableFormat] in
theorem releasesOnce (h : s.world.Serves s.live) : s.ReleasesOnce where
  handles := by
    refine ⟨h.good.handles.returned_nodup, fun handle hreturned => ?_⟩
    exact List.mem_range.1 (h.good.handles.mem_iff.1 (List.mem_append_left _ hreturned))
  outstanding := h.good.length_handles
  allHandles hlive := by
    have hhandles := h.good.handles
    rw [hlive] at hhandles
    exact hhandles.all_returned
  args := h.good.args.returned_nodup
  liveArgs := h.good.args.out_perm
  allArgs hlive := by
    have hargs := h.good.args
    rw [hlive] at hargs
    exact hargs.all_returned

/-- **Every handle and every argument is released once**, after any requests, none of which is undefined; an iterator
that is not over a table leaves no handle out, and `*tableptr` null. -/
theorem run_releasesOnce (disk : Disk α) (requests : List (Request α)) :
    ∃ s, ({} : Iterators α).run disk requests = some s ∧ s.ReleasesOnce ∧
      ∀ (options : ReadOptions α) (fileNumber fileSize : UInt64) (lo hi : α), ∃ opened w,
        disk.newIterator options fileNumber fileSize lo hi s.world = some (opened, w) ∧
          (opened.iter.overTable = false → opened.tableptr = none ∧ w.handles.out.Perm s.world.handles.out) := by
  obtain ⟨s, hrun, hs⟩ := run_serves (s := {}) World.Serves.start disk requests
  refine ⟨s, hrun, releasesOnce hs, fun options fileNumber fileSize lo hi => ?_⟩
  obtain ⟨opened, w, hopen, hgood, htableptr⟩ := hs.good.newIterator disk options fileNumber fileSize lo hi
  refine ⟨opened, w, hopen, fun hover => ⟨?_, ?_⟩⟩
  · rwa [hover, Option.isSome_eq_false_iff, Option.isNone_iff_eq_none] at htableptr
  · obtain ⟨hit, -⟩ := List.forall_mem_cons.1 hgood.wellFormed
    have hnone : opened.iter.handles = [] := by
      rw [← List.length_eq_zero_iff, hit.length_handles, hover]
      rfl
    have hhandles := hgood.handles.out_perm
    rw [List.flatMap_cons, hnone, List.nil_append] at hhandles
    exact hhandles.trans hs.good.handles.out_perm.symm

end Iterators

end Live

/-! ## The iterators without handles -/

section Steady
variable {disk : Disk α} {cache : TableCache α} {w w' : World α}

/-- Cleanups leave the fields of arguments alone. -/
theorem Registered.runCleanups_argFields {σ : Type} {it : Registered σ} (h : it.runCleanups w = some w') :
    w'.argFields = w.argFields := by
  unfold Registered.runCleanups at h
  generalize it.cleanups = cleanups at h
  induction cleanups generalizing w with
  | nil =>
    obtain rfl := Option.some.inj h
    rfl
  | cons c cleanups ih =>
    rw [List.foldlM_cons] at h
    obtain ⟨w₁, hrun, h⟩ := Option.bind_eq_some_iff.1 h
    rw [ih h]
    cases c with
    | unrefEntry handle =>
      obtain ⟨handles, -, rfl⟩ := Option.map_eq_some_iff.1 hrun
      rfl
    | deleteTableCacheArg arg =>
      obtain ⟨args, -, rfl⟩ := Option.map_eq_some_iff.1 hrun
      rfl

/-- The files do not change, and what is in the cache is what opening the file would give. -/
structure Disk.Steady [TableFormat] [Coding] (disk : Disk α) (cache : TableCache α) : Prop where
  tableCache : ∀ n, disk.tableCache n = cache
  lookup : ∀ n fileNumber fileSize table,
    disk.lookup n fileNumber = some table → cache.findTable fileNumber fileSize = .ok table

namespace Disk.Steady

variable [Coding] [TableFormat]

theorem findTable (h : disk.Steady cache) (fileNumber fileSize : UInt64) (w : World α) :
    (∃ s, cache.findTable fileNumber fileSize = .error s ∧
        disk.findTable fileNumber fileSize w = (.error s, { w with finds := w.finds + 1 })) ∨
      ∃ table, cache.findTable fileNumber fileSize = .ok table ∧ disk.findTable fileNumber fileSize w =
        (.ok (table, w.handles.next), { w with finds := w.finds + 1, handles := w.handles.lend }) := by
  unfold Disk.findTable
  cases hlookup : disk.lookup w.finds fileNumber with
  | some table => exact Or.inr ⟨table, h.lookup _ _ fileSize _ hlookup, rfl⟩
  | none =>
    rw [h.tableCache]
    cases cache.findTable fileNumber fileSize with
    | error s => exact Or.inl ⟨s, rfl, rfl⟩
    | ok table => exact Or.inr ⟨table, rfl, rfl⟩

variable [Slice α] {options : ReadOptions α} {lo hi : α}

/-- **`NewIterator`** returns what it returns without handles. -/
theorem newIterator (h : disk.Steady cache) {fileNumber fileSize : UInt64} {opened : OpenedTable α}
    (hopen : disk.newIterator options fileNumber fileSize lo hi w = some (opened, w'))
    (metrics : Option MetricsCounters) :
    opened.iter.iter = (cache.newIterator options fileNumber fileSize lo hi metrics).iter ∧
      opened.tableptr = (cache.newIterator options fileNumber fileSize lo hi metrics).tableptr ∧
      w'.argFields = w.argFields := by
  unfold Disk.newIterator at hopen
  unfold TableCache.newIterator
  rcases h.findTable fileNumber fileSize w with ⟨s, hpure, hfind⟩ | ⟨table, hpure, hfind⟩
  · rw [hfind] at hopen
    obtain ⟨rfl, rfl⟩ := Prod.mk.inj (Option.some.inj hopen)
    rw [hpure]
    exact ⟨rfl, rfl, rfl⟩
  · rw [hfind] at hopen
    rw [hpure]
    dsimp only at hopen ⊢
    by_cases hbounded : bounded lo hi = true
    · cases hmatch : table.rangeMayMatch lo hi with
      | false =>
        rw [if_pos (by simp [hbounded, hmatch])] at hopen
        obtain ⟨w₁, hrelease, hopen⟩ := Option.bind_eq_some_iff.1 hopen
        obtain ⟨rfl, rfl⟩ := Prod.mk.inj (Option.some.inj hopen)
        obtain ⟨handles, -, rfl⟩ := Option.map_eq_some_iff.1 hrelease
        simp [hbounded]
      | true =>
        rw [if_neg (by simp [hmatch])] at hopen
        obtain ⟨rfl, rfl⟩ := Prod.mk.inj (Option.some.inj hopen)
        simp [hbounded, Registered.registerCleanup]
    · rw [if_neg (by simp [hbounded])] at hopen
      obtain ⟨rfl, rfl⟩ := Prod.mk.inj (Option.some.inj hopen)
      simp [hbounded, Registered.registerCleanup]

variable [LinearOrder α]

/-- The data iterators of a level are those without handles. -/
theorem mirrors (h : disk.Steady cache) (it : LevelIterator α) (lo hi : α) :
    OwningIterator.Mirrors (it.dataIterators disk) Registered.iter
      (fun value => (LevelDbSurf.getFileIterator cache lo hi it.options value none).iter)
      fun w => w.argFields[it.arg]? = some { lo, hi } where
  current _ := rfl
  status _ := rfl
  call d op := by cases op <;> rfl
  make {value w w' d} hw hmake := by
    change disk.getFileIterator it.options it.arg value w = some (d, w') at hmake
    unfold Disk.getFileIterator at hmake
    unfold LevelDbSurf.getFileIterator
    split at hmake
    · rename_i hlength
      obtain ⟨rfl, rfl⟩ := Prod.mk.inj (Option.some.inj hmake)
      rw [if_pos hlength]
      exact ⟨rfl, hw⟩
    · rename_i hlength
      rw [if_neg hlength]
      obtain ⟨fields, hread, hmake⟩ := Option.bind_eq_some_iff.1 hmake
      obtain ⟨⟨opened, w₁⟩, hopen, hmake⟩ := Option.bind_eq_some_iff.1 hmake
      obtain ⟨rfl, rfl⟩ := Prod.mk.inj (Option.some.inj hmake)
      obtain rfl : fields = { lo, hi } := by
        rw [World.readArg] at hread
        split at hread
        · rw [hw] at hread
          exact (Option.some.inj hread).symm
        · cases hread
      obtain ⟨hiter, -, hargs⟩ := h.newIterator hopen none
      exact ⟨hiter, hargs ▸ hw⟩
  delete hw hdelete := by
    rw [Registered.runCleanups_argFields hdelete]
    exact hw

end Disk.Steady

/-- **An iterator over the files of a level** starts as it does without handles, and with `Disk.Steady.mirrors` it does
the same on every call. -/
theorem newLevelFiles_reflects [Slice α] [LinearOrder α] [Coding] [TableFormat] (cache : TableCache α)
    (options : ReadOptions α) (files : List (FileMetaData α)) (lo hi : α) (h : w.argFields.length = w.args.lent) :
    let it := (newLevelFiles options files lo hi w).1.iter
    OwningIterator.Reflects Registered.iter (fun value => (getFileIterator cache lo hi options value none).iter)
        it.files (newLevelIterator cache options files lo hi) ∧
      (newLevelFiles options files lo hi w).2.argFields[it.arg]? = some { lo, hi } := by
  refine ⟨⟨rfl, rfl, rfl, rfl, rfl⟩, ?_⟩
  show (w.argFields ++ [_])[w.args.lent]? = _
  rw [← h, List.getElem?_concat_length]

end Steady

end LevelDbSurf
