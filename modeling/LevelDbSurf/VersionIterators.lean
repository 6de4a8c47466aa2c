import LevelDbSurf.Version

/-!
# What the iterators of a version show

Each child `AddIterators` makes is a cursor over the entries the bounds keep: of one level-0 table, or
of the tables of a level one after the other (`addIterators_behaviour`).
-/

namespace LevelDbSurf

open Cursors TwoLevelIterator

variable {α : Type} [LinearOrder α]

/-- The files of a level are sorted and disjoint. -/
def LevelSorted (files : List (FileMetaData α)) : Prop := files.Pairwise fun a b => a.largest < b.smallest

/-- Every level but level 0 is sorted and disjoint. -/
def Version.SortedLevels (v : Version α) : Prop := ∀ level, 1 ≤ level → LevelSorted (v.files level)

theorem LevelSorted.largest {files : List (FileMetaData α)} (h : LevelSorted files) :
    files.Pairwise fun a b => a.largest < b.largest :=
  h.imp fun {_ b} hab => lt_of_lt_of_le hab b.ordered

theorem LevelSorted.sublist {files files' : List (FileMetaData α)} (h : LevelSorted files)
    (hs : files'.Sublist files) : LevelSorted files' :=
  List.Pairwise.sublist hs h

/-! ## `FindFile` -/

/-- The interval of the binary search: left of it every file ends before `key`, right of it none
does. -/
def Brackets (files : List (FileMetaData α)) (key : InternalKey α) (left right : Nat) : Prop :=
  (∀ f ∈ files.take left, f.largest < key) ∧ ∀ f ∈ files.drop right, key ≤ f.largest

theorem Brackets.left {files : List (FileMetaData α)} {key : InternalKey α} {left right mid : Nat}
    (hs : LevelSorted files) (h : Brackets files key left right) (hm : mid < files.length)
    (hlt : (files.get ⟨mid, hm⟩).largest < key) : Brackets files key (mid + 1) right := by
  refine ⟨fun f hf => ?_, h.2⟩
  rw [List.take_succ_eq_append_getElem hm, List.mem_append, List.mem_singleton] at hf
  rcases hf with hf | rfl
  · have hsplit := hs.largest
    rw [← List.take_append_drop mid files, List.pairwise_append] at hsplit
    exact lt_trans (hsplit.2.2 f hf _ (by rw [List.drop_eq_getElem_cons hm]; exact List.mem_cons_self)) hlt
  · exact hlt

theorem Brackets.right {files : List (FileMetaData α)} {key : InternalKey α} {left right mid : Nat}
    (hs : LevelSorted files) (h : Brackets files key left right) (hm : mid < files.length)
    (hle : key ≤ (files.get ⟨mid, hm⟩).largest) : Brackets files key left mid := by
  refine ⟨h.1, fun f hf => ?_⟩
  rw [List.drop_eq_getElem_cons hm, List.mem_cons] at hf
  rcases hf with rfl | hf
  · exact hle
  · have hlater := pairwise_drop hs.largest (List.getElem?_eq_getElem hm) f hf
    exact le_trans hle hlater.le

/-- The loop narrows the interval down to the place of `key`. -/
theorem findFileLoop_brackets {files : List (FileMetaData α)} {key : InternalKey α} (hs : LevelSorted files)
    {left right : Nat} (hlr : left ≤ right) (h : right ≤ files.length) (hb : Brackets files key left right) :
    findFileLoop files key left right h ≤ files.length ∧
      Brackets files key (findFileLoop files key left right h) (findFileLoop files key left right h) := by
  -- by induction on the length of the interval
  generalize hn : right - left = n
  induction n using Nat.strongRecOn generalizing left right with
  | ind n ih =>
    rw [findFileLoop]
    split
    · rename_i hlt
      dsimp only
      split
      · rename_i hmid
        exact ih (right - ((left + right) / 2 + 1)) (by omega) (by omega) h
          (hb.left hs (by omega) hmid) rfl
      · rename_i hmid
        exact ih ((left + right) / 2 - left) (by omega) (by omega) (by omega)
          (hb.right hs (by omega) (not_lt.1 hmid)) rfl
    · have : left = right := by omega
      subst this
      exact ⟨h, hb⟩

/-- **`FindFile`**: all files before it end before `key`, and none from it on does. -/
theorem findFile_brackets {files : List (FileMetaData α)} (hs : LevelSorted files) (key : InternalKey α) :
    findFile files key ≤ files.length ∧ Brackets files key (findFile files key) (findFile files key) :=
  findFileLoop_brackets hs (Nat.zero_le _) (le_refl files.length) ⟨by simp, by simp⟩

section Level
variable [Coding]

/-- What a level's index iterator shows of the files. -/
def levelIndex (files : List (FileMetaData α)) : List (InternalKey α × Bytes) :=
  files.map fun f => (f.largest, fileValue f)

/-- It is where the index would be sought. -/
theorem findFile_eq {files : List (FileMetaData α)} (hs : LevelSorted files) (key : InternalKey α) :
    findFile files key = seekPos (levelIndex files) key := by
  obtain ⟨hle, hbefore, hafter⟩ := findFile_brackets hs key
  symm
  apply seekPos_eq
  · rw [levelIndex, List.length_map]
    exact hle
  · intro e he
    rw [levelIndex, ← List.map_take] at he
    obtain ⟨f, hf, rfl⟩ := List.mem_map.1 he
    exact hbefore f hf
  · intro e he
    rw [levelIndex, ← List.map_drop] at he
    obtain ⟨f, hf, rfl⟩ := List.mem_map.1 he
    exact hafter f hf

/-- The index iterator of a level is a cursor over its files. -/
theorem levelFileNumIterator_tracks {files : List (FileMetaData α)} (hs : LevelSorted files) :
    Tracks (levelIndex files) ({ flist := files } : LevelFileNumIterator α) files.length := by
  refine Simulates.tracks
    (R := fun (it : LevelFileNumIterator α) p => it.flist = files ∧ it.index = p) ?_ ⟨rfl, rfl⟩
  have hlen : (levelIndex files).length = files.length := List.length_map _
  constructor
  · rintro it p ⟨rfl, rfl⟩
    show it.flist[it.index]?.map _ = _
    rw [levelIndex, List.getElem?_map]
  · rintro it p t ⟨rfl, rfl⟩
    exact ⟨rfl, findFile_eq hs t⟩
  · rintro it p ⟨rfl, rfl⟩
    exact ⟨rfl, rfl⟩
  · rintro it p ⟨rfl, rfl⟩
    refine ⟨rfl, ?_⟩
    show (if it.flist.isEmpty then 0 else it.flist.length - 1) = _
    rw [lastPos, hlen]
    cases it.flist <;> rfl
  · rintro it p ⟨rfl, rfl⟩ -
    exact ⟨rfl, rfl⟩
  · rintro it p ⟨rfl, rfl⟩ -
    refine ⟨rfl, ?_⟩
    show (if it.index = 0 then it.flist.length else it.index - 1) = _
    rw [prevPos, hlen]

end Level

/-! ## Files that can be read -/

section Files
variable [Slice α] [Coding] [TableFormat]

/-- The cache finds `t` under the file's number, and the recorded keys bound its entries. -/
structure Serves (cache : TableCache α) (f : FileMetaData α) (t : Table α) : Prop where
  found : cache.findTable f.number f.fileSize = .ok t
  wellFormed : t.WellFormed
  within : ∀ x ∈ t.entries, f.smallest ≤ x.1 ∧ x.1 ≤ f.largest

/-- Every file of the version can be read. -/
def Version.Readable (v : Version α) (cache : TableCache α) : Prop :=
  ∀ level, ∀ f ∈ v.files level, ∃ t, Serves cache f t

/-- The entries of a file the bounds keep. -/
def fileKept (cache : TableCache α) (lo hi : α) (f : FileMetaData α) : List (InternalKey α × Bytes) :=
  match cache.findTable f.number f.fileSize with
  | .ok t => t.kept lo hi
  | .error _ => []

/-- All entries of a file. -/
def fileEntries (cache : TableCache α) (f : FileMetaData α) : List (InternalKey α × Bytes) :=
  match cache.findTable f.number f.fileSize with
  | .ok t => t.entries
  | .error _ => []

variable {cache : TableCache α}

theorem Serves.kept {f : FileMetaData α} {t : Table α} (h : Serves cache f t) (lo hi : α) :
    fileKept cache lo hi f = t.kept lo hi := by
  rw [fileKept, h.found]

/-- Without bounds a file keeps all its entries. -/
theorem fileKept_nil : fileKept cache Slice.nil Slice.nil = fileEntries cache := by
  funext f
  unfold fileKept fileEntries
  cases cache.findTable f.number f.fileSize with
  | error s => rfl
  | ok t => exact t.kept_of_not_bounded bounded_nil

omit [Slice α] in
theorem Serves.entries {f : FileMetaData α} {t : Table α} (h : Serves cache f t) :
    fileEntries cache f = t.entries := by
  rw [fileEntries, h.found]

/-! ### The callback -/

omit [Slice α] [TableFormat] in
theorem fileValue_length (f : FileMetaData α) : (fileValue f).length = 16 := by
  rw [fileValue, List.length_append, Coding.encodeFixed64_length, Coding.encodeFixed64_length]

omit [Slice α] [TableFormat] in
theorem fileValue_number (f : FileMetaData α) : decodeFixed64 ((fileValue f).take 8) = f.number := by
  have hlen := Coding.encodeFixed64_length f.number
  rw [fileValue, List.take_append_of_le_length (by omega), List.take_of_length_le (by omega),
    Coding.decode_encodeFixed64]

omit [Slice α] [TableFormat] in
theorem fileValue_fileSize (f : FileMetaData α) :
    decodeFixed64 (((fileValue f).drop 8).take 8) = f.fileSize := by
  have hlen := Coding.encodeFixed64_length f.number
  have hlen' := Coding.encodeFixed64_length f.fileSize
  rw [fileValue, List.drop_append_of_le_length (by omega), List.drop_of_length_le (by omega),
    List.nil_append, List.take_of_length_le (by omega), Coding.decode_encodeFixed64]

/-- **`GetFileIterator`** opens the file under the index iterator. -/
theorem getFileIterator_fileValue (cache : TableCache α) (lo hi : α) (options : ReadOptions α)
    (f : FileMetaData α) (metrics : Option MetricsCounters) :
    getFileIterator cache lo hi options (fileValue f) metrics =
      cache.newIterator options f.number f.fileSize lo hi metrics := by
  rw [getFileIterator, if_neg (by rw [fileValue_length]; simp), fileValue_number, fileValue_fileSize]

/-- What the callback shows for a value of a level's index. -/
def valueKept (cache : TableCache α) (lo hi : α) (v : Bytes) : List (InternalKey α × Bytes) :=
  match cache.findTable (decodeFixed64 (v.take 8)) (decodeFixed64 ((v.drop 8).take 8)) with
  | .ok t => t.kept lo hi
  | .error _ => []

theorem valueKept_fileValue (lo hi : α) (f : FileMetaData α) :
    valueKept cache lo hi (fileValue f) = fileKept cache lo hi f := by
  rw [valueKept, fileValue_number, fileValue_fileSize, fileKept]

theorem flat_levelIndex (lo hi : α) (files : List (FileMetaData α)) :
    flat (levelIndex files) (valueKept cache lo hi) = files.flatMap (fileKept cache lo hi) := by
  rw [flat, levelIndex, List.flatMap_map]
  congr 1
  funext f
  exact valueKept_fileValue lo hi f

/-- The iterator over one file. -/
theorem fileIterator_tracks {f : FileMetaData α} {t : Table α} (h : Serves cache f t)
    (options : ReadOptions α) (lo hi : α) (metrics : Option MetricsCounters) :
    Tracks (fileKept cache lo hi f) (cache.newIterator options f.number f.fileSize lo hi metrics).iter
      (fileKept cache lo hi f).length := by
  rw [h.kept]
  exact TableCache.newIterator_tracks h.found h.wellFormed options lo hi metrics

/-- **The iterator over a level** is a cursor over what the bounds keep of its files, in order. -/
theorem newLevelIterator_tracks {files : List (FileMetaData α)} (hs : LevelSorted files)
    (hr : ∀ f ∈ files, ∃ t, Serves cache f t) (options : ReadOptions α) (lo hi : α) :
    Tracks (files.flatMap (fileKept cache lo hi)) (newLevelIterator cache options files lo hi)
      (files.flatMap (fileKept cache lo hi)).length := by
  have hkept : ∀ f ∈ files, ∀ x ∈ fileKept cache lo hi f, f.smallest ≤ x.1 ∧ x.1 ≤ f.largest := by
    intro f hf x hx
    obtain ⟨t, ht⟩ := hr f hf
    rw [ht.kept] at hx
    exact ht.within x ((t.kept_sublist lo hi).subset hx)
  rw [← flat_levelIndex]
  refine tracks_flat (levelFileNumIterator_tracks hs) ?_ ⟨?_, ?_⟩
  · intro e he
    obtain ⟨f, hf, rfl⟩ := List.mem_map.1 he
    obtain ⟨t, ht⟩ := hr f hf
    dsimp only
    rw [valueKept_fileValue, getFileIterator_fileValue]
    exact fileIterator_tracks ht options lo hi none
  · intro e he x hx
    obtain ⟨f, hf, rfl⟩ := List.mem_map.1 he
    rw [valueKept_fileValue] at hx
    exact (hkept f hf x hx).2
  · rw [levelIndex, List.pairwise_map]
    refine hs.imp_of_mem fun {f g} _ hg hfg x hx => ?_
    rw [valueKept_fileValue] at hx
    exact lt_of_lt_of_le hfg (hkept g hg x hx).1

/-! ## The children of the merging iterator -/

/-- The levels from 1 on that hold files. -/
def Version.deeperLevels (v : Version α) : List Nat :=
  (List.range' 1 (kNumLevels - 1)).filter fun level => !(v.files level).isEmpty

omit [Slice α] [Coding] [TableFormat] in
theorem mem_deeperLevels {v : Version α} {level : Nat} (h : level ∈ v.deeperLevels) :
    1 ≤ level ∧ level < kNumLevels := by
  have hrange := List.mem_range'_1.1 (List.mem_filter.1 h).1
  unfold kNumLevels at hrange ⊢
  omega

/-- What the children show: one list for each level-0 file, one for each deeper level. -/
def Version.children (v : Version α) (cache : TableCache α) (lo hi : α) :
    List (List (InternalKey α × Bytes)) :=
  (v.files 0).map (fileKept cache lo hi) ++
    v.deeperLevels.map fun level => (v.files level).flatMap (fileKept cache lo hi)

theorem addLevel0_behaviour (options : ReadOptions α) (lo hi : α) {files : List (FileMetaData α)}
    (hr : ∀ f ∈ files, ∃ t, Serves cache f t) (metrics : Option MetricsCounters) :
    (Version.addLevel0 cache options lo hi files metrics).1.map behaviour =
      (files.map (fileKept cache lo hi)).map cursor := by
  induction files generalizing metrics with
  | nil => rfl
  | cons f files ih =>
    obtain ⟨t, ht⟩ := hr f List.mem_cons_self
    have hf := bisimulates_inl (σ := FileIterator α) (τ := ConcatenatingIterator α) |>.tracks rfl
      (fileIterator_tracks ht options lo hi metrics)
    rw [Version.addLevel0]
    simp only [List.map_cons]
    rw [hf.behaviour_eq, ih (fun g hg => hr g (List.mem_cons_of_mem _ hg))]

/-- **The children.** The iterators `AddIterators` appends are cursors over what the bounds keep of
each level-0 file and of each deeper level. -/
theorem addIterators_behaviour {v : Version α} (hs : v.SortedLevels) (hr : v.Readable cache)
    (options : ReadOptions α) (lo hi : α) (metrics : Option MetricsCounters) :
    (v.addIterators cache options lo hi metrics).1.map behaviour =
      (v.children cache lo hi).map cursor := by
  rw [Version.addIterators, Version.children]
  simp only [List.map_append, List.map_map]
  rw [addLevel0_behaviour options lo hi (hr 0)]
  congr 1
  · rw [List.map_map]
  · apply List.map_congr_left
    intro level hl
    have h1 : 1 ≤ level := (mem_deeperLevels hl).1
    exact (bisimulates_inr.tracks rfl
      (newLevelIterator_tracks (hs level h1) (hr level) options lo hi)).behaviour_eq

theorem fileKept_sorted {f : FileMetaData α} {t : Table α} (h : Serves cache f t) (lo hi : α) :
    Sorted (fileKept cache lo hi f) := by
  rw [h.kept]
  exact List.Pairwise.sublist (t.kept_sublist lo hi) ((Table.entries_sorted h.wellFormed).imp le_of_lt)

/-- What the bounds keep of a level's files is sorted from one to the next. -/
theorem levelKept_sorted {files : List (FileMetaData α)} (hs : LevelSorted files)
    (hr : ∀ f ∈ files, ∃ t, Serves cache f t) (lo hi : α) : Sorted (files.flatMap (fileKept cache lo hi)) := by
  refine sorted_flatMap (fun f hf => ?_) (hs.imp_of_mem fun {f g} hf hg hfg a ha b hb => ?_)
  · obtain ⟨t, ht⟩ := hr f hf
    exact fileKept_sorted ht lo hi
  · obtain ⟨t, ht⟩ := hr f hf
    obtain ⟨u, hu⟩ := hr g hg
    rw [ht.kept] at ha
    rw [hu.kept] at hb
    have h1 := (ht.within a ((t.kept_sublist lo hi).subset ha)).2
    have h2 := (hu.within b ((u.kept_sublist lo hi).subset hb)).1
    exact (lt_of_le_of_lt h1 (lt_of_lt_of_le hfg h2)).le

/-- The children are sorted, as the merging iterator needs them. -/
theorem children_sorted {v : Version α} (hs : v.SortedLevels) (hr : v.Readable cache) (lo hi : α) :
    ∀ L ∈ v.children cache lo hi, Sorted L := by
  intro L hL
  rw [Version.children, List.mem_append] at hL
  rcases hL with hL | hL
  · obtain ⟨f, hf, rfl⟩ := List.mem_map.1 hL
    obtain ⟨t, ht⟩ := hr 0 f hf
    exact fileKept_sorted ht lo hi
  · obtain ⟨level, hl, rfl⟩ := List.mem_map.1 hL
    exact levelKept_sorted (hs level (mem_deeperLevels hl).1) (hr level) lo hi

end Files

end LevelDbSurf
