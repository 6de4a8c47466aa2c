import LevelDbSurf.VersionGet
import LevelDbSurf.VersionIterators
import LevelDbSurf.Snapshot
import LevelDbSurf.OriginalFilterBlock

/-!
# Looking a key up in one file

`State::Match` reads one file through the table cache. With filters that never reject an added key it
finds the newest entry of the user key in that file and goes on iff there is none (`matchFile_eq`).
-/

namespace LevelDbSurf

open Cursors

variable {α : Type} [LinearOrder α]

/-! ## The saver -/

/-- What an entry of the user key makes of the saver. -/
def Saver.answered (s : Saver α) (d : InternalKey α × Bytes) : Saver α :=
  match liveValue d with
  | some v => { s with state := .found, value := v }
  | none => { s with state := .deleted }

theorem saveValue_same {s : Saver α} {d : InternalKey α × Bytes} (hparse : (parseInternalKey d.1).isSome)
    (hu : d.1.userKey = s.userKey) : saveValue s d.1 d.2 = s.answered d := by
  obtain ⟨p, hp⟩ := Option.isSome_iff_exists.1 hparse
  have hkey : p.userKey = s.userKey := (parseInternalKey_some hp).1.trans hu
  unfold saveValue Saver.answered liveValue
  rw [hp]
  dsimp only
  rw [if_pos hkey]
  cases p.type <;> rfl

/-- A neighbour's key is passed over. -/
theorem saveValue_other {s : Saver α} {d : InternalKey α × Bytes} (hparse : (parseInternalKey d.1).isSome)
    (hu : d.1.userKey ≠ s.userKey) : saveValue s d.1 d.2 = s := by
  obtain ⟨p, hp⟩ := Option.isSome_iff_exists.1 hparse
  have hkey : p.userKey ≠ s.userKey := fun h => hu ((parseInternalKey_some hp).1.symm.trans h)
  unfold saveValue
  rw [hp]
  dsimp only
  rw [if_neg hkey]

section Filters
variable [Slice α] [Coding] [TableFormat]

/-! ## Filters that never reject an added key -/

/-- No key is rejected by the filter it was added to. -/
def FilterPolicy.AcceptsAdded (P : FilterPolicy) : Prop :=
  ∀ keys, ∀ k ∈ keys, P.keyMayMatch k (P.createFilter keys) = true

/-- One filter, made of keys among which are the user keys of the table. -/
def Table.OneFilter (t : Table α) (P : FilterPolicy) (data : Bytes) : Prop :=
  ∃ keys, data = blockOf (P.createFilter keys) ∧ (P.createFilter keys).length < 2 ^ 32 ∧
    ∀ x ∈ t.entries, Slice.data x.1.userKey ∈ keys

/-- The layout from before the fork: the keys of a data block are in the group of its offset. -/
def Table.FilterForOffsets (t : Table α) (P : FilterPolicy) (data : Bytes) : Prop :=
  ∃ gs, data = originalContents (internalFilterPolicy P) gs ∧ (filterArea (internalFilterPolicy P) gs).length < 2 ^ 32 ∧
    ∀ e ∈ t.indexBlock, ∀ handle, decodeFrom e.2 = .ok handle → ∀ x ∈ t.blockEntries e.2,
      ∃ keys, gs[handle.offset.toNat / kFilterBase]? = some keys ∧
        Slice.data x.1.userKey ∈ keys.map extractUserKey

/-- The filters of a table opened under the user's policy `P`: whatever its metaindex names after the
policy is a filter block, in the layout of the fork or in the one from before. Tables without a filter or
with one of another name name nothing. Data blocks start below `2^32`. -/
structure Table.FilterWritten (t : Table α) (P : FilterPolicy) : Prop where
  meta_readable : ∃ contents, t.file.readBlock t.options.paranoidChecks t.metaindexHandle = .ok contents ∧
    ∀ value, (Table.filterKey (internalFilterPolicy P), value) ∈ contents.metaEntries →
      ∃ handle block, decodeFrom value = .ok handle ∧
        t.file.readBlock t.options.paranoidChecks handle = .ok block ∧
        (t.OneFilter P block.data ∨ t.FilterForOffsets P block.data)
  offsets : ∀ e ∈ t.indexBlock, ∀ handle, decodeFrom e.2 = .ok handle → handle.offset.toNat < 2 ^ 32

omit [LinearOrder α] in
/-- What the builder from before the fork has written, if it was handed the data blocks of the table. -/
theorem Table.filterForOffsets_buildOriginal {t : Table α} {P : FilterPolicy} {blocks : FilterBlockBuilder.Blocks}
    (hsorted : blocks.Pairwise fun a b => a.1.toNat ≤ b.1.toNat) (hkeys : ∀ i, (groupAt blocks i).length < 2 ^ 31)
    (hlen : ∀ n, (filterArea (internalFilterPolicy P) (groups blocks n)).length < 2 ^ 32)
    (hblocks : ∀ e ∈ t.indexBlock, ∀ handle, decodeFrom e.2 = .ok handle → ∀ x ∈ t.blockEntries e.2,
      ∃ block ∈ blocks, block.1 = handle.offset ∧ x.1.encode ∈ block.2) :
    t.FilterForOffsets P (buildOriginal (internalFilterPolicy P) blocks).result := by
  obtain ⟨n, hresult, hn⟩ := buildOriginal_result (P := internalFilterPolicy P) hsorted hkeys
  refine ⟨groups blocks n, hresult, hlen n, fun e he handle hdecode x hx => ?_⟩
  obtain ⟨block, hblock, hoffset, hmem⟩ := hblocks e he handle hdecode x hx
  refine ⟨groupAt blocks (handle.offset.toNat / kFilterBase), ?_, ?_⟩
  · have hlt := hn block hblock (List.ne_nil_of_mem hmem)
    rw [hoffset] at hlt
    simp [groups, hlt]
  · rw [← extractUserKey_encode x.1]
    exact List.mem_map_of_mem (hoffset ▸ mem_groupAt hblock hmem)

section Filter
variable {t : Table α} {P : FilterPolicy} {k : InternalKey α} {x : InternalKey α × Bytes} {data : Bytes}

omit [LinearOrder α] in
/-- The one filter accepts the keys of the table. -/
theorem Table.OneFilter.keyMayMatch (h : t.OneFilter P data) (hP : P.AcceptsAdded) (hx : x ∈ t.entries)
    (hk : x.1.userKey = k.userKey) {offset : UInt64} (ho : offset.toNat < 2 ^ 32) :
    (FilterBlockReader.new (internalFilterPolicy P) data).keyMayMatch offset k.encode = true := by
  obtain ⟨keys, rfl, hlen, hkeys⟩ := h
  have hadded : P.keyMayMatch (extractUserKey k.encode) (P.createFilter keys) = true := by
    rw [extractUserKey_encode, ← hk]
    exact hP keys _ (hkeys x hx)
  by_cases hF : P.createFilter keys = []
  · rw [hF]
    exact FilterBlockReader.keyMayMatch_blockOf_nil _ _ _
  · rw [FilterBlockReader.keyMayMatch_blockOf _ hF hlen, if_pos ho]
    exact hadded

omit [LinearOrder α] in
/-- The filter for the offset of a data block accepts the keys of the block. -/
theorem Table.FilterForOffsets.keyMayMatch (h : t.FilterForOffsets P data) (hP : P.AcceptsAdded)
    {e : InternalKey α × Bytes} (he : e ∈ t.indexBlock) {handle : BlockHandle}
    (hdecode : decodeFrom e.2 = .ok handle) (hx : x ∈ t.blockEntries e.2) (hk : x.1.userKey = k.userKey) :
    (FilterBlockReader.new (internalFilterPolicy P) data).keyMayMatch handle.offset k.encode = true := by
  obtain ⟨gs, rfl, hlen, hkeys⟩ := h
  obtain ⟨keys, hgroup, hmem⟩ := hkeys e he handle hdecode x hx
  obtain ⟨hlt, hget⟩ := List.getElem?_eq_some_iff.1 hgroup
  obtain ⟨key, hkey, -⟩ := List.mem_map.1 hmem
  have hadded : P.keyMayMatch (extractUserKey k.encode) (P.createFilter (keys.map extractUserKey)) = true := by
    rw [extractUserKey_encode, ← hk]
    exact hP _ _ hmem
  rw [keyMayMatch_originalContents _ hlen, dif_pos hlt, hget, groupFilter_of_mem _ hkey]
  exact hadded

omit [LinearOrder α] in
/-- **Such filters never reject** a data block that has an entry of the user key. -/
theorem Table.FilterWritten.keyMayMatch (h : t.FilterWritten P) (hP : P.AcceptsAdded)
    {footer : Footer} (hfilter : t.filter = Table.readMeta t.options t.file footer)
    (hmeta : t.metaindexHandle = footer.metaindexHandle)
    (hpolicy : t.options.filterPolicy = some (internalFilterPolicy P)) {e : InternalKey α × Bytes}
    (he : e ∈ t.indexBlock) (hx : x ∈ t.blockEntries e.2) (hk : x.1.userKey = k.userKey)
    {r : FilterBlockReader} (hr : t.filter = some r) {handle : BlockHandle}
    (hdecode : decodeFrom e.2 = .ok handle) : r.keyMayMatch handle.offset k.encode = true := by
  obtain ⟨contents, hcontents, hnamed⟩ := h.meta_readable
  rw [hmeta] at hcontents
  rw [hfilter, Table.readMeta] at hr
  simp only [hpolicy, hcontents, BlockIter.current_seek] at hr
  -- only an entry of the policy's own name gets this far
  cases hseek : contents.metaEntries[seekPos contents.metaEntries
      (Table.filterKey (internalFilterPolicy P))]? with
  | none =>
    rw [hseek] at hr
    cases hr
  | some entry =>
    obtain ⟨key, value⟩ := entry
    rw [hseek] at hr
    dsimp only at hr
    split at hr
    · rename_i hkey
      subst hkey
      obtain ⟨filterHandle, block, hfilterHandle, hblock, hlayout⟩ := hnamed value (List.mem_of_getElem? hseek)
      simp only [Table.readFilter, hfilterHandle, hblock] at hr
      cases hr
      rcases hlayout with hone | hoffsets
      · have hentry : x ∈ t.entries := List.mem_flatMap.2 ⟨e, he, hx⟩
        exact hone.keyMayMatch hP hentry hk (h.offsets e he handle hdecode)
      · exact hoffsets.keyMayMatch hP he hdecode hx hk
    · cases hr

end Filter

/-! ## Lookups in one file -/

variable {cache : TableCache α}

omit [LinearOrder α] [Slice α] in
/-- What a table served by the cache is made of. -/
theorem TableCache.findTable_ok {fileNumber fileSize : UInt64} {t : Table α}
    (h : cache.findTable fileNumber fileSize = .ok t) :
    ∃ footer, t.options = cache.options ∧ t.filter = Table.readMeta cache.options t.file footer ∧
      t.metaindexHandle = footer.metaindexHandle := by
  have hopen : ∀ file, Table.openTable cache.options file fileSize = .ok t →
      ∃ footer, t.options = cache.options ∧ t.filter = Table.readMeta cache.options t.file footer ∧
        t.metaindexHandle = footer.metaindexHandle := by
    intro file h
    unfold Table.openTable at h
    split at h
    · cases h
    · split at h
      · cases h
      · rename_i footer _
        split at h
        · cases h
        · cases h
          exact ⟨footer, rfl, rfl, rfl⟩
  unfold TableCache.findTable at h
  split at h
  · exact hopen _ h
  · split at h
    · exact hopen _ h
    · cases h

/-- The filters of a file's table, under the database's policy. -/
def FileMetaData.FilterWritten (cache : TableCache α) (userPolicy : Option FilterPolicy)
    (f : FileMetaData α) : Prop :=
  ∀ t, cache.findTable f.number f.fileSize = .ok t → ∀ P, userPolicy = some P → t.FilterWritten P

/-- A data block that a filter rejects has no entry of the user key. -/
theorem filterRejects_absent {userPolicy : Option FilterPolicy}
    (hpolicy : cache.options.filterPolicy = userPolicy.map internalFilterPolicy)
    (hP : ∀ P, userPolicy = some P → P.AcceptsAdded) {f : FileMetaData α}
    (hwritten : f.FilterWritten cache userPolicy) {t : Table α}
    (hfind : cache.findTable f.number f.fileSize = .ok t) {k : InternalKey α} :
    ∀ e ∈ t.indexBlock, t.filterRejects e.2 k = true → ∀ x ∈ t.blockEntries e.2, x.1.userKey ≠ k.userKey := by
  intro e he hrejects x hx hk
  obtain ⟨footer, hoptions, hfilter, hmeta⟩ := TableCache.findTable_ok hfind
  unfold Table.filterRejects at hrejects
  split at hrejects
  · rename_i r handle hr hdecode
    cases hu : userPolicy with
    | none =>
      -- without a policy no filter is read
      rw [hu] at hpolicy
      rw [hfilter, Table.readMeta, hpolicy] at hr
      cases hr
    | some P =>
      rw [hu] at hpolicy
      have hmatch := (hwritten t hfind P hu).keyMayMatch (hP P hu) (by rw [hoptions]; exact hfilter) hmeta
        (by rw [hoptions]; exact hpolicy) he hx hk hr hdecode
      rw [hmatch] at hrejects
      cases hrejects
  · cases hrejects

/-- A lookup in one file hands the saver the newest entry of its user key that the table has, unless a filter
rejects a data block that has one. -/
theorem TableCache.get_eq {f : FileMetaData α} {t : Table α} (h : Serves cache f t)
    (hparse : ∀ x ∈ t.entries, (parseInternalKey x.1).isSome) (s : Nat) (saver : Saver α)
    (hfilter : ∀ e, t.indexBlock[seekPos t.indexBlock (lookupKey saver.userKey s)]? = some e →
      t.filterRejects e.2 (lookupKey saver.userKey s) = true → ∀ x ∈ t.blockEntries e.2, x.1.userKey ≠ saver.userKey)
    (options : ReadOptions α) (metrics : Option MetricsCounters) :
    ∃ m, cache.get options f.number f.fileSize (lookupKey saver.userKey s) saver saveValue metrics =
      (.ok, (newest s saver.userKey t.entries).elim saver saver.answered, m) := by
  have hsorted : Sorted t.entries := (Table.entries_sorted h.wellFormed).imp le_of_lt
  rw [TableCache.get, h.found]
  dsimp only
  obtain ⟨hstatus, hsaver⟩ := Table.internalGet_spec h.wellFormed options (lookupKey saver.userKey s) saver
    saveValue metrics (fun x hx hu => saveValue_other (hparse x hx) hu) fun e he hr x hx => by
      -- the entry is in the block, or is not of the user key
      rcases Table.seek_block h.wellFormed _ he with heq | ⟨-, hother⟩
      · exact hfilter e he hr x (List.mem_of_getElem? (heq ▸ hx))
      · exact hother x hx
  refine ⟨_, Prod.ext hstatus (Prod.ext ?_ rfl)⟩
  rw [hsaver, newest_eq_seek hsorted hparse]
  cases hx : t.entries[seekPos t.entries (lookupKey saver.userKey s)]? with
  | none => rfl
  | some x =>
    have hxparse := hparse x (List.mem_of_getElem? hx)
    dsimp only
    by_cases hu : x.1.userKey = saver.userKey
    · rw [Option.filter_some, if_pos (by simpa using hu)]
      exact saveValue_same hxparse hu
    · rw [Option.filter_some, if_neg (by simpa using hu)]
      exact saveValue_other hxparse hu

end Filters

/-! ## One step of the search -/

namespace GetState

/-- The state after a file was read that answered with this entry, or had none. -/
def after (state : GetState α) (level : Nat) (f : FileMetaData α) :
    Option (InternalKey α × Bytes) → GetState α
  | none => { state.charge with lastFileRead := some f, lastFileReadLevel := level, s := .ok }
  | some d =>
    { state.charge with
      lastFileRead := some f, lastFileReadLevel := level, s := .ok
      saver := state.saver.answered d, found := state.found || (liveValue d).isSome }

/-- Everything but the counters. -/
def uncounted (state : GetState α) : GetState α := { state with metrics := none }

theorem charge_eq (state : GetState α) : ∃ stats, state.charge = { state with stats } := by
  unfold charge
  split
  · exact ⟨_, rfl⟩
  · exact ⟨state.stats, rfl⟩

theorem uncounted_charge (state : GetState α) : state.charge.uncounted = state.uncounted.charge := by
  unfold charge
  cases hs : state.stats.seekFile with
  | some f => simp only [uncounted, hs]
  | none =>
    cases hl : state.lastFileRead with
    | none => simp only [uncounted, hs, hl]
    | some f => simp only [uncounted, hs, hl]

theorem after_saver (state : GetState α) (level : Nat) (f : FileMetaData α) (d : Option (InternalKey α × Bytes)) :
    (state.after level f d).saver = d.elim state.saver state.saver.answered ∧
      (state.after level f d).found = (state.found || (d.bind liveValue).isSome) ∧
      (state.after level f d).s = .ok := by
  obtain ⟨stats, hcharge⟩ := state.charge_eq
  cases d with
  | none =>
    refine ⟨?_, ?_, rfl⟩
    · simp only [after, hcharge, Option.elim_none]
    · simp only [after, hcharge, Option.bind_none, Option.isSome_none, Bool.or_false]
  | some d => exact ⟨rfl, rfl, rfl⟩

variable [Slice α] [Coding] [TableFormat] {cache : TableCache α}

/-- `Match` on a file whose lookup hands the saver this entry, or nothing. -/
theorem matchFile_of_get (state : GetState α) (hclean : state.saver.state = .notFound) (hfound : state.found = false)
    {options : ReadOptions α} {ikey : InternalKey α} {f : FileMetaData α} {d : Option (InternalKey α × Bytes)}
    {m : Option MetricsCounters}
    (hget : cache.get options f.number f.fileSize ikey state.saver saveValue state.metrics =
      (.ok, d.elim state.saver state.saver.answered, m)) (level : Nat) :
    (state.matchFile cache options ikey level f).1.uncounted = (state.after level f d).uncounted ∧
      (state.matchFile cache options ikey level f).2 = d.isNone := by
  obtain ⟨stats, hcharge⟩ := state.charge_eq
  unfold matchFile after
  rw [hcharge]
  dsimp only
  rw [hget]
  dsimp only
  cases d with
  | none =>
    simp only [Option.elim_none, hclean, hfound, Option.isNone_none]
    exact ⟨rfl, rfl⟩
  | some d =>
    simp only [Option.elim_some, Saver.answered, Option.isNone_some]
    cases liveValue d with
    | none =>
      simp only [hfound]
      exact ⟨rfl, rfl⟩
    | some v =>
      simp only [hfound]
      exact ⟨rfl, rfl⟩

end GetState

end LevelDbSurf
