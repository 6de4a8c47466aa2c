import LevelDbSurf.SurfFilter

/-!
# The SuRF policy against its contract

`surf_filter.cc` promises that `false` means "definitely absent". Two things it takes for granted
are not so:

* an address names one filter only as long as its buffer lives (`answers_eq_uncached_iff`,
  `stale_trie`): the trie of a freed table answers for the table that got its address;
* keys are ordered bytewise only under the bytewise comparator (`lawful_iff`): under any other one
  some range query loses a key it contains.
-/

namespace LevelDbSurf

/-! ## Cache coherence -/

/-- **Cache coherence.** A run of calls on a new thread is answered as without the cache iff each
call is served as by its own bytes. -/
theorem answers_eq_uncached_iff (lib : SurfLib) (calls : List SurfCall) :
    SurfThread.answers lib {} calls = calls.map (fun c => some (uncached lib c)) ↔
      ∀ pre c post, calls = pre ++ c :: post → ServedAsOwn lib pre c := by
  simpa using SurfThread.answers_from calls {} [] (SurfThread.loaded_init lib)

/-- So is one whose every call is served as by its own bytes. -/
theorem answers_of_served {lib : SurfLib} {calls : List SurfCall}
    (h : ∀ pre c post, calls = pre ++ c :: post → ServedAsOwn lib pre c) :
    SurfThread.answers lib {} calls = calls.map fun c => some (uncached lib c) :=
  (SurfThread.answers_from calls {} [] (SurfThread.loaded_init lib)).2 (by simpa using h)

/-- The cache is loaded from a filter that was passed, and at the address passed last. -/
theorem loaded_spec (fs : List FilterRef) (f : FilterRef) (hf : f.bytes ≠ []) :
    ∃ g ∈ fs ++ [f], loaded (fs ++ [f]) = some g ∧ g.data = f.data ∧ g.bytes ≠ [] := by
  have mem : ∀ fs : List FilterRef, ∀ g, loaded fs = some g → g ∈ fs ∧ g.bytes ≠ [] := by
    intro fs
    induction fs using List.reverseRecOn with
    | nil => intro g hg; cases hg
    | append_singleton fs e ih =>
      intro g hg
      rw [loaded_snoc] at hg
      split at hg
      · obtain ⟨hm, hne⟩ := ih g hg
        exact ⟨List.mem_append_left _ hm, hne⟩
      · rename_i hno
        cases hg
        exact ⟨by simp, fun he => hno (Or.inl he)⟩
  rw [loaded_snoc]
  by_cases hp : (loaded fs).map (·.data) = some f.data
  · obtain ⟨g, hg, hd⟩ := Option.map_eq_some_iff.1 hp
    obtain ⟨hm, hne⟩ := mem fs g hg
    exact ⟨g, List.mem_append_left _ hm, by rw [if_pos (Or.inr hp), hg], hd, hne⟩
  · refine ⟨f, by simp, ?_, rfl, hf⟩
    rw [if_neg (by rintro (h | h); exacts [hf h, hp h])]

/-- The coherence README counts on: every filter passed deserializes, and one address stands for
one filter as far as each method is concerned. -/
theorem answers_eq_uncached_of_stable (lib : SurfLib) (calls : List SurfCall)
    (hd : ∀ c ∈ calls, c.filter.bytes ≠ [] → (lib.deSerialize c.filter.bytes).isSome)
    (hs : ∀ c ∈ calls, ∀ d ∈ calls, c.isKey = d.isKey → c.filter.data = d.filter.data →
      c.filter.bytes ≠ [] → d.filter.bytes ≠ [] → c.filter.bytes = d.filter.bytes) :
    SurfThread.answers lib {} calls = calls.map fun c => some (uncached lib c) := by
  refine answers_of_served fun pre c post heq => ?_
  subst heq
  by_cases he : c.filter.bytes = []
  · exact Or.inl he
  obtain ⟨g, hg, hl, hdata, hne⟩ := loaded_spec (passed c.isKey pre) c.filter he
  obtain ⟨surf, hsurf⟩ := Option.isSome_iff_exists.1 (hd c (by simp) he)
  have hbytes : g.bytes = c.filter.bytes := by
    rcases List.mem_append.1 hg with hg | hg
    · obtain ⟨d, hdmem, rfl⟩ := List.mem_map.1 hg
      obtain ⟨hdpre, hkind⟩ := List.mem_filter.1 hdmem
      exact hs d (by simp [hdpre]) c (by simp) (by simpa using hkind) hdata hne he
    · rw [List.mem_singleton.1 hg]
  refine Or.inr ⟨g, surf, by rw [passed_snoc, if_pos rfl, hl], by rw [hbytes, hsurf], ?_⟩
  rw [uncached, if_neg he, hsurf]

/-! ### A library that stores the keys themselves -/

namespace ExactSurf

def putKey (k : Bytes) : Bytes := k.flatMap (fun b => [1, b]) ++ [0]

def put (keys : List Bytes) : Bytes := keys.flatMap putKey ++ [2]

/-- Parser of `put`, with the bytes of the key under way. -/
def parse : Bytes → Bytes → Option (List Bytes)
  | 1 :: b :: rest, cur => parse rest (cur ++ [b])
  | 0 :: rest, cur => (parse rest []).map (cur :: ·)
  | [2], [] => some []
  | _, _ => none

theorem parse_putKey (k rest cur : Bytes) :
    parse (putKey k ++ rest) cur = (parse rest []).map ((cur ++ k) :: ·) := by
  induction k generalizing cur with
  | nil => simp [putKey, parse]
  | cons b k ih =>
    have : putKey (b :: k) ++ rest = 1 :: b :: (putKey k ++ rest) := by simp [putKey]
    rw [this, parse, ih]
    simp

theorem parse_put (keys : List Bytes) : parse (put keys) [] = some keys := by
  induction keys with
  | nil => rfl
  | cons k keys ih =>
    have : put (k :: keys) = putKey k ++ put keys := by simp [put]
    rw [this, parse_putKey, ih]
    rfl

end ExactSurf

/-- `SurfLib` with the key list for a trie: exact answers, and a parser that rejects. -/
def exactSurf : SurfLib where
  Trie := List Bytes
  build keys := keys
  serialize := ExactSurf.put
  deSerialize bytes := ExactSurf.parse bytes []
  lookupKey keys k := keys.contains k
  lookupRange keys lo loIncl hi hiIncl :=
    keys.any fun k => (lo < k || loIncl && lo = k) && (k < hi || hiIncl && k = hi)

/-- Table `{a}` is dropped and its filter's address goes to table `{b}`: `b` is reported absent. -/
theorem stale_trie :
    ¬ ∀ (lib : SurfLib) (calls : List SurfCall),
      SurfThread.answers lib {} calls = calls.map fun c => some (uncached lib c) := by
  intro h
  have := h exactSurf
    [.key [97] ⟨1, SurfPolicy.createFilter exactSurf [[97]]⟩,
     .key [98] ⟨1, SurfPolicy.createFilter exactSurf [[98]]⟩]
  revert this
  decide

/-! ## Soundness under the database's comparator -/

/-- What the range answers rely on in the library: a built trie survives serialization (into bytes),
and on byte-sorted keys `lookupRange(lo, true, hi, true)` is `true` when a key lies in the range and
`false` when the bytewise successor of `lo` does not exist or exceeds `hi`. -/
structure SurfLib.Ordered (lib : SurfLib) : Prop where
  deSerialize_serialize : ∀ keys, lib.deSerialize (lib.serialize (lib.build keys)) = some (lib.build keys)
  serialize_ne_nil : ∀ keys, lib.serialize (lib.build keys) ≠ []
  lookupRange_true : ∀ keys : List Bytes, keys.Pairwise (· ≤ ·) → ∀ lo hi, (∃ k ∈ keys, lo ≤ k ∧ k ≤ hi) →
    lib.lookupRange (lib.build keys) lo true hi true = true
  lookupRange_false : ∀ keys : List Bytes, keys.Pairwise (· ≤ ·) → ∀ lo hi, (∀ k ∈ keys, lo ≤ k → hi < k) →
    lib.lookupRange (lib.build keys) lo true hi true = false

/-- `Comparator` (`Options::comparator`): a total order on keys. -/
structure Comparator where
  order : LinearOrder Bytes

/-- `Compare(a, b) <= 0`. -/
def Comparator.le (ucmp : Comparator) (a b : Bytes) : Prop := ucmp.order.le a b

/-- `BytewiseComparator()`. -/
def bytewiseComparator : Comparator := ⟨inferInstance⟩

/-- The bytewise order upside down. -/
def reverseComparator : Comparator := ⟨inferInstanceAs (LinearOrder (OrderDual Bytes))⟩

/-- No range query loses a key of a table whose keys are sorted by `ucmp`, wherever its filter is
stored. -/
def RangeLawful (lib : SurfLib) (ucmp : Comparator) : Prop :=
  ∀ (keys : List Bytes) (lo hi : Bytes) (addr : Nat), keys.Pairwise ucmp.le →
    (∃ k ∈ keys, ucmp.le lo k ∧ ucmp.le k hi) →
    (SurfPolicy.rangeMayMatch lib {} lo hi ⟨addr, SurfPolicy.createFilter lib keys⟩).1 = some true

theorem rangeMayMatch_createFilter {lib : SurfLib} (hlib : lib.Ordered) {keys : List Bytes}
    (hne : keys ≠ []) (lo hi : Bytes) (addr : Nat) :
    (SurfPolicy.rangeMayMatch lib {} lo hi ⟨addr, SurfPolicy.createFilter lib keys⟩).1 =
      some (lib.lookupRange (lib.build keys) lo true hi true) := by
  have hlen : ¬ keys.length = 0 := by simpa using hne
  unfold SurfPolicy.rangeMayMatch SurfPolicy.lookupCached SurfPolicy.createFilter
  simp [hlen, hlib.serialize_ne_nil, hlib.deSerialize_serialize]

/-- **Comparators.** The range answers are sound for a database exactly when its comparator orders
keys as bytes do. -/
theorem lawful_iff (lib : SurfLib) (hlib : lib.Ordered) (ucmp : Comparator) :
    RangeLawful lib ucmp ↔ ∀ a b, ucmp.le a b ↔ bytewiseComparator.le a b := by
  constructor
  · intro h
    -- the one-key table `{a}` asked for `[a, b]`
    have himp : ∀ a b : Bytes, ucmp.le a b → a ≤ b := by
      intro a b hab
      have ha := h [a] a b 0 (List.pairwise_singleton _ _) ⟨a, by simp, ucmp.order.le_refl a, hab⟩
      rw [rangeMayMatch_createFilter hlib (by simp)] at ha
      by_contra hlt
      have := hlib.lookupRange_false [a] (List.pairwise_singleton _ _) a b
        (by intro k hk _; rw [List.mem_singleton.1 hk]; exact not_le.1 hlt)
      rw [this] at ha
      cases ha
    refine fun a b => ⟨himp a b, fun hab => ?_⟩
    rcases ucmp.order.le_total a b with h' | h'
    · exact h'
    · have heq : a = b := le_antisymm hab (himp b a h')
      rw [heq]
      exact ucmp.order.le_refl b
  · intro heq keys lo hi addr hsorted hk
    have hne : keys ≠ [] := by
      obtain ⟨k, hk, -⟩ := hk
      exact List.ne_nil_of_mem hk
    rw [rangeMayMatch_createFilter hlib hne]
    congr 1
    apply hlib.lookupRange_true
    · exact hsorted.imp fun hab => (heq _ _).1 hab
    · obtain ⟨k, hmem, h1, h2⟩ := hk
      exact ⟨k, hmem, (heq _ _).1 h1, (heq _ _).1 h2⟩

theorem exactSurf_ordered : exactSurf.Ordered where
  deSerialize_serialize := ExactSurf.parse_put
  serialize_ne_nil keys := by simp [exactSurf, ExactSurf.put]
  lookupRange_true keys _ lo hi := by
    rintro ⟨k, hk, h1, h2⟩
    simp only [exactSurf, List.any_eq_true]
    exact ⟨k, hk, by simp [← le_iff_lt_or_eq, h1, h2]⟩
  lookupRange_false keys _ lo hi h := by
    simp only [exactSurf, List.any_eq_false]
    intro k hk
    by_cases hle : lo ≤ k
    · have := h k hk hle
      simp [← le_iff_lt_or_eq, this]
    · simp [← le_iff_lt_or_eq, hle]

theorem lawful_iff_bytewise :
    RangeLawful exactSurf bytewiseComparator ↔
      ∀ a b, bytewiseComparator.le a b ↔ bytewiseComparator.le a b :=
  lawful_iff exactSurf exactSurf_ordered bytewiseComparator

/-- Under the reversed comparator the table `{b}` holds a key of `[b, a]`, and the range is ruled
out. -/
theorem not_lawful_reversed :
    ¬ ∀ lib : SurfLib, lib.Ordered → ∀ ucmp : Comparator, RangeLawful lib ucmp := by
  intro h
  have hle : ([97] : Bytes) ≤ [98] := by decide
  have hr := h exactSurf exactSurf_ordered reverseComparator [[98]] [98] [97] 0
    (List.pairwise_singleton _ _) ⟨[98], by simp, le_refl (OrderDual.toDual ([98] : Bytes)), hle⟩
  rw [rangeMayMatch_createFilter exactSurf_ordered (by simp)] at hr
  revert hr
  decide

end LevelDbSurf
