import LevelDbSurf.FilterBlock

/-!
# The SuRF policy and its thread-local cache (`surf_filter.cc`)

| here | there |
| --- | --- |
| `SurfLib`            | `surf::SuRF` (`surf/surf.hpp`, not part of the repository) |
| `SurfCache`          | the two `thread_local` variables of one method (`surf_filter.cc:67-68`, `:97-98`) |
| `SurfPolicy.createFilter` | `SuRFPolicy::CreateFilter` (`:32`) |
| `SurfPolicy.keyMayMatch`, `SurfPolicy.rangeMayMatch` | `SuRFPolicy::KeyMayMatch` (`:62`), `RangeMayMatch` (`:92`) |

The cache is keyed by the *address* of the filter. Each method has its own, shared by every policy
object and every table the thread reads. `answers_eq_uncached_iff` says exactly when a run of calls
is answered as if there were no cache, and `lawful_iff` for which comparators the range answers lose
no key.
-/

namespace LevelDbSurf

/-- The SuRF library. `deSerialize` is `none` on bytes that are no serialized trie. -/
structure SurfLib where
  Trie : Type
  build : List Bytes → Trie
  serialize : Trie → Bytes
  deSerialize : Bytes → Option Trie
  lookupKey : Trie → Bytes → Bool
  lookupRange : Trie → Bytes → Bool → Bytes → Bool → Bool

/-- A filter handed to a policy: its address and the bytes stored there at the moment. -/
structure FilterRef where
  data : Nat
  bytes : Bytes
deriving DecidableEq

/-- `last_filter_ptr` and `cached_surf` of one method; `none` is `nullptr`. -/
structure SurfCache (Trie : Type) where
  lastFilterPtr : Option Nat := none
  cachedSurf : Option Trie := none

namespace SurfPolicy

variable (lib : SurfLib)

/-- `CreateFilter`: what is appended to `*dst`. -/
def createFilter (keys : List Bytes) : Bytes :=
  if keys.length = 0 then [] else lib.serialize (lib.build keys)

/-- The body the two lookups share. The answer is `none` when the lookup goes through a null
`cached_surf`, which is undefined. -/
def lookupCached (cache : SurfCache lib.Trie) (filter : FilterRef) (ask : lib.Trie → Bool) :
    Option Bool × SurfCache lib.Trie :=
  if filter.bytes = [] then (some true, cache)
  else
    let cache :=
      if some filter.data ≠ cache.lastFilterPtr then
        { lastFilterPtr := some filter.data, cachedSurf := lib.deSerialize filter.bytes }
      else cache
    (cache.cachedSurf.map ask, cache)

/-- `KeyMayMatch`. -/
def keyMayMatch (cache : SurfCache lib.Trie) (key : Bytes) (filter : FilterRef) :
    Option Bool × SurfCache lib.Trie :=
  lookupCached lib cache filter fun surf => lib.lookupKey surf key

/-- `RangeMayMatch`. -/
def rangeMayMatch (cache : SurfCache lib.Trie) (lo hi : Bytes) (filter : FilterRef) :
    Option Bool × SurfCache lib.Trie :=
  lookupCached lib cache filter fun surf => lib.lookupRange surf lo true hi true

end SurfPolicy

/-! ## Runs of calls on one thread -/

/-- A call of either method, by any policy object, for any table. -/
inductive SurfCall where
  | key (key : Bytes) (filter : FilterRef)
  | range (lo hi : Bytes) (filter : FilterRef)
deriving DecidableEq

namespace SurfCall

def filter : SurfCall → FilterRef
  | key _ f => f
  | range _ _ f => f

def isKey : SurfCall → Bool
  | key .. => true
  | range .. => false

/-- The question the call puts to a trie. -/
def ask (lib : SurfLib) : SurfCall → lib.Trie → Bool
  | key k _ => fun surf => lib.lookupKey surf k
  | range lo hi _ => fun surf => lib.lookupRange surf lo true hi true

end SurfCall

/-- The caches of one thread: each method has its own. -/
structure SurfThread (Trie : Type) where
  keyCache : SurfCache Trie := {}
  rangeCache : SurfCache Trie := {}

namespace SurfThread

variable (lib : SurfLib)

def step (th : SurfThread lib.Trie) : SurfCall → Option Bool × SurfThread lib.Trie
  | .key k f =>
    let (answer, cache) := SurfPolicy.keyMayMatch lib th.keyCache k f
    (answer, { th with keyCache := cache })
  | .range lo hi f =>
    let (answer, cache) := SurfPolicy.rangeMayMatch lib th.rangeCache lo hi f
    (answer, { th with rangeCache := cache })

/-- The answers of a run of calls. -/
def answers (th : SurfThread lib.Trie) : List SurfCall → List (Option Bool)
  | [] => []
  | c :: cs => (th.step lib c).1 :: answers (th.step lib c).2 cs

end SurfThread

/-- What a call returns without the cache: `true` for an empty filter or one that does not
deserialize, else the lookup in the trie of the bytes passed. -/
def uncached (lib : SurfLib) (c : SurfCall) : Bool :=
  if c.filter.bytes = [] then true
  else match lib.deSerialize c.filter.bytes with
    | none => true
    | some surf => c.ask lib surf

/-! ## Which filter a cache holds -/

/-- After these filters were passed to one method, in order, the filter its cache was loaded from:
the one that opened the unbroken series at the last address. -/
def loaded : List FilterRef → Option FilterRef :=
  List.foldl (fun l f => if f.bytes = [] ∨ l.map (·.data) = some f.data then l else some f) none

/-- The non-cached view of a cache: loaded from `l`. -/
def SurfCache.LoadedFrom (lib : SurfLib) (cache : SurfCache lib.Trie) (l : Option FilterRef) : Prop :=
  cache.lastFilterPtr = l.map (·.data) ∧ cache.cachedSurf = l.bind fun f => lib.deSerialize f.bytes

/-- The filters these calls passed to `KeyMayMatch` (`isKey`) or to `RangeMayMatch`. -/
def passed (isKey : Bool) (calls : List SurfCall) : List FilterRef :=
  (calls.filter fun d => d.isKey == isKey).map (·.filter)

/-- A call served as by its own bytes: its filter is empty, or the filter the method's cache is
loaded from by then deserializes and answers this query as the bytes passed do. -/
def ServedAsOwn (lib : SurfLib) (before : List SurfCall) (c : SurfCall) : Prop :=
  c.filter.bytes = [] ∨
    ∃ f surf, loaded (passed c.isKey (before ++ [c])) = some f ∧ lib.deSerialize f.bytes = some surf ∧
      c.ask lib surf = uncached lib c

theorem passed_snoc (isKey : Bool) (calls : List SurfCall) (c : SurfCall) :
    passed isKey (calls ++ [c]) =
      if c.isKey = isKey then passed isKey calls ++ [c.filter] else passed isKey calls := by
  unfold passed
  rw [List.filter_append, List.map_append]
  by_cases h : c.isKey = isKey <;> simp [h]

theorem loaded_snoc (fs : List FilterRef) (f : FilterRef) :
    loaded (fs ++ [f]) =
      if f.bytes = [] ∨ (loaded fs).map (·.data) = some f.data then loaded fs else some f := by
  simp [loaded]

/-- **One lookup**: the cache stays loaded from `loaded`, and the answer is that filter's. -/
theorem lookupCached_spec (lib : SurfLib) (cache : SurfCache lib.Trie) (fs : List FilterRef)
    (f : FilterRef) (ask : lib.Trie → Bool) (h : cache.LoadedFrom lib (loaded fs)) :
    (SurfPolicy.lookupCached lib cache f ask).2.LoadedFrom lib (loaded (fs ++ [f])) ∧
    (SurfPolicy.lookupCached lib cache f ask).1 =
      if f.bytes = [] then some true
      else ((loaded (fs ++ [f])).bind fun g => lib.deSerialize g.bytes).map ask := by
  obtain ⟨hptr, hsurf⟩ := h
  rw [loaded_snoc]
  unfold SurfPolicy.lookupCached
  by_cases he : f.bytes = []
  · simp only [he, if_true, true_or]
    exact ⟨⟨hptr, hsurf⟩, trivial⟩
  · by_cases hp : (loaded fs).map (·.data) = some f.data
    · have hne : ¬ some f.data ≠ cache.lastFilterPtr := by rw [hptr, hp]; simp
      simp only [he, hp, hne, if_false, false_or, if_true]
      exact ⟨⟨by rw [hptr, hp], hsurf⟩, by rw [hsurf]⟩
    · have hne : some f.data ≠ cache.lastFilterPtr := by rw [hptr]; exact fun h => hp h.symm
      simp only [he, hp, hne, if_false, false_or, if_true, ne_eq, not_false_eq_true]
      exact ⟨⟨rfl, rfl⟩, rfl⟩

namespace SurfThread

/-- Both caches of the thread are loaded as the calls made so far say. -/
def Loaded (lib : SurfLib) (th : SurfThread lib.Trie) (calls : List SurfCall) : Prop :=
  th.keyCache.LoadedFrom lib (loaded (passed true calls)) ∧
  th.rangeCache.LoadedFrom lib (loaded (passed false calls))

theorem loaded_init (lib : SurfLib) : Loaded lib {} [] := ⟨⟨rfl, rfl⟩, ⟨rfl, rfl⟩⟩

/-- **One call** keeps the caches loaded and is answered correctly iff it is served as its own. -/
theorem step_spec {lib : SurfLib} {th : SurfThread lib.Trie} {before : List SurfCall}
    (h : Loaded lib th before) (c : SurfCall) :
    Loaded lib (th.step lib c).2 (before ++ [c]) ∧
      ((th.step lib c).1 = some (uncached lib c) ↔ ServedAsOwn lib before c) := by
  -- the answer of the shared lookup, whichever method it is
  have answer : ∀ cache, cache.LoadedFrom lib (loaded (passed c.isKey before)) →
      ((SurfPolicy.lookupCached lib cache c.filter (c.ask lib)).1 = some (uncached lib c) ↔
        ServedAsOwn lib before c) := by
    intro cache hl
    rw [(lookupCached_spec lib cache _ c.filter (c.ask lib) hl).2, ServedAsOwn, passed_snoc, if_pos rfl]
    by_cases he : c.filter.bytes = []
    · simp [he, uncached]
    · rw [if_neg he, or_iff_right he]
      constructor
      · intro hs
        obtain ⟨surf, hsurf, hask⟩ := Option.map_eq_some_iff.1 hs
        obtain ⟨f, hf, hd⟩ := Option.bind_eq_some_iff.1 hsurf
        exact ⟨f, surf, hf, hd, hask⟩
      · rintro ⟨f, surf, hf, hd, hask⟩
        rw [hf, Option.bind_some, hd, Option.map_some, hask]
  obtain ⟨hk, hr⟩ := h
  unfold Loaded
  rw [passed_snoc, passed_snoc]
  cases c with
  | key k f => exact ⟨⟨(lookupCached_spec lib th.keyCache _ f _ hk).1, hr⟩, answer _ hk⟩
  | range lo hi f => exact ⟨⟨hk, (lookupCached_spec lib th.rangeCache _ f _ hr).1⟩, answer _ hr⟩

/-- A run from a thread that has made the calls `before`. -/
theorem answers_from {lib : SurfLib} (calls : List SurfCall) :
    ∀ (th : SurfThread lib.Trie) (before : List SurfCall), Loaded lib th before →
      (th.answers lib calls = calls.map (fun c => some (uncached lib c)) ↔
        ∀ pre c post, calls = pre ++ c :: post → ServedAsOwn lib (before ++ pre) c) := by
  induction calls with
  | nil => intro th before _; simp [answers]
  | cons c cs ih =>
    intro th before h
    obtain ⟨hnext, hc⟩ := step_spec h c
    have ih := ih _ _ hnext
    simp only [answers, List.map_cons, List.cons.injEq, hc, ih]
    constructor
    · rintro ⟨h0, hrest⟩ pre d post heq
      cases pre with
      | nil =>
        simp only [List.nil_append, List.cons.injEq] at heq
        rw [← heq.1, List.append_nil]
        exact h0
      | cons p pre =>
        simp only [List.cons_append, List.cons.injEq] at heq
        have := hrest pre d post heq.2
        rw [heq.1] at this
        simpa using this
    · intro hall
      refine ⟨by simpa using hall [] c cs rfl, fun pre d post heq => ?_⟩
      have := hall (c :: pre) d post (by rw [heq]; rfl)
      simpa using this

end SurfThread

end LevelDbSurf
