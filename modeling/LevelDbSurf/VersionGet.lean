import LevelDbSurf.Version
import LevelDbSurf.Lib.Search

/-!
# Point lookups in a version (`version_set.cc:264-418`)

| here | there |
| --- | --- |
| `Saver`, `saveValue` | `Saver` (`:273`), `SaveValue` (`:280`) |
| `Version.forEachOverlapping` | `Version::ForEachOverlapping` (`:299`) |
| `GetState`, `GetState.matchFile` | `State` and `State::Match` inside `Version::Get` (`:347`, `:359`) |
| `Version.get`        | `Version::Get` (`:342`) |
-/

namespace LevelDbSurf

open Cursors

/-! ## `SaveValue` -/

inductive SaverState where
  | notFound
  | found
  | deleted
  | corrupt
deriving DecidableEq, Repr

/-- `Saver`; `value` is the string it writes to. -/
structure Saver (α : Type) where
  state : SaverState := .notFound
  userKey : α
  value : Bytes
deriving DecidableEq

variable {α : Type} [LinearOrder α]

/-- `SaveValue`. -/
def saveValue (s : Saver α) (ikey : InternalKey α) (v : Bytes) : Saver α :=
  match parseInternalKey ikey with
  | none => { s with state := .corrupt }
  | some parsedKey =>
    if parsedKey.userKey = s.userKey then
      match parsedKey.type with
      | .value => { s with state := .found, value := v }
      | .deletion => { s with state := .deleted }
    else s

/-! ## `ForEachOverlapping` -/

/-- `NewestFirst`. -/
def newestFirst (a b : FileMetaData α) : Prop := a.number > b.number

instance : DecidableRel (newestFirst : FileMetaData α → FileMetaData α → Prop) :=
  fun a b => inferInstanceAs (Decidable (a.number > b.number))

namespace Version

/-- The `tmp` of `ForEachOverlapping`: the level-0 files whose user keys span `userKey`, sorted. -/
def overlappingLevel0 (v : Version α) (userKey : α) : List (FileMetaData α) :=
  let tmp := (v.files 0).filter fun f =>
    decide (f.smallest.userKey ≤ userKey) && decide (userKey ≤ f.largest.userKey)
  tmp.insertionSort fun a b => ¬ newestFirst b a

/-- The one file of a deeper level that may hold the key. -/
def overlappingFile (v : Version α) (userKey : α) (internalKey : InternalKey α) (level : Nat) :
    Option (FileMetaData α) :=
  match (v.files level)[findFile (v.files level) internalKey]? with
  | none => none
  | some f => if userKey < f.smallest.userKey then none else some f

/-- "Search other levels": what the loop does at one of them. -/
def visitLevel {S : Type} (v : Version α) (userKey : α) (internalKey : InternalKey α)
    (func : S → Nat → FileMetaData α → S × Bool) (arg : S) (level : Nat) : S × Bool :=
  match v.overlappingFile userKey internalKey level with
  | some f => func arg level f
  | none => (arg, true)

/-- `ForEachOverlapping`: calls `func` on level-0 files from newest to oldest, then level by level,
until it returns `false`. -/
def forEachOverlapping {S : Type} (v : Version α) (userKey : α) (internalKey : InternalKey α) (arg : S)
    (func : S → Nat → FileMetaData α → S × Bool) : S :=
  let (arg, go) := visit (fun arg f => func arg 0 f) arg (v.overlappingLevel0 userKey)
  if go then (visit (v.visitLevel userKey internalKey func) arg (List.range' 1 (kNumLevels - 1))).1
  else arg

end Version

/-! ## `Version::Get` -/

/-- `Version::GetStats`. -/
structure GetStats (α : Type) [LinearOrder α] where
  seekFile : Option (FileMetaData α) := none
  seekFileLevel : Int := -1
deriving DecidableEq

/-- The `State` of `Get`; the counters are `options->metrics_counters`. -/
structure GetState (α : Type) [LinearOrder α] where
  saver : Saver α
  stats : GetStats α := {}
  lastFileRead : Option (FileMetaData α) := none
  lastFileReadLevel : Int := -1
  s : Status := .ok
  found : Bool := false
  metrics : Option MetricsCounters
deriving DecidableEq

namespace GetState

/-- The start of `Match`: "We have had more than one seek for this read.  Charge the 1st file." -/
def charge (state : GetState α) : GetState α :=
  match state.stats.seekFile, state.lastFileRead with
  | none, some f => { state with stats := { seekFile := some f, seekFileLevel := state.lastFileReadLevel } }
  | _, _ => state

variable [Slice α] [Coding] [TableFormat]

/-- `Match`. -/
def matchFile (cache : TableCache α) (options : ReadOptions α) (ikey : InternalKey α) (state : GetState α)
    (level : Nat) (f : FileMetaData α) : GetState α × Bool :=
  let state := { state.charge with lastFileRead := some f, lastFileReadLevel := level }
  let (s, saver, metrics) :=
    cache.get options f.number f.fileSize ikey state.saver saveValue state.metrics
  let state := { state with s, saver, metrics }
  if !s.isOk then ({ state with found := true }, false)
  else
    match saver.state with
    | .notFound => (state, true)  -- "Keep searching in other files"
    | .found => ({ state with found := true }, false)
    | .deleted => (state, false)
    | .corrupt =>
      ({ state with s := .corruption "corrupted key for " (Slice.data saver.userKey), found := true }, false)

end GetState

/-- What `Get` leaves behind: its status, `*value`, `*stats` and the counters. -/
structure GetResult (α : Type) [LinearOrder α] where
  status : Status
  value : Bytes
  stats : GetStats α
  metrics : Option MetricsCounters
deriving DecidableEq

/-- `Get`, for the lookup key of `userKey` at `sequence`. -/
def Version.get [Slice α] [Coding] [TableFormat] (v : Version α) (cache : TableCache α)
    (options : ReadOptions α) (userKey : α) (sequence : Nat) (value : Bytes)
    (metrics : Option MetricsCounters) : GetResult α :=
  let ikey := lookupKey userKey sequence
  let state := v.forEachOverlapping userKey ikey { saver := { userKey, value }, metrics }
    (GetState.matchFile cache options ikey)
  { status := if state.found then state.s else .notFound ""
    value := state.saver.value, stats := state.stats, metrics := state.metrics }

end LevelDbSurf
