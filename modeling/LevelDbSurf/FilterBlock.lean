import LevelDbSurf.Format

/-!
# Filter policies and the filter block (`filter_policy.h`, `table/filter_block.{h,cc}`)

The fork builds **one** filter per table: `FilterBlockBuilder` only buffers keys, and `Finish`
calls `CreateFilter` once and writes

    filter | fixed32 0 | fixed32 |filter| | fixed32 |filter| | 32

The reader is the one of the per-2KB layout: it takes the last byte for the shift, the four bytes
before it for the position of the offset array, and counts the entries of the array by dividing
the bytes in between by four.
-/

namespace LevelDbSurf

/-- `FilterPolicy` (`filter_policy.h:25-56`). `createFilter` is given the keys `keys[0..n-1]` and
returns what it appends to `*dst`. `RangeMayMatch` is the only method with a default body. -/
structure FilterPolicy where
  name : String
  createFilter : List Bytes → Bytes
  keyMayMatch : Bytes → Bytes → Bool
  rangeMayMatch : Bytes → Bytes → Bytes → Bool := fun _ _ _ => true

/-- `InternalFilterPolicy` (`db/dbformat.cc`): name, filters and point lookups go to the user's
policy with the sequence and type stripped; `RangeMayMatch` is inherited. -/
def internalFilterPolicy (userPolicy : FilterPolicy) : FilterPolicy where
  name := userPolicy.name
  createFilter keys := userPolicy.createFilter (keys.map extractUserKey)
  keyMayMatch key filter := userPolicy.keyMayMatch (extractUserKey key) filter

/-! ## `FilterBlockBuilder` -/

def kFilterBaseLg : UInt8 := 11
def kFilterBase : Nat := 2 ^ 11

/-- `FilterBlockBuilder`. `created` is not a field of the class: it records the key lists
`policy_->CreateFilter` has been called with. -/
structure FilterBlockBuilder where
  policy : FilterPolicy
  keys : Bytes := []
  start : List Nat := []
  result : Bytes := []
  tmpKeys : List Bytes := []
  filterOffsets : List UInt32 := []
  created : List (List Bytes) := []

/-- `static_cast<int>(num_keys)`. -/
def castInt (n : Nat) : Int := Int.bmod n (2 ^ 32)

/-- The keys `CreateFilter(&keys[0], static_cast<int>(num_keys), ..)` may look at. -/
def keysShown (keys : List Bytes) : List Bytes := keys.take (castInt keys.length).toNat

/-- The filter a policy makes when it is handed these keys through the builder. -/
def filterOf (P : FilterPolicy) (keys : List Bytes) : Bytes := P.createFilter (keysShown keys)

namespace FilterBlockBuilder

/-- The assertion of `StartBlock` (`filter_block.cc:27`). -/
def startBlockOk (b : FilterBlockBuilder) (blockOffset : UInt64) : Bool :=
  b.filterOffsets.length ≤ blockOffset.toNat / kFilterBase

/-- `StartBlock` (`filter_block.cc:22`): keys are never flushed here. -/
def startBlock (b : FilterBlockBuilder) (_blockOffset : UInt64) : FilterBlockBuilder := b

/-- `AddKey` (`filter_block.cc:32`). -/
def addKey (b : FilterBlockBuilder) (key : Bytes) : FilterBlockBuilder :=
  { b with start := b.start ++ [b.keys.length], keys := b.keys ++ key }

/-- `GenerateFilter` (`filter_block.cc:63`). -/
def generateFilter [Coding] (b : FilterBlockBuilder) : FilterBlockBuilder :=
  let numKeys := b.start.length
  if numKeys = 0 then
    { b with filterOffsets := b.filterOffsets ++ [UInt32.ofNat b.result.length] }
  else
    let start := b.start ++ [b.keys.length]
    let tmpKeys := (List.range numKeys).map fun i =>
      let base := b.keys.drop (start.getD i 0)
      base.take (start.getD (i + 1) 0 - start.getD i 0)
    { b with
      filterOffsets := b.filterOffsets ++ [UInt32.ofNat b.result.length]
      created := b.created ++ [keysShown tmpKeys]
      result := b.result ++ filterOf b.policy tmpKeys
      tmpKeys := [], keys := [], start := [] }

/-- `Finish` (`filter_block.cc:39`); the block is `result`. -/
def finish [Coding] (b : FilterBlockBuilder) : FilterBlockBuilder :=
  let b := if b.start ≠ [] then b.generateFilter else b
  if b.result = [] then
    { b with result := b.result ++ putFixed32 0 ++ [kFilterBaseLg] }
  else
    let arrayOffset := UInt32.ofNat b.result.length
    { b with
      result := b.result ++ putFixed32 0 ++ putFixed32 arrayOffset ++ putFixed32 arrayOffset ++ [32] }

/-- The calls between construction and `Finish`: `(StartBlock AddKey*)*`. -/
abbrev Blocks := List (UInt64 × List Bytes)

def keysOf (blocks : Blocks) : List Bytes := blocks.flatMap (·.2)

/-- One `StartBlock AddKey*`. -/
def addBlock (b : FilterBlockBuilder) (block : UInt64 × List Bytes) : FilterBlockBuilder :=
  block.2.foldl addKey (b.startBlock block.1)

/-- `(StartBlock AddKey*)* Finish` on a new builder. -/
def build [Coding] (P : FilterPolicy) (blocks : Blocks) : FilterBlockBuilder :=
  (blocks.foldl addBlock { policy := P }).finish

end FilterBlockBuilder

/-! ## `FilterBlockReader` -/

/-- `DecodeFixed32` of the four bytes at `pos`, which the caller shows to lie in `data`. -/
def wordAt [Coding] (data : Bytes) (pos : Nat) (_inside : pos + 4 ≤ data.length) : UInt32 :=
  decodeFixed32 ((data.drop pos).take 4)

/-- Conversion of a (signed) `char` to `size_t`. -/
def charToSize (c : UInt8) : Nat := if c < 128 then c.toNat else 2 ^ 64 - 256 + c.toNat

/-- `FilterBlockReader`. `offset` is `offset_ - data_`; `num` is positive only when the offset
array, followed by at least one more word and the shift byte, lies inside the contents. -/
structure FilterBlockReader where
  policy : FilterPolicy
  data : Bytes
  offset : Nat
  num : Nat
  baseLg : Nat
  inside : 0 < num → offset + 4 * num + 5 ≤ data.length

namespace FilterBlockReader

variable [Coding]

/-- The constructor (`filter_block.cc:88`). -/
def new (P : FilterPolicy) (contents : Bytes) : FilterBlockReader :=
  let n := contents.length
  if hn : n < 5 then ⟨P, contents, 0, 0, 0, by simp⟩
  else
    let baseLg := charToSize (contents.get ⟨n - 1, by omega⟩)
    let lastWord := (wordAt contents (n - 5) (by omega)).toNat
    if hl : lastWord > n - 5 then ⟨P, contents, 0, 0, baseLg, by simp⟩
    else ⟨P, contents, lastWord, (n - 5 - lastWord) / 4, baseLg, by omega⟩

variable (r : FilterBlockReader)

/-- `Slice(data_ + start, limit - start)`. -/
def filterSlice (start limit : UInt32) : Bytes :=
  (r.data.drop start.toNat).take (limit.toNat - start.toNat)

/-- The word at entry `i` of the offset array: where filter `i` starts. -/
def entryStart (i : Nat) (h : i < r.num) : UInt32 :=
  wordAt r.data (r.offset + i * 4) (by have := r.inside (by omega); omega)

/-- The word after entry `i`: where filter `i` ends. -/
def entryLimit (i : Nat) (h : i < r.num) : UInt32 :=
  wordAt r.data (r.offset + i * 4 + 4) (by have := r.inside (by omega); omega)

/-- `start <= limit && limit <= static_cast<size_t>(offset_ - data_)`. -/
def inArea (start limit : UInt32) : Bool := start ≤ limit && decide (limit.toNat ≤ r.offset)

/-- `KeyMayMatch` (`filter_block.cc:101`). The shift is the one of `uint64_t`, defined for
`base_lg_ < 64` only. -/
def keyMayMatch (blockOffset : UInt64) (key : Bytes) : Bool :=
  let index := blockOffset.toNat >>> r.baseLg
  if h : index < r.num then
    let start := r.entryStart index h
    let limit := r.entryLimit index h
    if r.inArea start limit then r.policy.keyMayMatch key (r.filterSlice start limit)
    else if start = limit then false  -- "empty filters do not match any keys"
    else true
  else true  -- errors are treated as potential matches

/-- One round of the loop of `RangeMayMatch`: does entry `i` let the table through? The index
`i * 4` is computed in `uint32_t`. -/
def rangeEntry (lo hi : Bytes) (i : UInt32) (h : i.toNat < r.num) : Bool :=
  let pos := r.offset + (i * 4).toNat
  have hpos : pos ≤ r.offset + i.toNat * 4 := by
    have : (i * 4).toNat ≤ i.toNat * 4 := by
      rw [UInt32.toNat_mul]; exact Nat.mod_le _ _
    omega
  let start := wordAt r.data pos (by have := r.inside (by omega); omega)
  let limit := wordAt r.data (pos + 4) (by have := r.inside (by omega); omega)
  r.inArea start limit && r.policy.rangeMayMatch lo hi (r.filterSlice start limit)

/-- The loop of `RangeMayMatch` from `i` on, for at most `fuel` rounds; `none` when it is still
running then. -/
def rangeLoop (lo hi : Bytes) : Nat → UInt32 → Option Bool
  | 0, _ => none
  | fuel + 1, i =>
    if h : i.toNat < r.num then
      if r.rangeEntry lo hi i h then some true else rangeLoop lo hi fuel (i + 1)
    else some false

/-- `RangeMayMatch` (`filter_block.cc:118`). The counter is a `uint32_t`: after `2 ^ 32` rounds it
is back at zero, so a loop that has not left by then never does (`none`). -/
def rangeMayMatch (lo hi : Bytes) : Option Bool := r.rangeLoop lo hi (2 ^ 32 + 1) 0

end FilterBlockReader

end LevelDbSurf
