import Mathlib

/-!
# Slices, fixed-width words and internal keys

| here | there |
| --- | --- |
| `Coding`        | `PutFixed32`, `DecodeFixed32`, `EncodeFixed64`, `DecodeFixed64` (`util/coding.h`) |
| `Slice`         | the bytes of a key type, and the empty `Slice()` |
| `InternalKey`   | an internal key: a user key and its packed sequence number and type (`db/dbformat.h`) |
| `extractUserKey`| `ExtractUserKey`: drop the eight bytes that hold sequence and type |

`util/coding.h` and `db/dbformat.h` are not part of the repository: the words are a parameter with
the two laws its callers rely on, and the order of internal keys is the documented one (user key
ascending by the user's comparator, then sequence and type descending).
-/

namespace LevelDbSurf

abbrev Bytes := List UInt8

instance : LawfulBEq Bytes := inferInstance

/-- Bytes compare as unsigned; `List`'s order on top of it is `BytewiseComparator`. -/
instance instLinearOrderByte : LinearOrder UInt8 where
  le_refl := UInt8.le_refl
  le_trans _ _ _ := UInt8.le_trans
  le_antisymm _ _ := UInt8.le_antisymm
  le_total := UInt8.le_total
  lt_iff_le_not_ge _ _ := Std.LawfulOrderLT.lt_iff _ _
  toDecidableLE := inferInstance
  toDecidableLT := inferInstance
  toDecidableEq := inferInstance

/-- The fixed-width words of `util/coding.h`: four and eight bytes, read back as written. -/
class Coding where
  putFixed32 : UInt32 → Bytes
  decodeFixed32 : Bytes → UInt32
  encodeFixed64 : UInt64 → Bytes
  decodeFixed64 : Bytes → UInt64
  putFixed32_length : ∀ v, (putFixed32 v).length = 4
  decode_putFixed32 : ∀ v, decodeFixed32 (putFixed32 v) = v
  encodeFixed64_length : ∀ v, (encodeFixed64 v).length = 8
  decode_encodeFixed64 : ∀ v, decodeFixed64 (encodeFixed64 v) = v

export Coding (putFixed32 decodeFixed32 encodeFixed64 decodeFixed64)

attribute [simp] Coding.putFixed32_length Coding.decode_putFixed32 Coding.encodeFixed64_length
  Coding.decode_encodeFixed64

/-! ### Little-endian words, the coding the library writes -/

/-- The `n` low bytes of `v`, lowest first. -/
def bytesLE : Nat → Nat → Bytes
  | 0, _ => []
  | n + 1, v => UInt8.ofNat (v % 256) :: bytesLE n (v / 256)

def valueLE : Bytes → Nat
  | [] => 0
  | b :: bs => b.toNat + 256 * valueLE bs

theorem bytesLE_length (n v : Nat) : (bytesLE n v).length = n := by
  induction n generalizing v with
  | zero => rfl
  | succ n ih => simp [bytesLE, ih]

theorem valueLE_bytesLE (n v : Nat) : valueLE (bytesLE n v) = v % 256 ^ n := by
  induction n generalizing v with
  | zero => simp [bytesLE, valueLE, Nat.mod_one]
  | succ n ih =>
    have hb : (UInt8.ofNat (v % 256)).toNat = v % 256 := by simp
    rw [bytesLE, valueLE, hb, ih, Nat.pow_succ', Nat.mod_mul]

/-- The coding of `util/coding.h`. -/
@[reducible] def littleEndian : Coding where
  putFixed32 v := bytesLE 4 v.toNat
  decodeFixed32 bs := UInt32.ofNat (valueLE bs)
  encodeFixed64 v := bytesLE 8 v.toNat
  decodeFixed64 bs := UInt64.ofNat (valueLE bs)
  putFixed32_length v := bytesLE_length 4 _
  decode_putFixed32 v := by
    have hpow : 256 ^ 4 = 2 ^ 32 := rfl
    rw [valueLE_bytesLE, hpow, Nat.mod_eq_of_lt v.toNat_lt, UInt32.ofNat_toNat]
  encodeFixed64_length v := bytesLE_length 8 _
  decode_encodeFixed64 v := by
    have hpow : 256 ^ 8 = 2 ^ 64 := rfl
    rw [valueLE_bytesLE, hpow, Nat.mod_eq_of_lt v.toNat_lt, UInt64.ofNat_toNat]

/-- A type of keys handed around as `Slice`s. The user's comparator is the `LinearOrder` on it;
`data` gives the bytes a filter policy sees, and `nil` is the default `Slice()`. -/
class Slice (α : Type) where
  data : α → Bytes
  nil : α
  data_nil : data nil = []

/-- `Slice::empty()`. -/
def Slice.empty {α : Type} [Slice α] (s : α) : Bool := (Slice.data s).isEmpty

@[simp] theorem Slice.empty_nil {α : Type} [Slice α] : Slice.empty (Slice.nil : α) = true := by
  simp [Slice.empty, Slice.data_nil]

instance : Slice Bytes := ⟨id, [], rfl⟩

/-! ## Internal keys -/

inductive ValueType where
  | deletion
  | value
deriving DecidableEq, Repr

def ValueType.toNat : ValueType → Nat
  | .deletion => 0
  | .value => 1

/-- `kValueTypeForSeek`: the type that sorts first among equal sequence numbers. -/
def kValueTypeForSeek : ValueType := .value

/-- `kMaxSequenceNumber`: sequence numbers leave eight bits for the type. -/
def kMaxSequenceNumber : Nat := 2 ^ 56 - 1

/-- `PackSequenceAndType`. -/
def packSequenceAndType (seq : Nat) (t : ValueType) : Nat := seq * 256 + t.toNat

/-- An encoded internal key: the user key and the eight bytes behind it. -/
structure InternalKey (α : Type) where
  userKey : α
  tag : Nat
deriving DecidableEq, Repr

structure ParsedInternalKey (α : Type) where
  userKey : α
  sequence : Nat
  type : ValueType
deriving DecidableEq, Repr

/-- `ParseInternalKey`: fails on a type byte above `kTypeValue`. -/
def parseInternalKey {α : Type} (k : InternalKey α) : Option (ParsedInternalKey α) :=
  match k.tag % 256 with
  | 0 => some ⟨k.userKey, k.tag / 256, .deletion⟩
  | 1 => some ⟨k.userKey, k.tag / 256, .value⟩
  | _ => none

/-- `LookupKey(user_key, s)`: sorts before every entry of the user key the snapshot `s` may see. -/
def lookupKey {α : Type} (userKey : α) (s : Nat) : InternalKey α :=
  ⟨userKey, packSequenceAndType s kValueTypeForSeek⟩

theorem parseInternalKey_some {α : Type} {k : InternalKey α} {p : ParsedInternalKey α}
    (h : parseInternalKey k = some p) :
    p.userKey = k.userKey ∧ k.tag = packSequenceAndType p.sequence p.type := by
  unfold parseInternalKey at h
  split at h
  · rename_i h0
    cases h
    simp only [packSequenceAndType, ValueType.toNat, true_and]
    omega
  · rename_i h1
    cases h
    simp only [packSequenceAndType, ValueType.toNat, true_and]
    omega
  · cases h

theorem parseInternalKey_lookupKey {α : Type} (userKey : α) (s : Nat) :
    (parseInternalKey (lookupKey userKey s)).isSome := by
  have htype : (lookupKey userKey s).tag % 256 = 1 := by
    simp only [lookupKey, packSequenceAndType, kValueTypeForSeek, ValueType.toNat]
    omega
  simp [parseInternalKey, htype]

namespace InternalKey

variable {α : Type} [LinearOrder α]

/-- `InternalKeyComparator::Compare`: user keys ascending, then newer entries first. -/
instance : LinearOrder (InternalKey α) :=
  LinearOrder.lift' (fun k => toLex (k.userKey, OrderDual.toDual k.tag)) (by
    intro a b h
    have h' := Prod.ext_iff.1 (toLex.injective h)
    obtain ⟨ua, ta⟩ := a
    obtain ⟨ub, tb⟩ := b
    simp_all)

theorem lt_iff {a b : InternalKey α} :
    a < b ↔ a.userKey < b.userKey ∨ a.userKey = b.userKey ∧ b.tag < a.tag :=
  Prod.Lex.lt_iff (x := toLex (a.userKey, OrderDual.toDual a.tag))
    (y := toLex (b.userKey, OrderDual.toDual b.tag))

theorem le_iff {a b : InternalKey α} :
    a ≤ b ↔ a.userKey < b.userKey ∨ a.userKey = b.userKey ∧ b.tag ≤ a.tag :=
  Prod.Lex.le_iff (x := toLex (a.userKey, OrderDual.toDual a.tag))
    (y := toLex (b.userKey, OrderDual.toDual b.tag))

theorem userKey_le {a b : InternalKey α} (h : a ≤ b) : a.userKey ≤ b.userKey := by
  rcases le_iff.1 h with h | ⟨h, -⟩
  · exact h.le
  · exact h.le

/-- An entry of `u` sorts at or after the lookup key of a snapshot iff the snapshot may see it. -/
theorem lookupKey_le_iff {s : Nat} {k : InternalKey α} {p : ParsedInternalKey α}
    (hp : parseInternalKey k = some p) :
    lookupKey k.userKey s ≤ k ↔ p.sequence ≤ s := by
  obtain ⟨-, htag⟩ := parseInternalKey_some hp
  rw [le_iff, lookupKey, htag]
  cases p.type with
  | deletion =>
    simp [packSequenceAndType, kValueTypeForSeek, ValueType.toNat]
    omega
  | value => simp [packSequenceAndType, kValueTypeForSeek, ValueType.toNat]

end InternalKey

theorem lookupKey_mono {α : Type} [LinearOrder α] {u u' : α} (h : u ≤ u') (sequence : Nat) :
    lookupKey u sequence ≤ lookupKey u' sequence := by
  rw [InternalKey.le_iff]
  rcases lt_or_eq_of_le h with hlt | rfl
  · exact Or.inl hlt
  · exact Or.inr ⟨rfl, le_refl _⟩

/-- `InternalKey::Encode`: the user key followed by the packed sequence and type. -/
def InternalKey.encode {α : Type} [Coding] [Slice α] (k : InternalKey α) : Bytes :=
  Slice.data k.userKey ++ encodeFixed64 (UInt64.ofNat k.tag)

/-- `ExtractUserKey`. -/
def extractUserKey (internalKey : Bytes) : Bytes := internalKey.take (internalKey.length - 8)

@[simp] theorem extractUserKey_encode {α : Type} [Coding] [Slice α] (k : InternalKey α) :
    extractUserKey k.encode = Slice.data k.userKey := by
  simp [extractUserKey, InternalKey.encode]

/-! ## `Status` -/

/-- `Status`, with the codes the modelled functions build or test for. `msg2` is the `Slice` appended
to the message. -/
inductive Status where
  | ok
  | notFound (msg : String)
  | corruption (msg : String) (msg2 : Bytes := [])
  | ioError (msg : String)
deriving DecidableEq, Repr

/-- `Status::ok()`. -/
def Status.isOk : Status → Bool
  | .ok => true
  | _ => false

end LevelDbSurf
