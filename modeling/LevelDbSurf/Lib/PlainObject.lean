import Mathlib

/-!
# Plain objects as maps

An object made by `{}` has its own properties, in the order they were added, over those every object inherits. A
read finds an own property first, then an inherited one; an assignment makes an own property, but for
`__proto__`, whose setter ignores what is no object. Two objects with the same own properties have them in some
order each (`PlainObject.perm_of_lookup`).
-/

namespace PlainObjects

variable {β γ : Type}

/-! ## Association lists -/

section Own
variable {κ : Type} [DecidableEq κ] {l : List (κ × β)} {key k : κ} {v : β}

/-- Sets one entry, in its place, or at the end. -/
def setOwn (key : κ) (value : β) : List (κ × β) → List (κ × β)
  | [] => [(key, value)]
  | (k, v) :: rest => if k = key then (k, value) :: rest else (k, v) :: setOwn key value rest

theorem lookup_cons_ite (k' : κ) (v : β) (rest : List (κ × β)) (k : κ) :
    ((k', v) :: rest).lookup k = if k = k' then some v else rest.lookup k := by
  rw [List.lookup_cons]
  by_cases h : k = k'
  · simp [h]
  · rw [if_neg h, beq_eq_false_iff_ne.2 h]

@[simp] theorem lookup_setOwn (key : κ) (value : β) (l : List (κ × β)) (k : κ) :
    (setOwn key value l).lookup k = if k = key then some value else l.lookup k := by
  induction l with
  | nil => simp [setOwn, lookup_cons_ite]
  | cons entry rest ih =>
    obtain ⟨k', v⟩ := entry
    by_cases hk : k' = key
    · subst hk
      rw [setOwn, if_pos rfl, lookup_cons_ite, lookup_cons_ite]
      by_cases h : k = k' <;> simp [h]
    · rw [setOwn, if_neg hk, lookup_cons_ite, lookup_cons_ite, ih]
      by_cases h : k = k'
      · subst h
        simp [hk]
      · simp [h]

theorem keys_setOwn (key : κ) (value : β) (l : List (κ × β)) :
    (setOwn key value l).map Prod.fst = if key ∈ l.map Prod.fst then l.map Prod.fst else l.map Prod.fst ++ [key] := by
  induction l with
  | nil => simp [setOwn]
  | cons entry rest ih =>
    obtain ⟨k, v⟩ := entry
    by_cases hk : k = key
    · simp [setOwn, hk]
    · rw [setOwn, if_neg hk, List.map_cons, ih]
      by_cases hmem : key ∈ rest.map Prod.fst
      · rw [if_pos hmem, if_pos (show key ∈ ((k, v) :: rest).map Prod.fst from List.mem_cons_of_mem k hmem), List.map_cons]
      · have hnot : key ∉ ((k, v) :: rest).map Prod.fst := by
          rw [List.map_cons]
          exact List.not_mem_cons_of_ne_of_not_mem (Ne.symm hk) hmem
        rw [if_neg hmem, if_neg hnot, List.map_cons, List.cons_append]

theorem nodup_setOwn (value : β) (h : (l.map Prod.fst).Nodup) : ((setOwn key value l).map Prod.fst).Nodup := by
  rw [keys_setOwn]
  split
  · exact h
  · rename_i hmem
    exact List.Nodup.append h (List.nodup_singleton key) (by simpa using hmem)

theorem not_mem_keys_setOwn {value : β} (hk : k ≠ key) (h : k ∉ l.map Prod.fst) :
    k ∉ (setOwn key value l).map Prod.fst := by
  rw [keys_setOwn]
  split
  · exact h
  · rw [List.mem_append, List.mem_singleton, not_or]
    exact ⟨h, hk⟩

/-- What is not a key is set at the end. -/
theorem setOwn_of_not_mem (value : β) (h : key ∉ l.map Prod.fst) : setOwn key value l = l ++ [(key, value)] := by
  induction l with
  | nil => rfl
  | cons entry rest ih =>
    obtain ⟨k, v⟩ := entry
    simp only [List.map_cons, List.mem_cons, not_or] at h
    rw [setOwn, if_neg (Ne.symm h.1), ih h.2, List.cons_append]

theorem mem_iff_lookup (h : (l.map Prod.fst).Nodup) : (k, v) ∈ l ↔ l.lookup k = some v := by
  induction l with
  | nil => simp
  | cons entry rest ih =>
    obtain ⟨k', v'⟩ := entry
    rw [List.map_cons, List.nodup_cons] at h
    rw [lookup_cons_ite]
    by_cases hk : k = k'
    · subst hk
      have hnot : (k, v) ∉ rest := fun hmem => h.1 (List.mem_map.2 ⟨(k, v), hmem, rfl⟩)
      simp [hnot, eq_comm]
    · simp [hk, ih h.2]

/-- Setting entries of other keys one after the other adds them. -/
theorem foldl_setOwn (entries l : List (κ × β)) (h : ((l ++ entries).map Prod.fst).Nodup) :
    entries.foldl (fun l entry => setOwn entry.1 entry.2 l) l = l ++ entries := by
  induction entries generalizing l with
  | nil => simp
  | cons entry entries ih =>
    have hnot : entry.1 ∉ l.map Prod.fst := by
      rw [List.map_append, List.nodup_append] at h
      exact fun hmem => h.2.2 _ hmem _ (by simp) rfl
    rw [List.foldl_cons, setOwn_of_not_mem _ hnot, ih, List.append_assoc, List.singleton_append]
    rwa [List.append_assoc, List.singleton_append]

end Own

/-! ## Objects -/

/-- What every object inherits under some name. -/
inductive Inherited where
  | objectPrototype
  | function (name : String)
deriving DecidableEq

/-- As a string. -/
def Inherited.text : Inherited → String
  | objectPrototype => "[object Object]"
  | function name => "function " ++ name ++ "() \x7b [native code] \x7d"

/-- The methods of `Object.prototype`. -/
def methods : List String :=
  ["hasOwnProperty", "isPrototypeOf", "propertyIsEnumerable", "toLocaleString", "toString", "valueOf",
    "__defineGetter__", "__defineSetter__", "__lookupGetter__", "__lookupSetter__"]

/-- The property of `Object.prototype` of this name. -/
def inherited (key : String) : Option Inherited :=
  if key = "__proto__" then some .objectPrototype
  else if key = "constructor" then some (.function "Object")
  else if key ∈ methods then some (.function key)
  else none

theorem nodup_keys_nil (β : Type) : (([] : List (String × β)).map Prod.fst).Nodup := List.nodup_nil

theorem not_mem_keys_nil (β : Type) : "__proto__" ∉ ([] : List (String × β)).map Prod.fst := List.not_mem_nil

/-- An object that started as `{}`. -/
structure PlainObject (β : Type) where
  own : List (String × β) := []
  nodup : (own.map Prod.fst).Nodup := by exact nodup_keys_nil _
  not_proto : "__proto__" ∉ own.map Prod.fst := by exact not_mem_keys_nil _

/-- What a read finds. -/
inductive Property (β : Type) where
  | own (value : β)
  | inherited (what : Inherited)

namespace PlainObject
variable {o o' : PlainObject β} {key k : String}

/-- The own value of a key. -/
def lookup (o : PlainObject β) (key : String) : Option β := o.own.lookup key

/-- `o[key]`; none is `undefined`. -/
def get (o : PlainObject β) (key : String) : Option (Property β) :=
  match o.lookup key with
  | some value => some (.own value)
  | none => (inherited key).map .inherited

/-- `o[key] = value`, for a value that is no object or a key that is not inherited. -/
def set (o : PlainObject β) (key : String) (value : β) : PlainObject β :=
  if h : key = "__proto__" then o
  else ⟨setOwn key value o.own, nodup_setOwn value o.nodup, not_mem_keys_setOwn (Ne.symm h) o.not_proto⟩

@[simp] theorem lookup_empty (key : String) : ({} : PlainObject β).lookup key = none := rfl

theorem mem_own_iff {v : β} : (key, v) ∈ o.own ↔ o.lookup key = some v := mem_iff_lookup o.nodup

theorem lookup_set (o : PlainObject β) (key : String) (value : β) (k : String) :
    (o.set key value).lookup k =
      if key = "__proto__" then o.lookup k else if k = key then some value else o.lookup k := by
  unfold set
  by_cases h : key = "__proto__"
  · simp [h]
  · rw [dif_neg h, if_neg h]
    exact lookup_setOwn key value o.own k

theorem get_of_not_inherited (h : inherited key = none) : o.get key = (o.lookup key).map .own := by
  cases hl : o.lookup key <;> simp [get, hl, h]

theorem lookup_proto (o : PlainObject β) : o.lookup "__proto__" = none := by
  cases h : o.lookup "__proto__" with
  | none => rfl
  | some v =>
    exact absurd (List.mem_map.2 ⟨_, mem_own_iff.2 h, rfl⟩) o.not_proto

/-- No key that is not inherited is the one whose setter ignores values. -/
theorem ne_proto_of_not_inherited (h : inherited key = none) : key ≠ "__proto__" := by
  rintro rfl
  simp [inherited] at h

/-- The same own properties, but for their order. -/
theorem perm_of_lookup (h : ∀ key, o.lookup key = o'.lookup key) : o.own.Perm o'.own := by
  rw [List.perm_ext_iff_of_nodup (List.Nodup.of_map _ o.nodup) (List.Nodup.of_map _ o'.nodup)]
  rintro ⟨k, v⟩
  rw [mem_own_iff, mem_own_iff, h]

/-- Assigning entries of other keys one after the other adds them. -/
theorem own_foldl_set (entries : List (String × β)) (o : PlainObject β)
    (h : ((o.own ++ entries).map Prod.fst).Nodup) (hproto : "__proto__" ∉ entries.map Prod.fst) :
    (entries.foldl (fun o entry => o.set entry.1 entry.2) o).own = o.own ++ entries := by
  rw [← foldl_setOwn entries o.own h]
  clear h
  induction entries generalizing o with
  | nil => rfl
  | cons entry entries ih =>
    simp only [List.map_cons, List.mem_cons, not_or] at hproto
    have hset : (o.set entry.1 entry.2).own = setOwn entry.1 entry.2 o.own := by
      rw [set, dif_neg (Ne.symm hproto.1)]
    rw [List.foldl_cons, ih _ hproto.2, hset, List.foldl_cons]

end PlainObject

end PlainObjects
