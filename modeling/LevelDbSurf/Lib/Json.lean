import LevelDbSurf.Lib.Double
import LevelDbSurf.Lib.PlainObject

/-!
# JSON texts

`parse` reads a text as `JSON.parse` does: strings are UTF-16, numbers are doubles, of members with one key the last
one stands. `Reads text value` says that the text stands for the value wherever one is asked for; an object of
members that read is read member by member (`reads_object`).
-/

namespace Json

open Doubles PlainObjects

/-- A value. -/
inductive Value where
  | null
  | bool (b : Bool)
  | number (x : Number)
  | string (units : List UInt16)
  | array (elements : List Value)
  | object (members : List (List UInt16 × Value))

/-- The member of an object under a key. -/
def Value.get (v : Value) (key : List UInt16) : Option Value :=
  match v with
  | .object members => members.lookup key
  | _ => none

/-! ## Strings -/

/-- A character in UTF-16. -/
def utf16 (c : Char) : List UInt16 :=
  if c.toNat < 0x10000 then [UInt16.ofNat c.toNat]
  else [UInt16.ofNat (0xD800 + (c.toNat - 0x10000) / 0x400), UInt16.ofNat (0xDC00 + (c.toNat - 0x10000) % 0x400)]

/-- A text in UTF-16. -/
def units (text : List Char) : List UInt16 := text.flatMap utf16

/-- A digit of base sixteen. -/
def hexVal (c : Char) : Option Nat :=
  if '0' ≤ c ∧ c ≤ '9' then some (c.toNat - 48)
  else if 'a' ≤ c ∧ c ≤ 'f' then some (c.toNat - 87)
  else if 'A' ≤ c ∧ c ≤ 'F' then some (c.toNat - 55)
  else none

/-- The unit after `\u`. -/
def hexUnit (a b c d : Char) : Option UInt16 := do
  return UInt16.ofNat ((((← hexVal a) * 16 + (← hexVal b)) * 16 + (← hexVal c)) * 16 + (← hexVal d))

/-- The unit after a backslash. -/
def escapedUnit (c : Char) : Option UInt16 :=
  if c = '"' then some 34
  else if c = '\\' then some 92
  else if c = '/' then some 47
  else if c = 'b' then some 8
  else if c = 'f' then some 12
  else if c = 'n' then some 10
  else if c = 'r' then some 13
  else if c = 't' then some 9
  else none

/-- These units and what follows. -/
def followedBy (us : List UInt16) (tail : Option (List UInt16 × List Char)) : Option (List UInt16 × List Char) :=
  tail.map fun p => (us ++ p.1, p.2)

/-- A string, after its opening quote. -/
def stringBody : List Char → Option (List UInt16 × List Char)
  | [] => none
  | '"' :: rest => some ([], rest)
  | '\\' :: 'u' :: a :: b :: c :: d :: rest => (hexUnit a b c d).bind fun u => followedBy [u] (stringBody rest)
  | '\\' :: c :: rest => (escapedUnit c).bind fun u => followedBy [u] (stringBody rest)
  | c :: rest => if c.toNat < 32 then none else followedBy (utf16 c) (stringBody rest)

/-! ## Numbers -/

/-- The digits at the front, and what follows. -/
def spanDigits (text : List Char) : List Char × List Char :=
  (text.takeWhile Char.isDigit, text.dropWhile Char.isDigit)

/-- The digits after the point. -/
def fraction : List Char → Option (ℚ × List Char)
  | '.' :: rest =>
    let (ds, rest) := spanDigits rest
    if ds = [] then none else some (Nat.ofDigitChars 10 ds 0 / 10 ^ ds.length, rest)
  | rest => some (0, rest)

/-- The digits of the exponent. -/
def exponentDigits (negative : Bool) (text : List Char) : Option (Int × List Char) :=
  let (ds, rest) := spanDigits text
  if ds = [] then none
  else
    let e : Int := Nat.ofDigitChars 10 ds 0
    some (if negative then -e else e, rest)

/-- The exponent, if there is one. -/
def exponent : List Char → Option (Int × List Char)
  | 'e' :: '-' :: rest => exponentDigits true rest
  | 'E' :: '-' :: rest => exponentDigits true rest
  | 'e' :: '+' :: rest => exponentDigits false rest
  | 'E' :: '+' :: rest => exponentDigits false rest
  | 'e' :: rest => exponentDigits false rest
  | 'E' :: rest => exponentDigits false rest
  | rest => some (0, rest)

/-- A number that is not negative. -/
def unsignedNumber (text : List Char) : Option (ℚ × List Char) :=
  let (whole, rest) := spanDigits text
  if whole = [] ∨ whole.head? = some '0' ∧ whole.length ≠ 1 then none
  else do
    let (part, rest) ← fraction rest
    let (e, rest) ← exponent rest
    return ((Nat.ofDigitChars 10 whole 0 + part) * 10 ^ e, rest)

/-- A number. -/
def number : List Char → Option (ℚ × List Char)
  | '-' :: rest => (unsignedNumber rest).map fun p => (-p.1, p.2)
  | text => unsignedNumber text

/-! ## Values -/

/-- White space. -/
def isSpace (c : Char) : Bool := c = ' ' ∨ c = '\t' ∨ c = '\n' ∨ c = '\x0d'

/-- What follows white space. -/
def skipSpace (text : List Char) : List Char := text.dropWhile isSpace

/-- The members of an object; of those with one key the last stands, in the place of the first. -/
def ofMembers (members : List (List UInt16 × Value)) : List (List UInt16 × Value) :=
  members.foldl (fun l entry => setOwn entry.1 entry.2 l) []

mutual

/-- A value, after white space. Every call reads a character, so the length of the text is fuel enough. -/
def value : Nat → List Char → Option (Value × List Char)
  | 0, _ => none
  | fuel + 1, text =>
    match skipSpace text with
    | '{' :: rest =>
      match skipSpace rest with
      | '}' :: rest => some (.object [], rest)
      | rest => (members fuel rest).map fun p => (.object (ofMembers p.1), p.2)
    | '[' :: rest =>
      match skipSpace rest with
      | ']' :: rest => some (.array [], rest)
      | rest => (elements fuel rest).map fun p => (.array p.1, p.2)
    | '"' :: rest => (stringBody rest).map fun p => (.string p.1, p.2)
    | 't' :: 'r' :: 'u' :: 'e' :: rest => some (.bool true, rest)
    | 'f' :: 'a' :: 'l' :: 's' :: 'e' :: rest => some (.bool false, rest)
    | 'n' :: 'u' :: 'l' :: 'l' :: rest => some (.null, rest)
    | rest => (number rest).map fun p => (.number (Number.round p.1), p.2)

/-- The members of an object, to its closing brace. -/
def members : Nat → List Char → Option (List (List UInt16 × Value) × List Char)
  | 0, _ => none
  | fuel + 1, text =>
    match skipSpace text with
    | '"' :: rest =>
      (stringBody rest).bind fun key =>
        match skipSpace key.2 with
        | ':' :: rest =>
          (value fuel rest).bind fun v =>
            match skipSpace v.2 with
            | ',' :: rest => (members fuel rest).map fun p => ((key.1, v.1) :: p.1, p.2)
            | '}' :: rest => some ([(key.1, v.1)], rest)
            | _ => none
        | _ => none
    | _ => none

/-- The elements of an array, to its closing bracket. -/
def elements : Nat → List Char → Option (List Value × List Char)
  | 0, _ => none
  | fuel + 1, text =>
    (value fuel text).bind fun v =>
      match skipSpace v.2 with
      | ',' :: rest => (elements fuel rest).map fun p => (v.1 :: p.1, p.2)
      | ']' :: rest => some ([v.1], rest)
      | _ => none

end

/-- `JSON.parse`; nothing where it throws. -/
def parse (text : List Char) : Option Value :=
  match value (text.length + 1) text with
  | some (v, rest) => if skipSpace rest = [] then some v else none
  | none => none

/-! ## Texts that stand for values -/

/-- A character a string has as it is. -/
def Plain (c : Char) : Prop := c ≠ '"' ∧ c ≠ '\\' ∧ 32 ≤ c.toNat

instance (c : Char) : Decidable (Plain c) := inferInstanceAs (Decidable (_ ∧ _))

theorem stringBody_cons {c : Char} (h : Plain c) (rest : List Char) :
    stringBody (c :: rest) = followedBy (utf16 c) (stringBody rest) := by
  obtain ⟨hquote, hbackslash, hspace⟩ := h
  rw [stringBody.eq_def]
  split <;> simp_all

theorem stringBody_plain {key : List Char} (h : ∀ c ∈ key, Plain c) (rest : List Char) :
    stringBody (key ++ '"' :: rest) = some (units key, rest) := by
  induction key with
  | nil => rfl
  | cons c key ih =>
    rw [List.cons_append, stringBody_cons (h c (List.mem_cons_self ..)),
      ih fun c' hc' => h c' (List.mem_cons_of_mem c hc')]
    rfl

/-- What follows a member: another one, or the end of the object. -/
def Ends (rest : List Char) : Prop := ∃ c tail, rest = c :: tail ∧ (c = ',' ∨ c = '}')

/-- The text stands for the value. -/
def Reads (text : List Char) (v : Value) : Prop :=
  ∀ fuel rest, Ends rest → value (fuel + 1) (text ++ rest) = some (v, rest)

theorem reads_bool (b : Bool) : Reads (toString b).toList (.bool b) := by
  intro fuel rest _
  cases b <;> rfl

theorem reads_string {text : List Char} {us : List UInt16}
    (h : ∀ rest, stringBody (text ++ '"' :: rest) = some (us, rest)) : Reads ('"' :: text ++ ['"']) (.string us) := by
  intro fuel rest _
  have hskip : skipSpace ('"' :: text ++ ['"'] ++ rest) = '"' :: (text ++ '"' :: rest) := by
    simp [skipSpace, isSpace]
  rw [value, hskip]
  simp [h]

/-! ### Numbers -/

/-- A decimal numeral. -/
def decimal (n : Int) : List Char :=
  if n < 0 then '-' :: Nat.toDigits 10 n.natAbs else Nat.toDigits 10 n.natAbs

theorem spanDigits_append {ds rest : List Char} (hds : ∀ c ∈ ds, c.isDigit = true)
    (hrest : ∀ c tail, rest = c :: tail → c.isDigit = false) : spanDigits (ds ++ rest) = (ds, rest) := by
  rw [spanDigits, List.takeWhile_append_of_pos hds, List.dropWhile_append_of_pos hds]
  cases rest with
  | nil => simp
  | cons c tail => simp [hrest c tail rfl]

theorem Ends.not_isDigit {rest : List Char} (h : Ends rest) : ∀ c tail, rest = c :: tail → c.isDigit = false := by
  obtain ⟨c, tail, rfl, rfl | rfl⟩ := h <;> rintro c' tail' ⟨⟩ <;> rfl

theorem digitChar_eq_zero_iff {n : Nat} (hn : n < 10) : n.digitChar = '0' ↔ n = 0 := by
  interval_cases n <;> decide

/-- A numeral starts with a zero only if it is that of zero. -/
theorem head?_toDigits (n : Nat) : (Nat.toDigits 10 n).head? = some '0' ↔ n = 0 := by
  induction n using Nat.strong_induction_on with
  | _ n ih =>
    rcases Nat.lt_or_ge n 10 with hlt | hge
    · rw [Nat.toDigits_of_lt_base hlt, List.head?_cons, Option.some.injEq, digitChar_eq_zero_iff hlt]
    · have hdiv : n / 10 ≠ 0 := by omega
      rw [Nat.toDigits_of_base_le (by decide) hge, List.head?_append_of_ne_nil _ Nat.toDigits_ne_nil,
        ih (n / 10) (by omega)]
      omega

theorem fraction_of_ends {rest : List Char} (h : Ends rest) : fraction rest = some (0, rest) := by
  obtain ⟨c, tail, rfl, rfl | rfl⟩ := h <;> rfl

theorem exponent_of_ends {rest : List Char} (h : Ends rest) : exponent rest = some (0, rest) := by
  obtain ⟨c, tail, rfl, rfl | rfl⟩ := h <;> rfl

/-- Zeros after a point add nothing. -/
theorem fraction_zeros {rest : List Char} (h : Ends rest) (k : Nat) :
    fraction ('.' :: (List.replicate (k + 1) '0' ++ rest)) = some (0, rest) := by
  have hspan : spanDigits (List.replicate (k + 1) '0' ++ rest) = (List.replicate (k + 1) '0', rest) :=
    spanDigits_append (fun c hc => by rw [List.eq_of_mem_replicate hc]; rfl) h.not_isDigit
  simp [fraction, hspan, Nat.ofDigitChars_replicate_zero]

/-- What may stand between the digits and the end of a member: a point and zeros. -/
def PointZeros (point : List Char) : Prop := point = [] ∨ ∃ k, point = '.' :: List.replicate (k + 1) '0'

theorem unsignedNumber_toDigits (n : Nat) {point rest : List Char} (hpoint : PointZeros point) (h : Ends rest) :
    unsignedNumber (Nat.toDigits 10 n ++ (point ++ rest)) = some ((n : ℚ), rest) := by
  have hdigits : ∀ c ∈ Nat.toDigits 10 n, c.isDigit = true := fun c hc =>
    Nat.isDigit_of_mem_toDigits (by decide) (by decide) hc
  have htail : ∀ c tail, point ++ rest = c :: tail → c.isDigit = false := by
    rcases hpoint with rfl | ⟨k, rfl⟩
    · exact h.not_isDigit
    · rintro c tail ⟨⟩
      rfl
  have hfraction : fraction (point ++ rest) = some (0, rest) := by
    rcases hpoint with rfl | ⟨k, rfl⟩
    · exact fraction_of_ends h
    · exact fraction_zeros h k
  have hhead : ¬ (Nat.toDigits 10 n = [] ∨
      (Nat.toDigits 10 n).head? = some '0' ∧ (Nat.toDigits 10 n).length ≠ 1) := by
    rw [head?_toDigits]
    rintro (hnil | ⟨rfl, hlength⟩)
    · exact Nat.toDigits_ne_nil hnil
    · exact hlength rfl
  simp only [unsignedNumber, spanDigits_append hdigits htail, if_neg hhead, hfraction, exponent_of_ends h,
    Nat.ofDigitChars_ten_toDigits, Option.bind_eq_bind, Option.bind_some, add_zero, zpow_zero, mul_one, pure]

/-- What starts with a digit or a sign is a number. -/
theorem value_number {c : Char} (hc : c.isDigit = true ∨ c = '-') (fuel : Nat) (tail : List Char) :
    value (fuel + 1) (c :: tail) = (number (c :: tail)).map fun p => (.number (Number.round p.1), p.2) := by
  have hne : c ≠ '{' ∧ c ≠ '[' ∧ c ≠ '"' ∧ c ≠ 't' ∧ c ≠ 'f' ∧ c ≠ 'n' ∧ isSpace c = false := by
    rcases hc with hc | rfl
    · refine ⟨?_, ?_, ?_, ?_, ?_, ?_, ?_⟩
      rotate_right
      · simp only [isSpace, decide_eq_false_iff_not]
        rintro (rfl | rfl | rfl | rfl) <;> exact absurd hc (by decide)
      all_goals
        rintro rfl
        exact absurd hc (by decide)
    · decide
  obtain ⟨h1, h2, h3, h4, h5, h6, hspace⟩ := hne
  have hskip : skipSpace (c :: tail) = c :: tail := by
    simp [skipSpace, hspace]
  rw [value, hskip]
  split <;> simp_all

theorem number_digit {c : Char} (hc : c.isDigit = true) (tail : List Char) :
    number (c :: tail) = unsignedNumber (c :: tail) := by
  have hne : c ≠ '-' := by
    rintro rfl
    exact absurd hc (by decide)
  rw [number.eq_def]
  split
  · rename_i heq
    exact absurd (List.cons.inj heq).1 hne
  · rfl

/-- **Numerals.** -/
theorem reads_decimal (n : Int) {point : List Char} (hpoint : PointZeros point) :
    Reads (decimal n ++ point) (.number (Number.round n)) := by
  intro fuel rest h
  obtain ⟨d, ds, hds⟩ := List.exists_cons_of_ne_nil (Nat.toDigits_ne_nil (n := n.natAbs) (b := 10))
  have hdigit : d.isDigit = true :=
    Nat.isDigit_of_mem_toDigits (by decide) (by decide) (hds ▸ List.mem_cons_self ..)
  have hunsigned := unsignedNumber_toDigits n.natAbs hpoint h
  rw [List.append_assoc, decimal]
  split
  · rename_i hneg
    rw [List.cons_append, value_number (Or.inr rfl)]
    simp only [number, hunsigned, Option.map_some]
    rw [show -((n.natAbs : ℕ) : ℚ) = n by rw [Nat.cast_natAbs, abs_of_neg hneg]; push_cast; ring]
  · rename_i hneg
    rw [hds, List.cons_append] at hunsigned
    rw [hds, List.cons_append, value_number (Or.inl hdigit), number_digit hdigit, hunsigned, Option.map_some]
    rw [show ((n.natAbs : ℕ) : ℚ) = n by rw [Nat.cast_natAbs, abs_of_nonneg (not_lt.1 hneg)]]

/-! ### Objects -/

/-- A member of a plain key, and a text that stands for its value. -/
structure Member where
  key : List Char
  text : List Char
  value : Value
  plain : ∀ c ∈ key, Plain c
  reads : Reads text value

namespace Member

/-- The member as text. -/
def chars (m : Member) : List Char := '"' :: (m.key ++ '"' :: ':' :: m.text)

/-- The member as part of an object. -/
def entry (m : Member) : List UInt16 × Value := (units m.key, m.value)

end Member

/-- The members as text, with commas in between. -/
def memberList (m : Member) (ms : List Member) : List Char := m.chars ++ ms.flatMap fun m => ',' :: m.chars

theorem members_memberList (ms : List Member) (m : Member) (fuel : Nat) (hfuel : ms.length + 1 < fuel)
    (rest : List Char) :
    members fuel (memberList m ms ++ '}' :: rest) = some ((m :: ms).map Member.entry, rest) := by
  induction ms generalizing m fuel with
  | nil =>
    obtain ⟨fuel, rfl⟩ : ∃ k, fuel = k + 2 := ⟨fuel - 2, by simp at hfuel; omega⟩
    have htext : memberList m [] ++ '}' :: rest = '"' :: (m.key ++ '"' :: (':' :: (m.text ++ '}' :: rest))) := by
      simp [memberList, Member.chars]
    have hvalue := m.reads fuel ('}' :: rest) ⟨'}', rest, rfl, Or.inr rfl⟩
    rw [htext, members]
    simp [skipSpace, isSpace, stringBody_plain m.plain, hvalue, Member.entry]
  | cons m' ms ih =>
    obtain ⟨fuel, rfl⟩ : ∃ k, fuel = k + 2 := ⟨fuel - 2, by simp at hfuel; omega⟩
    have htext : memberList m (m' :: ms) ++ '}' :: rest =
        '"' :: (m.key ++ '"' :: (':' :: (m.text ++ ',' :: (memberList m' ms ++ '}' :: rest)))) := by
      simp [memberList, Member.chars]
    have hvalue := m.reads fuel (',' :: (memberList m' ms ++ '}' :: rest)) ⟨',', _, rfl, Or.inl rfl⟩
    have hmembers := ih m' (fuel + 1) (by simp at hfuel; omega)
    rw [htext, members]
    simp [skipSpace, isSpace, stringBody_plain m.plain, hvalue, hmembers, Member.entry]

/-- Members of different keys are all there. -/
theorem ofMembers_of_nodup {entries : List (List UInt16 × Value)} (h : (entries.map Prod.fst).Nodup) :
    ofMembers entries = entries := by
  rw [ofMembers, foldl_setOwn entries [] (by simpa using h), List.nil_append]

theorem value_object {fuel : Nat} {tail rest : List Char} {entries : List (List UInt16 × Value)}
    (h : members fuel ('"' :: tail) = some (entries, rest)) :
    value (fuel + 1) ('{' :: '"' :: tail) = some (.object (ofMembers entries), rest) := by
  simp [value, skipSpace, isSpace, h]

/-- **An object** is read as its members. -/
theorem parse_object (m : Member) (ms : List Member) (h : ((m :: ms).map Member.entry |>.map Prod.fst).Nodup) :
    parse ('{' :: (memberList m ms ++ ['}'])) = some (.object ((m :: ms).map Member.entry)) := by
  have hlength : ms.length ≤ (ms.flatMap fun m => ',' :: m.chars).length := by
    rw [List.length_flatMap]
    have hsum := List.length_le_sum_of_one_le (ms.map fun m => (',' :: m.chars).length) (by simp)
    rwa [List.length_map] at hsum
  have hfuel : ms.length + 1 < ('{' :: (memberList m ms ++ ['}'])).length := by
    simp only [memberList, List.length_cons, List.length_append, List.length_nil]
    have hchars : 0 < m.chars.length := by simp [Member.chars]
    omega
  have hmembers := members_memberList ms m _ hfuel []
  obtain ⟨tail, htail⟩ : ∃ tail, memberList m ms ++ ['}'] = '"' :: tail :=
    ⟨_, by simp only [memberList, Member.chars, List.cons_append]; rfl⟩
  have hvalue : value (('{' :: (memberList m ms ++ ['}'])).length + 1) ('{' :: (memberList m ms ++ ['}'])) =
      some (.object (ofMembers ((m :: ms).map Member.entry)), []) := by
    rw [htail] at hmembers ⊢
    exact value_object hmembers
  simp only [parse, hvalue, ofMembers_of_nodup h, skipSpace, List.dropWhile_nil, if_true]

end Json
