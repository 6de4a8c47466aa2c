import LevelDbSurf.DashboardEvents
import LevelDbSurf.Lib.Json
import LevelDbSurf.QueryEvents

/-!
# The metrics file (`db_bench.cc:178-242`, `652-706`, `dashboard-server/src/metrics-parser.js`)

| here | there |
| --- | --- |
| `escapeString`           | `JsonlWriter::EscapeString` |
| `QueryEvent.line`        | the line `RecordQueryEvent` builds |
| `writeLine`              | `JsonlWriter::WriteLine`, when nothing fails |
| `Engine.readFileSync`    | `readFileSync(.., 'utf-8')` |
| `trim`                   | `String.prototype.trim` |
| `parseJsonlFile`         | the same (`metrics-parser.js:7`), without its messages |

A latency is a whole number of microseconds, so `std::to_string` gives it six zeros after the point.
-/

namespace LevelDbSurf

open Json Doubles

/-! ## The writer -/

/-- The bytes of a text. -/
def utf8 (text : List Char) : Bytes := text.flatMap String.utf8EncodeChar

/-- What `EscapeString` appends for a byte of this value, where it is not the byte itself. -/
def escapeSequence (c : Nat) : Option (List Char) :=
  if c = 34 then some ['\\', '"']
  else if c = 92 then some ['\\', '\\']
  else if c = 8 then some ['\\', 'b']
  else if c = 12 then some ['\\', 'f']
  else if c = 10 then some ['\\', 'n']
  else if c = 13 then some ['\\', 'r']
  else if c = 9 then some ['\\', 't']
  else if c < 0x20 then
    some ['\\', 'u', Nat.digitChar (c / 4096 % 16), Nat.digitChar (c / 256 % 16), Nat.digitChar (c / 16 % 16),
      Nat.digitChar (c % 16)]
  else none

/-- `EscapeString`. -/
def escapeString (value : Bytes) : Bytes := value.flatMap fun c => ((escapeSequence c.toNat).map utf8).getD [c]

/-- `,"key":"value"`, the value escaped. -/
def stringField (key : String) (value : Bytes) : Bytes :=
  utf8 (",\"" ++ key ++ "\":\"").toList ++ escapeString value ++ utf8 ['"']

/-- `,"key":number`. -/
def numberField (key : String) (value : Int) : Bytes := utf8 (",\"" ++ key ++ "\":").toList ++ utf8 (decimal value)

/-- `,"key":true` or `,"key":false`. -/
def boolField (key : String) (value : Bool) : Bytes :=
  utf8 (",\"" ++ key ++ "\":").toList ++ utf8 (toString value).toList

/-- The line of an event. -/
def QueryEvent.line (e : QueryEvent) : Bytes :=
  utf8 ['{'] ++ (utf8 "\"query_id\":".toList ++ utf8 (decimal e.queryId.toNat)) ++
    stringField "benchmark_name" (utf8 e.benchmarkName.toList) ++
    stringField "filter_type" (utf8 e.filterType.toList) ++
    stringField "query_type" (utf8 e.queryType.toList) ++
    (numberField "latency_us" e.latencyUs ++ utf8 ".000000".toList) ++
    numberField "timestamp_us" e.timestampUs ++
    e.queryLo.elim [] (stringField "query_lo") ++
    e.queryHi.elim [] (stringField "query_hi") ++
    boolField "actual_match" e.actualMatch ++
    e.filterMayMatch.elim [] (boolField "filter_may_match") ++
    e.falsePositive.elim [] (boolField "false_positive") ++
    e.sstables.elim [] (fun counters =>
      numberField "sstables_considered" counters.considered ++ numberField "sstables_pruned" counters.pruned ++
        numberField "sstables_opened" counters.opened) ++
    utf8 ['}']

/-- `fputs(json_line.c_str(), file_)` and `fputc('\n', file_)`: what follows a zero byte is left out. -/
def writeLine (file line : Bytes) : Bytes := file ++ line.takeWhile (fun b => b ≠ 0) ++ utf8 ['\n']

/-! ## The reader -/

/-- The text of bytes; of others than UTF-8 it is a parameter. -/
def readText (replacing : Bytes → List Char) (file : Bytes) : List Char :=
  match file.toByteArray.utf8Decode? with
  | some text => text.toList
  | none => replacing file

/-- The JavaScript engine that reads the file. -/
structure Engine where
  /-- The bytes of the longest file that it makes a string of. An array has room for more elements. -/
  maxFileLength : Nat
  maxFileLength_lt : maxFileLength < 2 ^ 32 - 1
  /-- The text of bytes that are not UTF-8. -/
  replacing : Bytes → List Char

/-- `readFileSync(.., 'utf-8')`, which throws where the file has more bytes than a string may have units, however
few units its text has. -/
def Engine.readFileSync (engine : Engine) (file : Bytes) : Option (List Char) :=
  if file.length ≤ engine.maxFileLength then some (readText engine.replacing file) else none

/-- White space and line ends. -/
def isWhiteSpace (c : Char) : Bool := Dashboard.whiteSpace.contains c.toNat

/-- `trim`. -/
def trim (text : List Char) : List Char := (text.dropWhile isWhiteSpace).rdropWhile isWhiteSpace

/-- What `parseJsonlFile` returns. -/
structure ParsedFile where
  events : List Value := []
  totalLines : Nat := 0
  malformedLines : Nat := 0

/-- One line. -/
def ParsedFile.addLine (p : ParsedFile) (line : List Char) : ParsedFile :=
  match parse line with
  | some event => { p with events := p.events ++ [event], totalLines := p.totalLines + 1 }
  | none => { p with totalLines := p.totalLines + 1, malformedLines := p.malformedLines + 1 }

/-- What there is under the path. -/
inductive FileState where
  | missing
  /-- The system does not let it be read. -/
  | unreadable
  | content (bytes : Bytes)

/-- `parseJsonlFile`. -/
def parseJsonlFile (engine : Engine) : FileState → ParsedFile
  | .missing => {}
  | .unreadable => {}
  | .content bytes =>
    match engine.readFileSync bytes with
    | none => {}
    | some content =>
      let lines := ((trim content).splitOn '\n').filter fun line => line.length > 0
      lines.foldl ParsedFile.addLine {}

/-! ## Texts as bytes -/

@[simp] theorem utf8_nil : utf8 [] = [] := rfl

theorem utf8_append (a b : List Char) : utf8 (a ++ b) = utf8 a ++ utf8 b := List.flatMap_append ..

theorem utf8_flatMap {α : Type} (f : α → List Char) (l : List α) :
    utf8 (l.flatMap f) = l.flatMap fun a => utf8 (f a) :=
  List.flatMap_assoc

/-- The text of a file of text. -/
theorem readText_utf8 (replacing : Bytes → List Char) (text : List Char) : readText replacing (utf8 text) = text := by
  have hdecode : (utf8 text).toByteArray.utf8Decode? = some text.toArray := List.utf8Decode?_utf8Encode
  rw [readText, hdecode]

/-- A character below 128 is one byte. -/
theorem utf8EncodeChar_of_lt {c : Char} (h : c.toNat < 128) : String.utf8EncodeChar c = [UInt8.ofNat c.toNat] := by
  have h' : c.val.toNat ≤ 127 := Nat.lt_succ_iff.1 h
  simp only [String.utf8EncodeChar, if_pos h']
  rfl

/-- Every other one has bytes from 128 on. -/
theorem le_of_mem_utf8EncodeChar {c : Char} (h : 128 ≤ c.toNat) : ∀ b ∈ String.utf8EncodeChar c, 128 ≤ b.toNat := by
  have h' : ¬ c.val.toNat ≤ 127 := not_le.2 h
  intro b hb
  simp only [String.utf8EncodeChar, if_neg h'] at hb
  split_ifs at hb <;> simp only [List.mem_cons, List.not_mem_nil, or_false] at hb
  · rcases hb with rfl | rfl <;> rw [UInt8.toNat_ofNat'] <;> omega
  · rcases hb with rfl | rfl | rfl <;> rw [UInt8.toNat_ofNat'] <;> omega
  · rcases hb with rfl | rfl | rfl | rfl <;> rw [UInt8.toNat_ofNat'] <;> omega

/-! ## Escaping -/

/-- A character, escaped. -/
def escapeChar (c : Char) : List Char := (escapeSequence c.toNat).getD [c]

theorem escapeSequence_of_le {c : Nat} (h : 128 ≤ c) : escapeSequence c = none := by
  simp only [escapeSequence]
  repeat rw [if_neg (by omega)]

/-- Escaping the bytes of a text is escaping its characters. -/
theorem escapeString_utf8 (text : List Char) : escapeString (utf8 text) = utf8 (text.flatMap escapeChar) := by
  rw [utf8_flatMap, escapeString, utf8, List.flatMap_assoc]
  refine List.flatMap_congr fun c _ => ?_
  by_cases h : c.toNat < 128
  · have hbyte : (UInt8.ofNat c.toNat).toNat = c.toNat := by
      rw [UInt8.toNat_ofNat', Nat.mod_eq_of_lt (by omega)]
    rw [utf8EncodeChar_of_lt h, List.flatMap_singleton, hbyte, escapeChar]
    cases escapeSequence c.toNat with
    | some cs => rfl
    | none => simp [utf8, utf8EncodeChar_of_lt h]
  · have hbytes : ∀ b ∈ String.utf8EncodeChar c, ((escapeSequence b.toNat).map utf8).getD [b] = [b] := by
      intro b hb
      rw [escapeSequence_of_le (le_of_mem_utf8EncodeChar (not_lt.1 h) b hb)]
      rfl
    rw [List.flatMap_congr hbytes, escapeChar, escapeSequence_of_le (not_lt.1 h)]
    simp [utf8]

/-- The control characters, escaped and read back. -/
theorem stringBody_escapeSequence {c : Nat} {cs : List Char} (h : escapeSequence c = some cs) (rest : List Char) :
    stringBody (cs ++ rest) = followedBy [UInt16.ofNat c] (stringBody rest) := by
  have hc : c < 32 ∨ c = 34 ∨ c = 92 := by
    by_contra hne
    rw [escapeSequence] at h
    repeat rw [if_neg (by omega)] at h
    cases h
  rcases hc with hc | rfl | rfl
  · interval_cases c <;> obtain rfl := Option.some.inj h <;> rfl
  · obtain rfl := Option.some.inj h
    rfl
  · obtain rfl := Option.some.inj h
    rfl

theorem plain_of_escapeSequence {c : Char} (h : escapeSequence c.toNat = none) : Plain c := by
  refine ⟨?_, ?_, ?_⟩
  · rintro rfl
    cases h
  · rintro rfl
    cases h
  · by_contra hlt
    simp only [escapeSequence, if_pos (not_le.1 hlt)] at h
    split_ifs at h

/-- A character is read back from its escape. -/
theorem stringBody_escapeChar (c : Char) (rest : List Char) :
    stringBody (escapeChar c ++ rest) = followedBy (utf16 c) (stringBody rest) := by
  rw [escapeChar]
  cases h : escapeSequence c.toNat with
  | some cs =>
    have hsmall : c.toNat < 0x10000 := by
      by_contra hge
      rw [escapeSequence_of_le (by omega)] at h
      cases h
    rw [Option.getD_some, stringBody_escapeSequence h, utf16, if_pos hsmall]
  | none => exact stringBody_cons (plain_of_escapeSequence h) rest

/-- **`EscapeString`** and `JSON.parse`: the string. -/
theorem stringBody_escape (text rest : List Char) :
    stringBody (text.flatMap escapeChar ++ '"' :: rest) = some (units text, rest) := by
  induction text with
  | nil => rfl
  | cons c text ih =>
    rw [List.flatMap_cons, List.append_assoc, stringBody_escapeChar, ih]
    rfl

/-! ## The line -/

section Line

/-- The keys of an event. -/
def eventKeys : List String :=
  ["query_id", "benchmark_name", "filter_type", "query_type", "latency_us", "timestamp_us", "query_lo", "query_hi",
    "actual_match", "filter_may_match", "false_positive", "sstables_considered", "sstables_pruned", "sstables_opened"]

theorem plain_eventKeys : ∀ key ∈ eventKeys, ∀ c ∈ key.toList, Plain c := by
  simp [eventKeys, Plain]

/-- The keys differ. -/
theorem nodup_eventKeys : (eventKeys.map fun key => units key.toList).Nodup := by
  decide +kernel

/-- A string under a key. -/
def stringEntry (key : String) (text : List Char) : List UInt16 × Value := (units key.toList, .string (units text))

/-- A number under a key. -/
def numberEntry (key : String) (x : ℚ) : List UInt16 × Value := (units key.toList, .number (Number.round x))

/-- A boolean under a key. -/
def boolEntry (key : String) (b : Bool) : List UInt16 × Value := (units key.toList, .bool b)

/-- A member that is a string. -/
def stringMember (key : String) (text : List Char) (hkey : key ∈ eventKeys) : Member where
  key := key.toList
  text := '"' :: text.flatMap escapeChar ++ ['"']
  value := .string (units text)
  plain := plain_eventKeys key hkey
  reads := reads_string fun rest => stringBody_escape text rest

/-- A member that is a number, with so many zeros after the point. -/
def numberMember (key : String) (n : Int) (zeros : Nat) (hkey : key ∈ eventKeys) : Member where
  key := key.toList
  text := decimal n ++ if zeros = 0 then [] else '.' :: List.replicate zeros '0'
  value := .number (Number.round n)
  plain := plain_eventKeys key hkey
  reads := by
    refine reads_decimal n ?_
    cases zeros with
    | zero => exact Or.inl rfl
    | succ k => exact Or.inr ⟨k, rfl⟩

/-- A member that is a boolean. -/
def boolMember (key : String) (b : Bool) (hkey : key ∈ eventKeys) : Member where
  key := key.toList
  text := (toString b).toList
  value := .bool b
  plain := plain_eventKeys key hkey
  reads := reads_bool b

section Fields

@[simp] theorem stringMember_entry {key : String} (text : List Char) (hkey : key ∈ eventKeys) :
    (stringMember key text hkey).entry = stringEntry key text := rfl

@[simp] theorem numberMember_entry {key : String} (n : Int) (zeros : Nat) (hkey : key ∈ eventKeys) :
    (numberMember key n zeros hkey).entry = numberEntry key n := rfl

@[simp] theorem boolMember_entry {key : String} (b : Bool) (hkey : key ∈ eventKeys) :
    (boolMember key b hkey).entry = boolEntry key b := rfl

@[simp] theorem stringEntry_fst (key : String) (text : List Char) : (stringEntry key text).1 = units key.toList := rfl

@[simp] theorem numberEntry_fst (key : String) (x : ℚ) : (numberEntry key x).1 = units key.toList := rfl

@[simp] theorem boolEntry_fst (key : String) (b : Bool) : (boolEntry key b).1 = units key.toList := rfl

variable {key : String} (hkey : key ∈ eventKeys)
include hkey

theorem stringField_eq (text : List Char) :
    stringField key (utf8 text) = utf8 (',' :: (stringMember key text hkey).chars) := by
  simp [stringField, escapeString_utf8, stringMember, Member.chars, ← utf8_append, String.toList_append]

theorem numberField_eq (n : Int) : numberField key n = utf8 (',' :: (numberMember key n 0 hkey).chars) := by
  simp [numberField, numberMember, Member.chars, ← utf8_append, String.toList_append]

theorem boolField_eq (b : Bool) : boolField key b = utf8 (',' :: (boolMember key b hkey).chars) := by
  simp [boolField, boolMember, Member.chars, ← utf8_append, String.toList_append]

omit hkey in
/-- A field that may be missing. -/
theorem optional_eq {α : Type} (o : Option α) (field : α → Bytes) (member : α → Member)
    (h : ∀ a, field a = utf8 (',' :: (member a).chars)) :
    o.elim [] field = utf8 ((o.toList.map member).flatMap fun m => ',' :: m.chars) := by
  cases o <;> simp [h]

end Fields

variable (e : QueryEvent) (lo hi : Option (List Char))

/-- The members after the id, for key bounds that are these texts. -/
def QueryEvent.members : List Member :=
  [stringMember "benchmark_name" e.benchmarkName.toList (by decide),
    stringMember "filter_type" e.filterType.toList (by decide),
    stringMember "query_type" e.queryType.toList (by decide),
    numberMember "latency_us" e.latencyUs 6 (by decide),
    numberMember "timestamp_us" e.timestampUs 0 (by decide)] ++
  (lo.toList.map fun text => stringMember "query_lo" text (by decide)) ++
  (hi.toList.map fun text => stringMember "query_hi" text (by decide)) ++
  [boolMember "actual_match" e.actualMatch (by decide)] ++
  (e.filterMayMatch.toList.map fun b => boolMember "filter_may_match" b (by decide)) ++
  (e.falsePositive.toList.map fun b => boolMember "false_positive" b (by decide)) ++
  e.sstables.toList.flatMap fun counters =>
    [numberMember "sstables_considered" counters.considered 0 (by decide),
      numberMember "sstables_pruned" counters.pruned 0 (by decide),
      numberMember "sstables_opened" counters.opened 0 (by decide)]

/-- The first member. -/
def QueryEvent.idMember : Member := numberMember "query_id" e.queryId.toNat 0 (by decide)

/-- The characters of the line. -/
def QueryEvent.lineChars : List Char := '{' :: (memberList e.idMember (e.members lo hi) ++ ['}'])

/-- The line is these characters. -/
theorem QueryEvent.line_eq (hlo : e.queryLo = lo.map utf8) (hhi : e.queryHi = hi.map utf8) :
    e.line = utf8 (e.lineChars lo hi) := by
  have hid : utf8 "\"query_id\":".toList ++ utf8 (decimal e.queryId.toNat) = utf8 e.idMember.chars := by
    simp [idMember, numberMember, Member.chars, ← utf8_append]
  have hlatency : numberField "latency_us" e.latencyUs ++ utf8 ".000000".toList =
      utf8 (',' :: (numberMember "latency_us" e.latencyUs 6 (by decide)).chars) := by
    simp [numberField, numberMember, Member.chars, ← utf8_append]
  have hqueryLo := optional_eq lo (stringField "query_lo" ∘ utf8)
    (fun text => stringMember "query_lo" text (by decide)) fun text => stringField_eq (by decide) text
  have hqueryHi := optional_eq hi (stringField "query_hi" ∘ utf8)
    (fun text => stringMember "query_hi" text (by decide)) fun text => stringField_eq (by decide) text
  have hmay := optional_eq e.filterMayMatch (boolField "filter_may_match")
    (fun b => boolMember "filter_may_match" b (by decide)) fun b => boolField_eq (by decide) b
  have hpositive := optional_eq e.falsePositive (boolField "false_positive")
    (fun b => boolMember "false_positive" b (by decide)) fun b => boolField_eq (by decide) b
  have hsstables : (e.sstables.elim [] fun counters =>
      numberField "sstables_considered" counters.considered ++ numberField "sstables_pruned" counters.pruned ++
        numberField "sstables_opened" counters.opened) =
      utf8 ((e.sstables.toList.flatMap fun counters =>
        [numberMember "sstables_considered" counters.considered 0 (by decide),
          numberMember "sstables_pruned" counters.pruned 0 (by decide),
          numberMember "sstables_opened" counters.opened 0 (by decide)]).flatMap fun m => ',' :: m.chars) := by
    cases e.sstables with
    | none => rfl
    | some counters =>
      simp only [Option.elim_some, Option.toList_some, List.flatMap_cons, List.flatMap_nil,
        numberField_eq (show "sstables_considered" ∈ eventKeys by decide),
        numberField_eq (show "sstables_pruned" ∈ eventKeys by decide),
        numberField_eq (show "sstables_opened" ∈ eventKeys by decide), utf8_append, List.append_nil, List.append_assoc]
  rw [line, hid, hlatency, hlo, hhi, Option.elim_map, Option.elim_map, hqueryLo, hqueryHi, hmay, hpositive, hsstables,
    stringField_eq (show "benchmark_name" ∈ eventKeys by decide), stringField_eq (show "filter_type" ∈ eventKeys by decide),
    stringField_eq (show "query_type" ∈ eventKeys by decide), numberField_eq (show "timestamp_us" ∈ eventKeys by decide),
    boolField_eq (show "actual_match" ∈ eventKeys by decide)]
  simp only [lineChars, members, memberList, List.flatMap_append, List.flatMap_cons, ← utf8_append,
    List.append_assoc, List.cons_append, List.nil_append]

/-- What the line stands for. -/
def QueryEvent.json : Value :=
  .object (
    [numberEntry "query_id" e.queryId.toNat,
      stringEntry "benchmark_name" e.benchmarkName.toList,
      stringEntry "filter_type" e.filterType.toList,
      stringEntry "query_type" e.queryType.toList,
      numberEntry "latency_us" e.latencyUs,
      numberEntry "timestamp_us" e.timestampUs] ++
    lo.toList.map (stringEntry "query_lo") ++
    hi.toList.map (stringEntry "query_hi") ++
    [boolEntry "actual_match" e.actualMatch] ++
    e.filterMayMatch.toList.map (boolEntry "filter_may_match") ++
    e.falsePositive.toList.map (boolEntry "false_positive") ++
    e.sstables.toList.flatMap fun counters =>
      [numberEntry "sstables_considered" counters.considered,
        numberEntry "sstables_pruned" counters.pruned,
        numberEntry "sstables_opened" counters.opened])

theorem QueryEvent.json_eq :
    e.json lo hi = .object ((e.idMember :: e.members lo hi).map Member.entry) := by
  simp only [json, members, idMember, List.map_cons, List.map_append, List.map_map, Function.comp_def,
    List.map_flatMap, List.map_nil, stringMember_entry, numberMember_entry, boolMember_entry, Int.cast_natCast,
    List.cons_append, List.nil_append]

/-- The keys of a line are some of the keys of an event, in their order. -/
theorem QueryEvent.keys_sublist :
    ((e.idMember :: e.members lo hi).map fun m => m.entry.1).Sublist (eventKeys.map fun key => units key.toList) := by
  have hopt {α : Type} (o : Option α) (key : List UInt16) : (o.toList.map fun _ => key).Sublist [key] := by
    cases o <;> simp
  have hsstables : (e.sstables.toList.flatMap fun _ =>
      [units "sstables_considered".toList, units "sstables_pruned".toList, units "sstables_opened".toList]).Sublist
      [units "sstables_considered".toList, units "sstables_pruned".toList, units "sstables_opened".toList] := by
    cases e.sstables <;> simp
  have hkeys : (e.idMember :: e.members lo hi).map (fun m => m.entry.1) =
      ["query_id", "benchmark_name", "filter_type", "query_type", "latency_us", "timestamp_us"].map
        (fun key => units key.toList) ++
      ((lo.toList.map fun _ => units "query_lo".toList) ++ ((hi.toList.map fun _ => units "query_hi".toList) ++
        ([units "actual_match".toList] ++ ((e.filterMayMatch.toList.map fun _ => units "filter_may_match".toList) ++
          ((e.falsePositive.toList.map fun _ => units "false_positive".toList) ++
            e.sstables.toList.flatMap fun _ =>
              [units "sstables_considered".toList, units "sstables_pruned".toList,
                units "sstables_opened".toList]))))) := by
    simp only [members, idMember, List.map_cons, List.map_append, List.map_map, Function.comp_def, List.map_flatMap,
      List.map_nil, stringMember_entry, numberMember_entry, boolMember_entry, stringEntry_fst, numberEntry_fst,
      boolEntry_fst, List.cons_append, List.nil_append, List.append_assoc]
  rw [hkeys]
  exact (List.Sublist.refl _).append ((hopt lo _).append ((hopt hi _).append ((List.Sublist.refl _).append
    ((hopt _ _).append ((hopt _ _).append hsstables)))))

/-- **`JSON.parse`** of the line. -/
theorem QueryEvent.parse_lineChars : parse (e.lineChars lo hi) = some (e.json lo hi) := by
  have hnodup := (e.keys_sublist lo hi).nodup nodup_eventKeys
  rw [json_eq, lineChars]
  refine parse_object e.idMember (e.members lo hi) ?_
  rwa [List.map_map]

section Get
variable {key : String}

/-- The keys are told apart in UTF-16. -/
theorem units_eventKey {key' : String} (hkey : key ∈ eventKeys) (hkey' : key' ∈ eventKeys) :
    units key.toList = units key'.toList ↔ key = key' := by
  refine ⟨fun h => ?_, fun h => h ▸ rfl⟩
  exact List.inj_on_of_nodup_map nodup_eventKeys hkey hkey' h

/-- A member under a key of an event. -/
theorem lookup_entry {key' : String} (hkey : key ∈ eventKeys) (hkey' : key' ∈ eventKeys) (v : Value)
    (rest : List (List UInt16 × Value)) :
    ((units key'.toList, v) :: rest).lookup (units key.toList) =
      if key = key' then some v else rest.lookup (units key.toList) := by
  rw [List.lookup_cons]
  by_cases h : key = key'
  · simp [h]
  · have hunits : (units key.toList == units key'.toList) = false :=
      beq_eq_false_iff_ne.2 fun heq => h ((units_eventKey hkey hkey').1 heq)
    rw [hunits, if_neg h]

/-- A member that may be missing. -/
theorem lookup_option {α : Type} {key' : String} (hkey : key ∈ eventKeys) (hkey' : key' ∈ eventKeys) (o : Option α)
    (v : α → Value) :
    (o.toList.map fun a => (units key'.toList, v a)).lookup (units key.toList) = if key = key' then o.map v else none := by
  cases o with
  | none => simp
  | some a => simp [lookup_entry hkey hkey']

/-- The members that stand with the counters. -/
theorem lookup_counters (hkey : key ∈ eventKeys) (o : Option MetricsCounters) :
    (o.toList.flatMap fun counters =>
      [numberEntry "sstables_considered" counters.considered, numberEntry "sstables_pruned" counters.pruned,
        numberEntry "sstables_opened" counters.opened]).lookup (units key.toList) =
      if key = "sstables_considered" then o.map fun counters => .number (Number.round counters.considered)
      else if key = "sstables_pruned" then o.map fun counters => .number (Number.round counters.pruned)
      else if key = "sstables_opened" then o.map fun counters => .number (Number.round counters.opened)
      else none := by
  cases o with
  | none => simp
  | some counters =>
    simp (disch := first | decide | exact hkey) only [Option.toList_some, List.flatMap_cons, List.flatMap_nil,
      List.append_nil, numberEntry, lookup_entry, List.lookup_nil, Option.map_some]

/-- **The members** of an event by their keys. -/
theorem QueryEvent.get_json (e : QueryEvent) (lo hi : Option (List Char)) (hkey : key ∈ eventKeys) :
    (e.json lo hi).get (units key.toList) =
      if key = "query_id" then some (.number (Number.round e.queryId.toNat))
      else if key = "benchmark_name" then some (.string (units e.benchmarkName.toList))
      else if key = "filter_type" then some (.string (units e.filterType.toList))
      else if key = "query_type" then some (.string (units e.queryType.toList))
      else if key = "latency_us" then some (.number (Number.round e.latencyUs))
      else if key = "timestamp_us" then some (.number (Number.round e.timestampUs))
      else if key = "query_lo" then lo.map fun text => .string (units text)
      else if key = "query_hi" then hi.map fun text => .string (units text)
      else if key = "actual_match" then some (.bool e.actualMatch)
      else if key = "filter_may_match" then e.filterMayMatch.map .bool
      else if key = "false_positive" then e.falsePositive.map .bool
      else if key = "sstables_considered" then e.sstables.map fun counters => .number (Number.round counters.considered)
      else if key = "sstables_pruned" then e.sstables.map fun counters => .number (Number.round counters.pruned)
      else e.sstables.map fun counters => .number (Number.round counters.opened) := by
  have hlo : (lo.toList.map (stringEntry "query_lo")).lookup (units key.toList) = _ :=
    lookup_option hkey (by decide) lo fun text => .string (units text)
  have hhi : (hi.toList.map (stringEntry "query_hi")).lookup (units key.toList) = _ :=
    lookup_option hkey (by decide) hi fun text => .string (units text)
  have hmay : (e.filterMayMatch.toList.map (boolEntry "filter_may_match")).lookup (units key.toList) = _ :=
    lookup_option hkey (by decide) e.filterMayMatch .bool
  have hpositive : (e.falsePositive.toList.map (boolEntry "false_positive")).lookup (units key.toList) = _ :=
    lookup_option hkey (by decide) e.falsePositive .bool
  simp only [json, Value.get, List.lookup_append, hlo, hhi, hmay, hpositive, lookup_counters hkey]
  have hentry {key' : String} (hkey' : key' ∈ eventKeys) := lookup_entry hkey hkey'
  simp only [stringEntry, numberEntry, boolEntry]
  iterate 7 rw [hentry (by decide)]
  -- the keys of an event, one by one
  simp only [eventKeys, List.mem_cons, List.not_mem_nil, or_false] at hkey
  rcases hkey with rfl | rfl | rfl | rfl | rfl | rfl | rfl | rfl | rfl | rfl | rfl | rfl | rfl | rfl <;> simp

end Get

end Line

/-! ## The file -/

/-- No control characters. -/
def Printable (text : List Char) : Prop := ∀ c ∈ text, 32 ≤ c.toNat

section Printable
variable {a b : List Char}

theorem Printable.append (ha : Printable a) (hb : Printable b) : Printable (a ++ b) := by
  intro c hc
  rcases List.mem_append.1 hc with h | h
  · exact ha c h
  · exact hb c h

theorem Printable.cons {c : Char} (hc : 32 ≤ c.toNat) (ha : Printable a) : Printable (c :: a) := by
  intro d hd
  rcases List.mem_cons.1 hd with rfl | h
  · exact hc
  · exact ha d h

theorem printable_escapeChar (c : Char) : Printable (escapeChar c) := by
  rw [escapeChar]
  cases h : escapeSequence c.toNat with
  | none =>
    intro d hd
    rw [Option.getD_none, List.mem_singleton] at hd
    exact hd ▸ (plain_of_escapeSequence h).2.2
  | some cs =>
    have hc : c.toNat < 32 ∨ c.toNat = 34 ∨ c.toNat = 92 := by
      by_contra hne
      rw [escapeSequence] at h
      repeat rw [if_neg (by omega)] at h
      cases h
    generalize c.toNat = n at h hc
    rw [Option.getD_some, Printable]
    rcases hc with hc | rfl | rfl
    · interval_cases n <;> obtain rfl := Option.some.inj h <;> simp [Nat.digitChar]
    · obtain rfl := Option.some.inj h
      simp
    · obtain rfl := Option.some.inj h
      simp

theorem printable_decimal (n : Int) : Printable (decimal n) := by
  have hdigits : Printable (Nat.toDigits 10 n.natAbs) := by
    intro c hc
    have hdigit := Nat.isDigit_of_mem_toDigits (by decide) (by decide) hc
    simp only [Char.isDigit, Bool.and_eq_true, decide_eq_true_eq, ge_iff_le, UInt32.le_iff_toNat_le] at hdigit
    exact (show 32 ≤ 48 by decide).trans hdigit.1
  rw [decimal]
  split
  · exact hdigits.cons (by decide)
  · exact hdigits

theorem printable_memberList {m : Member} {ms : List Member} (h : ∀ m' ∈ m :: ms, Printable m'.text) :
    Printable (memberList m ms) := by
  have hchars : ∀ m' ∈ m :: ms, Printable m'.chars := by
    intro m' hm'
    have hkey : Printable m'.key := fun c hc => (m'.plain c hc).2.2
    exact (hkey.append (((h m' hm').cons (by decide)).cons (by decide))).cons (by decide)
  refine (hchars m (List.mem_cons_self ..)).append fun c hc => ?_
  obtain ⟨m', hm', hc⟩ := List.mem_flatMap.1 hc
  exact (hchars m' (List.mem_cons_of_mem m hm')).cons (by decide) c hc

theorem printable_stringMember {key : String} (text : List Char) (hkey : key ∈ eventKeys) :
    Printable (stringMember key text hkey).text := by
  have htext : Printable (text.flatMap escapeChar) := by
    intro c hc
    obtain ⟨d, -, hc⟩ := List.mem_flatMap.1 hc
    exact printable_escapeChar d c hc
  exact (htext.cons (by decide)).append (by simp [Printable])

theorem printable_numberMember {key : String} (n : Int) (zeros : Nat) (hkey : key ∈ eventKeys) :
    Printable (numberMember key n zeros hkey).text := by
  refine (printable_decimal n).append ?_
  split
  · exact fun c hc => absurd hc List.not_mem_nil
  · refine Printable.cons (by decide) fun c hc => ?_
    rw [List.eq_of_mem_replicate hc]
    decide

theorem printable_boolMember {key : String} (b : Bool) (hkey : key ∈ eventKeys) :
    Printable (boolMember key b hkey).text := by
  cases b
  · simp [boolMember, Printable, show (toString false).toList = ['f', 'a', 'l', 's', 'e'] from rfl]
  · simp [boolMember, Printable, show (toString true).toList = ['t', 'r', 'u', 'e'] from rfl]

/-- A line has no control characters. -/
theorem QueryEvent.printable_lineChars (e : QueryEvent) (lo hi : Option (List Char)) :
    Printable (e.lineChars lo hi) := by
  refine ((printable_memberList ?_).append (by simp [Printable])).cons (by decide)
  intro m hm
  simp only [members, idMember, List.mem_cons, List.mem_append, List.mem_map, List.mem_flatMap, List.not_mem_nil,
    or_false] at hm
  rcases hm with rfl | ((((((rfl | rfl | rfl | rfl | rfl) | ⟨text, -, rfl⟩) | ⟨text, -, rfl⟩) | rfl) | ⟨b, -, rfl⟩) |
    ⟨b, -, rfl⟩) | ⟨counters, -, rfl | rfl | rfl⟩
  all_goals
    first
      | exact printable_stringMember _ _
      | exact printable_numberMember _ _ _
      | exact printable_boolMember _ _

/-- No newline. -/
theorem Printable.not_newline (h : Printable a) : '\n' ∉ a := fun hmem => absurd (h _ hmem) (by decide)

/-- `WriteLine` writes all of such a line. -/
theorem Printable.writeLine (h : Printable a) (file : Bytes) :
    writeLine file (utf8 a) = file ++ utf8 (a ++ ['\n']) := by
  have hbytes : ∀ b ∈ utf8 a, decide (b ≠ 0) = true := by
    intro b hb
    obtain ⟨c, hc, hb⟩ := List.mem_flatMap.1 hb
    have hge : 32 ≤ c.toNat := h c hc
    rw [decide_eq_true_eq]
    rintro rfl
    by_cases hsmall : c.toNat < 128
    · rw [utf8EncodeChar_of_lt hsmall, List.mem_singleton] at hb
      have hzero := congrArg UInt8.toNat hb
      rw [UInt8.toNat_ofNat', Nat.mod_eq_of_lt (by omega)] at hzero
      have : (0 : UInt8).toNat = 0 := rfl
      omega
    · exact absurd (le_of_mem_utf8EncodeChar (not_lt.1 hsmall) 0 hb) (by decide)
  rw [LevelDbSurf.writeLine, List.takeWhile_eq_self_iff.2 hbytes, utf8_append, List.append_assoc]

end Printable

/-- A line of the file: an object, without control characters. -/
structure OneLine (line : List Char) : Prop where
  object : ∃ body, line = '{' :: (body ++ ['}'])
  printable : Printable line

theorem QueryEvent.oneLine_lineChars (e : QueryEvent) (lo hi : Option (List Char)) : OneLine (e.lineChars lo hi) :=
  ⟨⟨_, rfl⟩, e.printable_lineChars lo hi⟩

section File
variable {lines : List (List Char)}

/-- Lines with an end each are lines with an end between, and one more. -/
theorem flatMap_newline (line : List Char) (lines : List (List Char)) :
    ((line :: lines).flatMap fun l => l ++ ['\n']) = ['\n'].intercalate (line :: lines) ++ ['\n'] := by
  induction lines generalizing line with
  | nil => simp
  | cons line' lines ih =>
    rw [List.flatMap_cons, ih line', List.intercalate_cons_cons]
    simp

theorem intercalate_ends {line : List Char} (h : ∀ l ∈ line :: lines, OneLine l) :
    ∃ body, ['\n'].intercalate (line :: lines) = '{' :: (body ++ ['}']) := by
  induction lines generalizing line with
  | nil =>
    obtain ⟨body, rfl⟩ := (h line (List.mem_cons_self ..)).object
    exact ⟨body, by simp⟩
  | cons line' lines ih =>
    obtain ⟨body, hbody⟩ := ih fun l hl => h l (List.mem_cons_of_mem line hl)
    obtain ⟨first, rfl⟩ := (h line (List.mem_cons_self ..)).object
    exact ⟨first ++ '}' :: '\n' :: '{' :: body, by rw [List.intercalate_cons_cons, hbody]; simp⟩

/-- Trimming takes the last newline. -/
theorem trim_lines {line : List Char} (h : ∀ l ∈ line :: lines, OneLine l) :
    trim ((line :: lines).flatMap fun l => l ++ ['\n']) = ['\n'].intercalate (line :: lines) := by
  obtain ⟨body, hbody⟩ := intercalate_ends h
  rw [flatMap_newline, hbody, trim, List.cons_append, List.dropWhile_cons_of_neg (by decide), ← List.cons_append,
    List.rdropWhile_concat_pos _ _ _ (by decide), ← List.cons_append, List.rdropWhile_concat_neg _ _ _ (by decide)]

/-- **The lines** of the file, again. -/
theorem split_trim_lines (h : ∀ l ∈ lines, OneLine l) :
    ((trim (lines.flatMap fun l => l ++ ['\n'])).splitOn '\n').filter (fun line => line.length > 0) = lines := by
  cases lines with
  | nil => rfl
  | cons line lines =>
    rw [trim_lines h, List.splitOn_intercalate _ (fun l hl => (h l hl).printable.not_newline) (List.cons_ne_nil _ _),
      List.filter_eq_self]
    intro l hl
    obtain ⟨body, rfl⟩ := (h l hl).object
    simp

/-- Lines that stand for values are counted and read. -/
theorem foldl_addLine {α : Type} (chars : α → List Char) (val : α → Value) (xs : List α)
    (h : ∀ x ∈ xs, parse (chars x) = some (val x)) (p : ParsedFile) :
    (xs.map chars).foldl ParsedFile.addLine p =
      { p with events := p.events ++ xs.map val, totalLines := p.totalLines + xs.length } := by
  induction xs generalizing p with
  | nil => simp
  | cons x xs ih =>
    have hx := h x (List.mem_cons_self ..)
    rw [List.map_cons, List.foldl_cons, ih fun y hy => h y (List.mem_cons_of_mem x hy)]
    simp only [ParsedFile.addLine, hx, List.map_cons, List.length_cons, List.append_assoc, List.singleton_append,
      ParsedFile.mk.injEq, true_and, and_true]
    omega

/-- **`parseJsonlFile`** on a file of such lines, if it is not too long. -/
theorem parseJsonlFile_lines {α : Type} {engine : Engine} (chars : α → List Char) (val : α → Value)
    (xs : List α) (hline : ∀ x ∈ xs, OneLine (chars x)) (hparse : ∀ x ∈ xs, parse (chars x) = some (val x))
    (hfits : (utf8 (xs.flatMap fun x => chars x ++ ['\n'])).length ≤ engine.maxFileLength) :
    parseJsonlFile engine (.content (utf8 (xs.flatMap fun x => chars x ++ ['\n']))) =
      { events := xs.map val, totalLines := xs.length, malformedLines := 0 } := by
  have hread : engine.readFileSync (utf8 (xs.flatMap fun x => chars x ++ ['\n'])) =
      some (xs.flatMap fun x => chars x ++ ['\n']) := by
    rw [Engine.readFileSync, if_pos hfits, readText_utf8]
  have hlines : (xs.flatMap fun x => chars x ++ ['\n']) = (xs.map chars).flatMap fun l => l ++ ['\n'] := by
    rw [List.flatMap_map]
  have hone : ∀ l ∈ xs.map chars, OneLine l := by
    intro l hl
    obtain ⟨x, hx, rfl⟩ := List.mem_map.1 hl
    exact hline x hx
  rw [parseJsonlFile, hread]
  simp only [hlines, split_trim_lines hone, foldl_addLine chars val xs hparse]
  simp

end File

end LevelDbSurf
