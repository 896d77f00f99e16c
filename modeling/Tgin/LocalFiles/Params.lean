import Mathlib.Data.List.Forall2
import Tgin.LocalFiles.Scanner
import Tgin.LocalFiles.WellFormed

/-! The parameters of a request body as the gateway reads them itself (`gateway/params.rs`): a value that refers to a local
    file is one that the scan of the same body finds.

    Texts are the bytes of their UTF-8. -/

namespace Tgin.LocalFiles

/-- The bytes, where they are UTF-8. -/
def fromUtf8 (bytes : Bytes) : Option Bytes := if bytes.toByteArray.IsValidUTF8 then some bytes else none

/-- What the parameters are read with: percent-decoding (`percent_encoding`), and a JSON text's reader (`serde_json`). -/
structure Readers where
  percentDecode : Bytes → Bytes
  /-- The keys and the values, as written, of the object that a text is, in order. -/
  members : Bytes → Option (List (Bytes × Bytes))
  /-- What a string literal stands for. -/
  string : Bytes → Option Bytes

namespace Readers

/-- What the readers are documented to do. -/
structure Documented (r : Readers) : Prop where
  percent_nil : r.percentDecode [] = []
  percent_escape : ∀ rest c, percentEscape rest = some c → r.percentDecode (percentSign :: rest) = c :: r.percentDecode (rest.drop 2)
  /-- A `%` without two hexadecimal digits stands for itself. -/
  percent_other : ∀ b rest, b ≠ percentSign ∨ percentEscape rest = none → r.percentDecode (b :: rest) = b :: r.percentDecode rest
  members : ∀ text entries, r.members text = some entries → entries ≠ [] →
    ∃ members, JsonText.IsObject text members ∧
      List.Forall₂ (fun (m : JsonText.Member) entry => JsonText.Stands m.key.value entry.1 ∧ m.value.value = entry.2) members entries
  string : ∀ inner text, JsonText.Chars inner → r.string (JsonText.quoted inner) = some text → JsonText.Stands inner text

end Readers

/-- The encoding a `Content-Type` names, if it is one the Bot API reads. -/
def encoding (contentType : Bytes) : Option Encoding :=
  ([(ascii "multipart/form-data", .multipart), (ascii "application/x-www-form-urlencoded", .form),
      (ascii "application/json", .json)].find? fun (name, _) =>
    (windows name.length contentType).any (eqIgnoreAsciiCase · name)).map (·.2)

/-- The most bytes of a multipart text field that are read. -/
abbrev MULTIPART_FIELD_LIMIT : Nat := 64 * 1024

/-- Whether the part's field name, decoded, is `name`. -/
def Part.named (part : Part) (name : Bytes) : Bool := part.name.decoded = name

section
variable (r : Readers)

/-- `+` as a space, then percent-decoded; `none` unless UTF-8. -/
def formDecode (encoded : Bytes) : Option Bytes :=
  if plus ∉ encoded then fromUtf8 (r.percentDecode encoded) else fromUtf8 (r.percentDecode (spaced encoded))

/-- The value of the first pair named `name`, still encoded. -/
def formValue (body name : Bytes) : Option Bytes :=
  ((body.splitOn ampersand).filter (· ≠ [])).findSome? fun pair =>
    if formDecode r (pair.takeWhile (· ≠ equals)) = some name then some ((pairValue pair).getD []) else none

/-- The value of the first pair named `name` of an urlencoded body: pairs split on `&`, name and value on the first `=`. -/
def formParam (body name : Bytes) : Option Bytes := do formDecode r (← formValue r body name)

/-- The value of an object's first member named `name`, unparsed: it must be UTF-8. -/
def findMember (name : Bytes) : List (Bytes × Bytes) → Option Bytes → Option (Option Bytes)
  | [], found => some found
  | (key, value) :: members, found =>
    if key = name ∧ found = none then do findMember name members (some (← fromUtf8 value)) else findMember name members found

/-- The top-level member `name` of a JSON object, as text. -/
def jsonParam (body name : Bytes) : Option Bytes := do
  let value ← (← findMember name (← r.members body) none)
  let first ← value.head?
  if first = quote then r.string value
  -- A number, `true` or `false`.
  else if first = dash || (48 ≤ first && first ≤ 57) || first = 116 || first = 102 then some value
  else none

/-- The first parameter `name` of a multipart body: a text field, or a parameter of a part typed urlencoded. -/
def multipartParam (contentType body name : Bytes) : Option Bytes := do
  let delimiter ← boundary contentType
  let value ← (← parts delimiter body).findSome? fun part =>
    match part.kind with
    | .file => none
    | .text =>
      if part.named name then some (if part.value.length ≤ MULTIPART_FIELD_LIMIT then fromUtf8 part.value else none) else none
    | .form => (formValue r part.value name).map (formDecode r)
  value

/-- The top-level parameter `name` of `body`, as text. The first occurrence wins. `none` when the body has no such parameter
    or cannot be read. -/
def textParam (contentType : Option Bytes) (body name : Bytes) : Option Bytes := do
  let contentType ← contentType
  match ← encoding contentType with
  | .multipart => multipartParam r contentType body name
  | .json => jsonParam r body name
  | .form => formParam r body name

end

/-- The verdict on a whole body of type `contentType`, read as the server reads it; a body of any other type has no
    parameters. -/
def bodyVerdict (contentType : Option Bytes) (body : Bytes) : Option Verdict :=
  let verdict (found : Bool) : Verdict := if found then .refused .localFile else .clean
  match contentType with
  | none => some .clean
  | some contentType =>
    match encoding contentType with
    | none => some .clean
    | some .json => (jsonHasLocalFile body).map verdict
    | some .form => some (verdict (formHasLocalFile body))
    | some .multipart =>
      match boundary contentType with
      | none => some (.refused .unreadable)
      | some boundary => some ((MultipartScan.new boundary).feed body).finish

/-! ### Forms -/

theorem fromUtf8_eq {bytes text : Bytes} (h : fromUtf8 bytes = some text) : bytes = text := by
  unfold fromUtf8 at h
  split at h
  · exact Option.some.inj h
  · cases h

theorem refers_of_prefix {text : Bytes} (h : LOCAL_PREFIX <+: text) (levels : Nat) : refers levels text = true := by
  have begins : LOCAL_PREFIX.isPrefixOf text = true := List.isPrefixOf_iff_prefix.mpr h
  cases levels with
  | zero => rw [refers, begins, Bool.true_or]
  | succ levels => rw [refers, begins, Bool.true_or]

theorem not_prefix_nil : ¬LOCAL_PREFIX <+: [] := by decide

theorem spaced_of_not_mem {text : Bytes} (h : plus ∉ text) : spaced text = text := by
  refine (List.map_congr_left fun b hb => ?_).trans (List.map_id _)
  have notPlus : b ≠ plus := fun isPlus => h (isPlus ▸ hb)
  exact if_neg notPlus

section
variable {r : Readers} (documented : r.Documented)
include documented

theorem readers_percentDecode (text : Bytes) : r.percentDecode text = percentDecode text := by
  induction text using percentDecode.induct with
  | case1 => rw [documented.percent_nil, percentDecode]
  | case2 rest c escape ih => rw [documented.percent_escape _ _ escape, percentDecode_escape escape, ih]
  | case3 rest escape ih => rw [documented.percent_other _ _ (.inr escape), percentDecode_none escape, ih]
  | case4 b rest other ih => rw [documented.percent_other _ _ (.inl other), percentDecode_cons other, ih]

theorem formDecode_eq {encoded text : Bytes} (h : formDecode r encoded = some text) : text = urlDecode encoded := by
  unfold formDecode at h
  rw [urlDecode, ← readers_percentDecode documented]
  split at h
  · rename_i plain
    rw [spaced_of_not_mem plain]
    exact (fromUtf8_eq h).symm
  · exact (fromUtf8_eq h).symm

/-- A value that is read is one of those the form has. -/
theorem formValue_refers {body name encoded text : Bytes} (value : formValue r body name = some encoded)
    (decoded : formDecode r encoded = some text) (h : LOCAL_PREFIX <+: text) : (formValues body).any (refers 3) = true := by
  obtain ⟨pair, mem, found⟩ := List.exists_of_findSome?_eq_some value
  split at found
  · have isValue := Option.some.inj found
    have text_eq := formDecode_eq documented decoded
    cases paired : pairValue pair with
    | none =>
      rw [paired, Option.getD_none] at isValue
      rw [text_eq, ← isValue, urlDecode_nil] at h
      exact absurd h not_prefix_nil
    | some raw =>
      rw [paired, Option.getD_some] at isValue
      subst isValue
      refine List.any_eq_true.mpr ⟨urlDecode raw, ?_, refers_of_prefix (text_eq ▸ h) 3⟩
      exact List.mem_filterMap.mpr ⟨pair, (List.mem_filter.mp mem).1, by rw [paired]; rfl⟩
  · cases found

end

/-! ### Multipart bodies -/

theorem multipartParam_refused {r : Readers} (documented : r.Documented) {contentType body name text : Bytes}
    (value : multipartParam r contentType body name = some text) (h : LOCAL_PREFIX <+: text) :
    ∃ delimiter, boundary contentType = some delimiter ∧ ((MultipartScan.new delimiter).feed body).finish ≠ .clean := by
  obtain ⟨delimiter, hb, value⟩ := Option.bind_eq_some_iff.mp value
  obtain ⟨ps, hps, value⟩ := Option.bind_eq_some_iff.mp value
  obtain ⟨found, hfound, rfl⟩ := Option.bind_eq_some_iff.mp value
  obtain ⟨part, mem, found⟩ := List.exists_of_findSome?_eq_some hfound
  refine ⟨delimiter, hb, fun clean => ?_⟩
  obtain ⟨ps', hps', harmless, -⟩ := (scan_clean_iff delimiter body).mp clean
  obtain rfl := Option.some.inj (hps.symm.trans hps')
  suffices carries part.kind part.value = true by
    rw [harmless part mem] at this
    cases this
  cases kind : part.kind with
  | file =>
    rw [kind] at found
    cases found
  | text =>
    simp only [kind] at found
    split at found
    · split at found
      · rw [carries, fromUtf8_eq (Option.some.inj found)]
        exact refers_of_prefix h 3
      · cases found
    · cases found
  | form =>
    simp only [kind] at found
    obtain ⟨encoded, isValue, decoded⟩ := Option.map_eq_some_iff.mp found
    rw [carries, formValue_refers documented isValue decoded h, Bool.or_true]

/-! ### JSON texts -/

/-- What is found is the value of a member. -/
theorem findMember_mem {name : Bytes} {entries : List (Bytes × Bytes)} {found : Option Bytes} {value : Bytes}
    (h : findMember name entries found = some (some value)) : found = some value ∨ ∃ entry ∈ entries, entry.2 = value := by
  induction entries generalizing found with
  | nil => exact .inl (Option.some.inj h)
  | cons entry entries ih =>
    rw [findMember] at h
    split at h
    · obtain ⟨text, utf8, h⟩ := Option.bind_eq_some_iff.mp h
      rcases ih h with first | ⟨other, mem, eq⟩
      · exact .inr ⟨entry, List.mem_cons_self, (fromUtf8_eq utf8).trans (Option.some.inj first)⟩
      · exact .inr ⟨other, List.mem_cons_of_mem _ mem, eq⟩
    · rcases ih h with before | ⟨other, mem, eq⟩
      · exact .inl before
      · exact .inr ⟨other, List.mem_cons_of_mem _ mem, eq⟩

theorem jsonParam_refers {r : Readers} (documented : r.Documented) {body name text : Bytes} (param : jsonParam r body name = some text)
    (h : LOCAL_PREFIX <+: text) : (literals body).any (refers 2) = true := by
  obtain ⟨entries, read, param⟩ := Option.bind_eq_some_iff.mp param
  obtain ⟨_, found, param⟩ := Option.bind_eq_some_iff.mp param
  obtain ⟨value, rfl, asText⟩ := Option.bind_eq_some_iff.mp param
  obtain ⟨first, begins, text_eq⟩ := Option.bind_eq_some_iff.mp asText
  obtain ⟨tail, rfl⟩ := List.head?_eq_some_iff.mp begins
  obtain ⟨entry, mem, isValue⟩ := (findMember_mem found).resolve_left nofun
  obtain ⟨members, object, alike⟩ := documented.members body entries read (List.ne_nil_of_mem mem)
  obtain ⟨i, hi, rfl⟩ := List.getElem_of_mem mem
  obtain ⟨-, same⟩ := alike.get (alike.length_eq.symm ▸ hi) hi
  have hm := List.get_mem members ⟨i, alike.length_eq.symm ▸ hi⟩
  have value_eq := same.trans isValue
  have grammar := value_eq ▸ object.values _ hm
  split at text_eq
  · rename_i isQuote
    subst isQuote
    obtain ⟨inner, chars, eq⟩ := grammar.string_of_quote
    rw [eq] at text_eq
    have begun := literal_begins (documented.string inner text chars text_eq) (List.all_iff_forall_prop.mp (by decide)) h
    exact List.any_eq_true.mpr ⟨_, mem_literals object hm chars (value_eq.trans eq), refers_of_prefix begun 2⟩
  · split at text_eq
    · -- A value that begins with `f` is `false`.
      obtain rfl := Option.some.inj text_eq
      obtain ⟨rfl, others⟩ := List.cons_prefix_cons.mp h
      rw [grammar.false_of_f] at others
      exact absurd others (by decide)
    · cases text_eq

/-- Where the gateway's own reader finds a value that refers to a local file, whatever the type of the body, the scan refuses
    the body. -/
theorem textParam_refused (r : Readers) (documented : r.Documented) (contentType : Option Bytes) (body name text : Bytes)
    (param : textParam r contentType body name = some text) (h : LOCAL_PREFIX <+: text) :
    ∃ refusal, bodyVerdict contentType body = some (.refused refusal) := by
  obtain ⟨type, rfl, param⟩ := Option.bind_eq_some_iff.mp param
  obtain ⟨kind, named, param⟩ := Option.bind_eq_some_iff.mp param
  rw [bodyVerdict, named]
  cases kind with
  | multipart =>
    obtain ⟨delimiter, hb, refused⟩ := multipartParam_refused documented param h
    rw [hb]
    cases verdict : ((MultipartScan.new delimiter).feed body).finish with
    | clean => exact absurd verdict refused
    | refused refusal => exact ⟨refusal, congrArg some verdict⟩
  | json =>
    refine ⟨.localFile, ?_⟩
    simp only [jsonHasLocalFile_eq, jsonParam_refers documented param h]
    rfl
  | form =>
    obtain ⟨encoded, value, decoded⟩ := Option.bind_eq_some_iff.mp param
    refine ⟨.localFile, ?_⟩
    simp only [formHasLocalFile_eq, formValue_refers documented value decoded h]
    rfl

/-! ### A reference in a JSON body -/

def reference : JsonText.Member where
  key := { before := [], value := ascii "photo", after := [] }
  value := { before := [], value := JsonText.quoted (ascii "file:/x"), after := [] }

/-- Readers of one body. -/
def readers : Readers where
  percentDecode := percentDecode
  members text := if text = JsonText.object [reference] then some [(ascii "photo", reference.value.value)] else none
  string literal := if literal = reference.value.value then some (ascii "file:/x") else none

theorem stands_plain {text : Bytes} (h : ∀ b ∈ text, b ≠ quote ∧ b ≠ backslash) : JsonText.Stands text text := by
  induction text with
  | nil => exact .nil
  | cons b text ih =>
    obtain ⟨noQuote, noEscape⟩ := h b List.mem_cons_self
    exact .plain noQuote noEscape (ih fun c hc => h c (List.mem_cons_of_mem _ hc))

theorem readers_documented : readers.Documented where
  percent_nil := by
    change percentDecode [] = []
    rw [percentDecode]
  percent_escape _ _ escape := percentDecode_escape escape
  percent_other := by
    intro b rest h
    by_cases percent : b = percentSign
    · subst percent
      exact percentDecode_none (h.resolve_left fun ne => ne rfl)
    · exact percentDecode_cons percent rest
  members := by
    intro text entries h _
    simp only [readers] at h
    split at h
    · rename_i eq
      subst eq
      obtain rfl := Option.some.inj h
      have chars : JsonText.Chars (ascii "photo") := JsonText.Chars.of_plain (List.all_iff_forall_prop.mp (by decide))
      refine ⟨[reference], ⟨⟨[], [], rfl, List.forall_mem_nil _, List.forall_mem_nil _⟩, ?_, ?_⟩, .cons ⟨stands_plain (List.all_iff_forall_prop.mp (by decide)), rfl⟩ .nil⟩
      · exact List.forall_mem_singleton.mpr ⟨⟨⟨List.forall_mem_nil _, List.forall_mem_nil _⟩, chars⟩, List.forall_mem_nil _, List.forall_mem_nil _⟩
      · exact List.forall_mem_singleton.mpr (.string (JsonText.Chars.of_plain (List.all_iff_forall_prop.mp (by decide))))
    · cases h
  string := by
    intro inner text _ h
    simp only [readers] at h
    split at h
    · rename_i eq
      obtain rfl := List.append_cancel_right (List.cons.inj eq).2
      obtain rfl := Option.some.inj h
      exact stands_plain (List.all_iff_forall_prop.mp (by decide))
    · cases h

theorem textParam_refused_reference :
    textParam readers (some (ascii "application/json")) (JsonText.object [reference]) (ascii "photo") = some (ascii "file:/x") ∧
      ∃ refusal, bodyVerdict (some (ascii "application/json")) (JsonText.object [reference]) = some (.refused refusal) := by
  have param : textParam readers (some (ascii "application/json")) (JsonText.object [reference]) (ascii "photo") =
      some (ascii "file:/x") := by
    have utf8 : fromUtf8 reference.value.value = some reference.value.value := if_pos ⟨"\"file:/x\"".toList, by decide⟩
    have found : findMember (ascii "photo") [(ascii "photo", reference.value.value)] none = some (some reference.value.value) := by
      rw [findMember, if_pos ⟨rfl, rfl⟩, utf8]
      rfl
    have json : encoding (ascii "application/json") = some .json := by decide
    have members : readers.members (JsonText.object [reference]) = some [(ascii "photo", reference.value.value)] := by
      simp only [readers, if_true]
    have string : readers.string reference.value.value = some (ascii "file:/x") := by simp only [readers, if_true]
    have first : reference.value.value.head? = some quote := rfl
    have value : jsonParam readers (JsonText.object [reference]) (ascii "photo") = some (ascii "file:/x") := by
      simp only [jsonParam, members, found, first, string, Option.bind_eq_bind, Option.bind_some, if_true]
    simp only [textParam, json, value, Option.bind_eq_bind, Option.bind_some]
  exact ⟨param, textParam_refused readers readers_documented _ _ _ _ param (by decide)⟩

end Tgin.LocalFiles
