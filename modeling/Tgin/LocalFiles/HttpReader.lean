import Tgin.LocalFiles.Delimiter
import Tgin.LocalFiles.Form

/-! The multipart grammar of `gateway/local_files/http_reader.rs`: the scan that is fed the body in pieces, and the parts of
    a whole body. -/

namespace Tgin.LocalFiles

/-- The part header blocks of a multipart body, together. -/
abbrev MAX_PART_HEADERS : Nat := 2 ^ 18

/-- The server's bound on its text parameters: the longest JSON or urlencoded body read to scan, and the most multipart
    text scanned. -/
abbrev MAX_PARAMETERS : Nat := 2 ^ 20

/-- `-`. -/
abbrev dash : UInt8 := 45

/-- `;`. -/
abbrev semicolon : UInt8 := 59

/-- `:`. -/
abbrev colonSign : UInt8 := 58

abbrev CR : UInt8 := 13

abbrev LF : UInt8 := 10

/-! ### Slices -/

/-- The text of a byte string literal. -/
def ascii (text : String) : Bytes := text.toList.map fun c => UInt8.ofNat c.toNat

def toAsciiLower (b : UInt8) : UInt8 := if 65 ≤ b && b ≤ 90 then b + 32 else b

def eqIgnoreAsciiCase (a b : Bytes) : Bool := a.map toAsciiLower == b.map toAsciiLower

/-- The slices of `n` bytes, from the left, where `n` is not `0`. -/
def windows (n : Nat) : Bytes → List Bytes
  | [] => []
  | b :: rest => if (b :: rest).length < n then [] else (b :: rest).take n :: windows n rest

/-- Where `pattern` first occurs in `bytes`. -/
def find (bytes pattern : Bytes) : Option Nat := (windows pattern.length bytes).findIdx? (· == pattern)

def trimStart (bytes : Bytes) : Bytes := bytes.dropWhile isSpace

def trim (bytes : Bytes) : Bytes := ((trimStart bytes).reverse.dropWhile isSpace).reverse

/-- `["`, the rest, `"]`, without the quotes. -/
def unquoted (bytes : Bytes) : Bytes :=
  if 2 ≤ bytes.length ∧ bytes.head? = some quote ∧ bytes.getLast? = some quote then bytes.tail.dropLast else bytes

/-- The boundary of a multipart `Content-Type` as the server takes it: the whole value trimmed, then after the first
    `boundary` in any case, the `=` after it, up to a `;`, one pair of quotes around it dropped. -/
def boundary (contentType : Bytes) : Option Bytes := do
  let contentType := trim contentType
  let after := (← (windows 8 contentType).findIdx? (eqIgnoreAsciiCase · (ascii "boundary"))) + 8
  let start := after + (← (contentType.drop after).findIdx? (· = equals)) + 1
  let stop := ((contentType.drop start).findIdx? (· = semicolon)).elim contentType.length (start + ·)
  let boundary := unquoted ((contentType.take stop).drop start)
  if boundary ≠ [] ∧ boundary.length ≤ MAX_BOUNDARY_LEN then some boundary else none

/-! ### Part headers -/

/-- How the server reads a part. -/
inductive Kind where
  /-- A parameter. -/
  | text
  /-- A parameter typed `application/x-www-form-urlencoded`: parameters. -/
  | form
  /-- A file: never read as a parameter. -/
  | file
  deriving DecidableEq, Repr

/-- A `Content-Disposition` `name` as written: quoted (`\` escaping the next byte) or not. -/
structure Name where
  raw : Bytes
  quoted : Bool
  deriving DecidableEq, Repr

namespace Name

/-- A quoted text without its escapes. -/
def unescaped : Bytes → Bytes
  | [] => []
  | [b] => if b = backslash then [] else [b]
  | b :: c :: rest => if b = backslash then c :: unescaped rest else b :: unescaped (c :: rest)

/-- Percent-decoded (`+` kept) by the server. -/
def decoded (name : Name) : Bytes := percentDecode (if name.quoted then unescaped name.raw else name.raw)

end Name

/-- Where a quoted text ends, from after its opening quote on: after its closing quote. -/
def quotedEnd : Bytes → Nat → Option Nat
  | [], _ => none
  | [c], i => if c = quote then some (i + 1) else none
  | c :: d :: rest, i =>
    if c = quote then some (i + 1)
    else if c = backslash then quotedEnd rest (i + 2)
    else quotedEnd (d :: rest) (i + 1)

/-- A quoted value of a `Content-Disposition` and what comes after it. -/
def quotedValue (rest : Bytes) : Option (Name × Bytes) := do
  let i ← quotedEnd rest.tail 1
  let raw : Name := { raw := (rest.take (i - 1)).drop 1, quoted := true }
  match trimStart (rest.drop i) with
  | [] => some (raw, [])
  | first :: after => if first ≠ semicolon then none else some (raw, after)

/-- A value of a `Content-Disposition` up to a `;` and what comes after it. -/
def plainValue (rest : Bytes) : Name × Bytes :=
  match rest.findIdx? (· = semicolon) with
  | none => ({ raw := trim rest, quoted := false }, [])
  | some i => ({ raw := trim (rest.take i), quoted := false }, rest.drop (i + 1))

theorem trimStart_length (bytes : Bytes) : (trimStart bytes).length ≤ bytes.length := (List.dropWhile_suffix _).length_le

theorem trim_length (bytes : Bytes) : (trim bytes).length ≤ bytes.length := by
  rw [trim, List.length_reverse]
  exact Nat.le_trans (List.dropWhile_suffix _).length_le (by rw [List.length_reverse]; exact trimStart_length bytes)

theorem quotedValue_length {rest after : Bytes} {raw : Name} (h : quotedValue rest = some (raw, after)) :
    after.length ≤ rest.length := by
  unfold quotedValue at h
  obtain ⟨i, -, h⟩ := Option.bind_eq_some_iff.mp h
  have len : (trimStart (rest.drop i)).length ≤ rest.length :=
    Nat.le_trans (trimStart_length _) (by rw [List.length_drop]; exact Nat.sub_le ..)
  revert h len
  dsimp only
  cases trimStart (rest.drop i) with
  | nil =>
    rintro ⟨⟩ -
    exact Nat.zero_le _
  | cons first after' =>
    intro h len
    dsimp only at h
    split at h <;> cases h
    exact Nat.le_of_succ_le len

theorem plainValue_length (rest : Bytes) : (plainValue rest).2.length ≤ rest.length := by
  unfold plainValue
  split
  · exact Nat.zero_le _
  · rw [List.length_drop]
    exact Nat.sub_le ..

/-- A value of a `Content-Disposition` and what comes after it. -/
def dispositionValue (value : Bytes) : Option (Name × Bytes) :=
  if value.head? = some quote then quotedValue value else some (plainValue value)

/-- The next pair of a `Content-Disposition`, where there is one: its key, its value and what comes after it. -/
def dispositionPair (rest : Bytes) : Option (Option (Bytes × Name × Bytes)) :=
  match rest.findIdx? (· = equals) with
  | none => some none
  | some i => do
    let (raw, after) ← dispositionValue (trimStart (rest.drop (i + 1)))
    some (some (trim (rest.take i), raw, after))

theorem dispositionValue_length {value after : Bytes} {raw : Name} (h : dispositionValue value = some (raw, after)) :
    after.length ≤ value.length := by
  unfold dispositionValue at h
  split at h
  · exact quotedValue_length h
  · have := plainValue_length value
    rwa [Option.some.inj h] at this

theorem dispositionPair_length {rest key after : Bytes} {raw : Name} (h : dispositionPair rest = some (some (key, raw, after))) :
    after.length < rest.length := by
  unfold dispositionPair at h
  split at h
  · cases h
  · rename_i i he
    obtain ⟨⟨raw', after'⟩, hv, ⟨⟩⟩ := Option.bind_eq_some_iff.mp h
    have hi : i < rest.length := (List.findIdx?_eq_some_iff_getElem.mp he).1
    have := trimStart_length (rest.drop (i + 1))
    have := dispositionValue_length hv
    rw [List.length_drop] at *
    omega

/-- The pairs of a `Content-Disposition`: the name and whether there is a `filename`. -/
def dispositionPairs (rest : Bytes) (name : Option Name) (file : Bool) : Option (Option Name × Bool) :=
  match _h : dispositionPair (trim rest) with
  | none => none
  | some none => some (name, file)
  | some (some (key, raw, after)) =>
    if key = ascii "name" then dispositionPairs after (some raw) file
    else if key = ascii "filename" then dispositionPairs after name true
    else dispositionPairs after name file
  termination_by rest.length
  decreasing_by all_goals exact Nat.lt_of_lt_of_le (dispositionPair_length _h) (trim_length rest)

/-- Reads a `Content-Disposition` value as the server does: `form-data;` then `key=value` pairs. The last `name` counts; any
    `filename` makes the part a file. -/
def disposition (value : Bytes) (name : Option Name) (file : Bool) : Option (Option Name × Bool) :=
  if (ascii "form-data;").isPrefixOf value then dispositionPairs (value.drop 10) name file else none

/-- Where a header's value that begins at `next` ends, and what comes after it begins: a value runs to a CR LF that no space
    or tab follows. -/
def valueEnd (values : Bytes) (next : Nat) : Option (Nat × Nat) :=
  match h : (values.drop next).findIdx? (· = CR) with
  | none => none
  | some i =>
    if values[next + i + 1]? ≠ some LF then none
    else if values[next + i + 2]? = some space ∨ values[next + i + 2]? = some 9 then valueEnd values (next + i + 2)
    else some (next + i, next + i + 2)
  termination_by values.length - next
  decreasing_by
    have := (List.findIdx?_eq_some_iff_getElem.mp h).1
    rw [List.length_drop] at this
    omega

/-- A header, its value and what comes after it. -/
def headerLine (rest : Bytes) : Option (Bytes × Bytes × Bytes) := do
  let colon ← rest.findIdx? (· = colonSign)
  let values := rest.drop (colon + 1)
  let (stop, next) ← valueEnd values 0
  some (trim (rest.take colon), trim (values.take stop), values.drop next)

theorem headerLine_length {rest header value after : Bytes} (h : headerLine rest = some (header, value, after)) :
    after.length < rest.length := by
  obtain ⟨colon, hc, h⟩ := Option.bind_eq_some_iff.mp h
  obtain ⟨⟨stop, next⟩, -, ⟨⟩⟩ := Option.bind_eq_some_iff.mp h
  have := (List.findIdx?_eq_some_iff_getElem.mp hc).1
  rw [List.length_drop, List.length_drop]
  omega

/-- What a part's headers have told so far. -/
structure Headers where
  name : Option Name
  file : Bool
  contentType : Bytes
  deriving DecidableEq, Repr

def readHeaders (rest : Bytes) (headers : Headers) : Option Headers :=
  if rest = [] then some headers
  else
    match _h : headerLine rest with
    | none => none
    | some (header, value, after) =>
      if eqIgnoreAsciiCase header (ascii "content-disposition") then
        match disposition value headers.name headers.file with
        | none => none
        | some (name, file) => readHeaders after { headers with name, file }
      else if eqIgnoreAsciiCase header (ascii "content-type") then readHeaders after { headers with contentType := value }
      else readHeaders after headers
  termination_by rest.length
  decreasing_by all_goals exact headerLine_length _h

/-- What the server reads from a part's header block. -/
structure PartHead where
  kind : Kind
  name : Name
  deriving DecidableEq, Repr

/-- How the server reads a part with the header block `block`: a file when a `Content-Disposition` has a `filename`
    parameter, else a parameter, read as more parameters when its `Content-Type` begins with
    `application/x-www-form-urlencoded`; and its field name. -/
def partHead (block : Bytes) : Option PartHead := do
  let headers ← readHeaders block { name := none, file := false, contentType := ascii "application/octet-stream" }
  let name ← headers.name.filter fun name => name.raw ≠ []
  let kind :=
    if headers.file then .file
    else if (ascii "application/x-www-form-urlencoded").isPrefixOf headers.contentType then .form
    else .text
  some { kind, name }

/-! ### The scan -/

/-- Where a multipart body's scan is. -/
inductive State where
  /-- Before the first `--<boundary>`, anywhere. -/
  | prologue
  /-- A part's header block, up to `\r\n\r\n`. -/
  | headers
  /-- A part's content, up to `\r\n--<boundary>`. -/
  | part (kind : Kind)
  /-- After a delimiter: `--` ends the body, anything else begins the next part's header block. -/
  | last (first : Option UInt8)
  deriving DecidableEq, Repr

structure MultipartScan where
  state : State
  /-- `--<boundary>`, which ends the prologue. -/
  first : Matcher
  /-- `\r\n--<boundary>`, which ends a part. -/
  next : Matcher
  /-- The bytes after the last delimiter, up to the `\r\n\r\n` that ends the header block. -/
  headers : Bytes
  headersTotal : Nat
  /-- Text parameter bytes so far. -/
  textTotal : Nat
  /-- A text part as one value. -/
  values : Levels
  /-- A form part as parameters. -/
  form : Form
  formValues : Levels
  verdict : Option Verdict

/-- The end of a header block. -/
abbrev headersEnd : Bytes := [CR, LF, CR, LF]

namespace MultipartScan

theorem take_room (boundary : Bytes) {n : Nat} (h : n ≤ 4) : n + (boundary.take MAX_BOUNDARY_LEN).length ≤ MAX_DELIMITER_LEN := by
  rw [List.length_take, Nat.add_comm]
  exact Nat.add_le_add (Nat.min_le_left ..) h

def new (boundary : Bytes) : MultipartScan where
  state := .prologue
  first := .new [dash, dash] (boundary.take MAX_BOUNDARY_LEN) (by decide) (take_room boundary (by decide))
  next := .new [CR, LF, dash, dash] (boundary.take MAX_BOUNDARY_LEN) (by decide) (take_room boundary (by decide))
  headers := []
  headersTotal := 0
  textTotal := 0
  values := .default
  form := .name
  formValues := .default
  verdict := none

def refuse (scan : MultipartScan) (refusal : Refusal) : MultipartScan := { scan with verdict := some (.refused refusal) }

/-- A byte of a header block: the bytes after a delimiter up to `\r\n\r\n`, of which the server parses all but the first
    two. -/
def headerByte (scan : MultipartScan) (b : UInt8) : MultipartScan :=
  let scan := { scan with headers := scan.headers ++ [b] }
  if MAX_PART_HEADERS + 4 < scan.headersTotal + scan.headers.length then scan.refuse .unreadable
  else if ¬headersEnd.isSuffixOf scan.headers then scan
  else
    let len := scan.headers.length - 4
    let scan := { scan with headersTotal := scan.headersTotal + len }
    match if len = 0 then none else partHead ((scan.headers.take (len + 2)).drop 2) with
    | none => scan.refuse .unreadable
    | some head => { scan with values := scan.values.start, form := .name, state := .part head.kind }

/-- A byte of a part's content. -/
def content (kind : Kind) (scan : MultipartScan) (c : UInt8) : MultipartScan :=
  if kind = .file then scan
  else
    let scan := { scan with textTotal := scan.textTotal + 1, values := scan.values.byte c }
    if kind = .form then
      let (form, formValues) := scan.form.byte scan.formValues c
      { scan with form, formValues }
    else scan

def partByte (scan : MultipartScan) (kind : Kind) (b : UInt8) : MultipartScan :=
  let (next, bytes, ended) := scan.next.step b
  let scan := bytes.foldl (content kind) { scan with next }
  let scan :=
    if ended && kind = .form then
      let (form, formValues) := scan.form.atEnd scan.formValues
      { scan with form, formValues }
    else scan
  if scan.values.found || scan.formValues.found then scan.refuse .localFile
  else if MAX_PARAMETERS < scan.textTotal then scan.refuse .tooLarge
  else if ended then { scan with state := .last none }
  else scan

def byte (scan : MultipartScan) (b : UInt8) : MultipartScan :=
  match scan.state with
  | .prologue =>
    let (first, _, ended) := scan.first.step b
    if ended then { scan with first, headers := [], state := .headers } else { scan with first }
  | .headers => scan.headerByte b
  | .part kind => scan.partByte kind b
  | .last none => { scan with state := .last (some b) }
  | .last (some first) =>
    if first = dash && b = dash then { scan with verdict := some .clean }
    else
      let scan := headerByte { scan with headers := [], state := .headers } first
      if scan.verdict.isNone then scan.headerByte b else scan

/-- How many leading bytes of `data` the scan passes over. -/
def skipped (scan : MultipartScan) (data : Bytes) : Nat :=
  match scan.state with
  | .prologue => scan.first.skippable data
  | .part .file => scan.next.skippable data
  | _ => 0

/-- Feeds the next bytes of the body; `verdict` is then the verdict once there is one, which nothing after it changes: clean
    once the closing delimiter is read, the rest being the epilogue the server skips. -/
def feed (scan : MultipartScan) (data : Bytes) : MultipartScan :=
  if scan.verdict.isSome then scan
  else
    match _h : data.drop (scan.skipped data) with
    | [] => scan
    | b :: rest => (scan.byte b).feed rest
  termination_by data.length
  decreasing_by
    have := congrArg List.length _h
    rw [List.length_drop, List.length_cons] at this
    omega

/-- The body ended: without its closing delimiter, the server refuses it. -/
def finish (scan : MultipartScan) : Verdict := scan.verdict.getD (.refused .unreadable)

end MultipartScan

/-! ### Whole bodies -/

/-- One part of an in-memory multipart body, as the server reads it. -/
structure Part where
  kind : Kind
  name : Name
  value : Bytes
  deriving DecidableEq, Repr

/-- The parts from `rest` on, which a delimiter comes before. -/
def partsFrom (next : Bytes) (headersTotal : Nat) (rest : Bytes) : Option (List Part) :=
  match find rest headersEnd with
  | none => none
  | some len =>
    if len = 0 ∨ MAX_PART_HEADERS < headersTotal + len then none
    else
      match partHead ((rest.take (len + 2)).drop 2), find (rest.drop (len + 4)) next with
      | some head, some stop =>
        let content := rest.drop (len + 4)
        let part : Part := { kind := head.kind, name := head.name, value := content.take stop }
        let after := content.drop (stop + next.length)
        if _h : after.length < 2 then none
        else if [dash, dash].isPrefixOf after then some [part]
        else (partsFrom next (headersTotal + len) after).map (part :: ·)
      | _, _ => none
  termination_by rest.length
  decreasing_by
    rw [List.length_drop, List.length_drop] at _h ⊢
    omega

/-- The parts of a whole multipart body with the delimiter `boundary`, in order; `none` unless the body reaches its closing
    delimiter. -/
def parts (boundary body : Bytes) : Option (List Part) := do
  let next := [CR, LF, dash, dash] ++ boundary.take MAX_BOUNDARY_LEN
  let first := next.drop 2
  let start ← find body first
  partsFrom next 0 (body.drop (start + first.length))

end Tgin.LocalFiles
