import Tgin.Gateway.Prepare
import Tgin.UpdateFacts.Extract

/-! The parameters of `getUpdates`, `tgin-botapi/src/pull.rs`. The crates `form_urlencoded` and `serde_json` are parameters. -/

namespace Tgin.Pull
open Rules
open Gateway.Proxy (parseI64)
open LocalFiles (Readers ampersand equals formDecode formParam formValue fromUtf8 pairValue spaced)
open UpdateFacts (Num Serde utf8)
open Utf8 (Valid lossy)

/-! ### Text -/

/-- The encoding of a whitespace character that the text ends with. -/
def trailing (text : Str) : Option Str := (Utf8.WHITESPACE.map fun n => String.utf8EncodeChar (.ofNat n)).find? (·.isSuffixOf text)

def trimStartFrom : Nat → Str → Str
  | 0, text => text
  | n + 1, text =>
    match Utf8.leading text with
    | some space => trimStartFrom n (text.drop space.length)
    | none => text

def trimEndFrom : Nat → Str → Str
  | 0, text => text
  | n + 1, text =>
    match trailing text with
    | some space => trimEndFrom n (text.take (text.length - space.length))
    | none => text

/-- `str::trim`. -/
def trim (text : Str) : Str :=
  let text := trimStartFrom text.length text
  trimEndFrom text.length text

/-- What the parameters are read with. -/
structure Crates where
  /-- `form_urlencoded::parse`: the pairs of a form. -/
  form : Str → List (Str × Str)
  /-- The document that a text is, by `serde_json`. -/
  document : Str → Option JsonDoc
  serde : Serde

/-! ### Parameters -/

/-- `getUpdates`'s default and largest `limit`. -/
def MAX_LIMIT : Int64 := 100

/-- The longest `getUpdates` `timeout`, in seconds. -/
def MAX_TIMEOUT_SECS : Int64 := 50

/-- The parameters `getUpdates` reads. -/
inductive Key where
  | offset | limit | timeout
  deriving DecidableEq, Repr

namespace Key

def name : Key → Str
  | .offset => utf8 "offset"
  | .limit => utf8 "limit"
  | .timeout => utf8 "timeout"

/-- `allowed_updates` and anything else: routing is the config's. -/
def of (key : Str) : Option Key :=
  if key = utf8 "offset" then some .offset
  else if key = utf8 "limit" then some .limit
  else if key = utf8 "timeout" then some .timeout
  else none

end Key

/-- A value as sent: an integer, or nothing for anything that is none. -/
abbrev Sent := Option Int64

/-- Parameters as sent, before defaults and clamping. -/
structure RawParams where
  offset : Option Int64
  limit : Option Int64
  timeout : Option Int64
  deriving DecidableEq, Repr

def clamp (n low high : Int64) : Int64 := if n < low then low else if high < n then high else n

theorem clamp_bounds {low high : Int64} (h : low ≤ high) (n : Int64) : low ≤ clamp n low high ∧ clamp n low high ≤ high := by
  rw [clamp]
  split
  · exact ⟨Int64.le_refl _, h⟩
  · rename_i above
    split
    · exact ⟨h, Int64.le_refl _⟩
    · rename_i below
      exact ⟨Int64.not_lt.mp above, Int64.not_lt.mp below⟩

/-- `usize::try_from(limit).unwrap_or(1)` of the clamped limit. -/
def limitOf (n : Option Int64) : Nat :=
  let limit := n.elim MAX_LIMIT fun n => clamp n 1 MAX_LIMIT
  if 0 ≤ limit then limit.toInt.toNat else 1

/-- The clamped timeout. -/
def timeoutOf (n : Option Int64) : Duration :=
  let timeout := n.elim 0 fun n => clamp n 0 MAX_TIMEOUT_SECS
  (if 0 ≤ timeout then timeout.toInt.toNat else 0) * 10 ^ 9

theorem limitOf_range (n : Option Int64) : 1 ≤ limitOf n ∧ limitOf n ≤ 100 := by
  cases n with
  | none => decide
  | some n =>
    obtain ⟨low, high⟩ := clamp_bounds (show (1 : Int64) ≤ MAX_LIMIT by decide) n
    rw [Int64.le_iff_toInt_le] at low high
    change 1 ≤ _ at low
    change _ ≤ 100 at high
    have positive : 0 ≤ clamp n 1 MAX_LIMIT := Int64.le_iff_toInt_le.mpr (Int.le_trans (by decide) low)
    rw [limitOf, Option.elim, if_pos positive]
    omega

theorem timeoutOf_le (n : Option Int64) : timeoutOf n ≤ 50 * 10 ^ 9 := by
  cases n with
  | none => decide
  | some n =>
    obtain ⟨low, high⟩ := clamp_bounds (show (0 : Int64) ≤ MAX_TIMEOUT_SECS by decide) n
    rw [timeoutOf, Option.elim, if_pos low]
    rw [Int64.le_iff_toInt_le] at high
    change _ ≤ 50 at high
    have short : (clamp n 0 MAX_TIMEOUT_SECS).toInt.toNat ≤ 50 := by omega
    exact Nat.mul_le_mul_right _ short

/-- `getUpdates` parameters, clamped as Telegram clamps them. -/
structure Params where
  offset : Int64
  /-- 1 to 100; 100 when not given. -/
  limit : Nat
  /-- 0 to 50 s; 0 when not given. -/
  timeout : Duration
  limit_range : 1 ≤ limit ∧ limit ≤ 100
  timeout_le : timeout ≤ 50 * 10 ^ 9
  deriving DecidableEq, Repr

namespace RawParams

def empty : RawParams := { offset := none, limit := none, timeout := none }

def get (raw : RawParams) : Key → Option Int64
  | .offset => raw.offset
  | .limit => raw.limit
  | .timeout => raw.timeout

def put (raw : RawParams) (value : Int64) : Key → RawParams
  | .offset => { raw with offset := some value }
  | .limit => { raw with limit := some value }
  | .timeout => { raw with timeout := some value }

def set (raw : RawParams) (key : Key) (value : Sent) : Except Str RawParams :=
  match value with
  | some value => .ok (raw.put value key)
  | none => .error (key.name ++ utf8 " must be an integer")

/-- The pairs of a form. -/
def pairs (raw : RawParams) : List (Str × Str) → Except Str RawParams
  | [] => .ok raw
  | (key, value) :: rest =>
    match Key.of key with
    | some key =>
      match raw.set key (parseI64 (trim value)) with
      | .ok raw => raw.pairs rest
      | .error error => .error error
    | none => raw.pairs rest

def form (crates : Crates) (raw : RawParams) (bytes : Str) : Except Str RawParams := raw.pairs (crates.form bytes)

end RawParams

/-! ### JSON bodies -/

/-- The members of a JSON object that `getUpdates` reads, each the last one of its name. -/
structure Members where
  offset : Option Sent
  limit : Option Sent
  timeout : Option Sent

/-- A member's value as an integer: a JSON integer that fits `i64`, or a string holding one. Anything else is read whole and is none. -/
def Integer (serde : Serde) : JsonDoc → Option Sent
  | .number text => (serde.number text).map Num.toI64
  | .string inner => (serde.str inner).map fun v => parseI64 (trim v)
  | .object members => if members.all fun m => (serde.str m.1).isSome then some none else none
  | .word _ | .array _ => some none

/-- Nothing where the object cannot be read. -/
def Members.visit (serde : Serde) : List (Str × JsonDoc) → Members → Option Members
  | [], members => some members
  | (key, value) :: rest, members => do
    match Key.of (← serde.str key) with
    | none => visit serde rest members
    | some .offset => visit serde rest { members with offset := some (← Integer serde value) }
    | some .limit => visit serde rest { members with limit := some (← Integer serde value) }
    | some .timeout => visit serde rest { members with timeout := some (← Integer serde value) }

namespace RawParams

/-- The values of the keys, as far as there are any. -/
def setAll (raw : RawParams) : List (Key × Option Sent) → Except Str RawParams
  | [] => .ok raw
  | (_, none) :: rest => raw.setAll rest
  | (key, some value) :: rest => do (← raw.set key value).setAll rest

/-- A JSON object's members: an integer, or a string holding one. A key sent twice takes its last value; the keys are checked in name
    order. -/
def json (crates : Crates) (raw : RawParams) (body : Str) : Except Str RawParams :=
  match crates.document body with
  | some (.object members) =>
    match Members.visit crates.serde members { offset := none, limit := none, timeout := none } with
    | some members => raw.setAll [(.limit, members.limit), (.offset, members.offset), (.timeout, members.timeout)]
    | none => .error (utf8 "the body must be a JSON object")
  | _ => .error (utf8 "the body must be a JSON object")

def clamped (raw : RawParams) : Params where
  offset := raw.offset.getD 0
  limit := limitOf raw.limit
  timeout := timeoutOf raw.timeout
  limit_range := limitOf_range _
  timeout_le := timeoutOf_le _

/-- What a text lacks is taken from another. -/
def orElse (raw other : RawParams) : RawParams where
  offset := raw.offset.or other.offset
  limit := raw.limit.or other.limit
  timeout := raw.timeout.or other.timeout

end RawParams

/-- The type that a `Content-Type` names. -/
def mediaType (contentType : Option Str) : Str := trim ((contentType.bind fun value => (value.splitOn (59 : UInt8)).head?).getD [])

def isJson (contentType : Option Str) : Bool := Str.eqIgnoreAsciiCase (mediaType contentType) (utf8 "application/json")

def isMultipart (contentType : Option Str) : Bool := Str.eqIgnoreAsciiCase (mediaType contentType) (utf8 "multipart/form-data")

namespace Params

/-- What a query string has. -/
def ofQuery (crates : Crates) : Option Str → Except Str RawParams
  | some query => RawParams.empty.form crates query
  | none => .ok .empty

/-- What a body has. -/
def ofBody (crates : Crates) (contentType : Option Str) (body : Str) : Except Str RawParams :=
  if isJson contentType then RawParams.empty.json crates body
  else if isMultipart contentType then .error (utf8 "send the parameters as a query string, a form or JSON")
  else RawParams.empty.form crates body

/-- From the query string, then the body for what the query string lacks: JSON when the content type says so, otherwise a form. -/
def parse (crates : Crates) (query contentType : Option Str) (body : Str) : Except Str Params := do
  let raw ← ofQuery crates query
  if body = [] then return raw.clamped
  else return (raw.orElse (← ofBody crates contentType body)).clamped

end Params

/-! ### The first occurrence -/

section
variable (r : Readers)

/-- The pairs of a form, still encoded. -/
def pieces (text : Str) : List Str := (text.splitOn ampersand).filter (· ≠ [])

/-- Whether a pair is one of the parameter. -/
def named (key : Key) (pair : Str) : Bool := formDecode r (pair.takeWhile (· ≠ equals)) = some key.name

/-- The integer that is a pair's value. -/
def integer (pair : Str) : Option Int64 := (formDecode r ((pairValue pair).getD [])).bind fun value => parseI64 (trim value)

/-- All values of the parameters are integers. -/
def Integers (text : Str) : Prop := ∀ pair ∈ pieces text, ∀ key, named r key pair = true → (integer r pair).isSome

/-- The values of a parameter, in their order. -/
def values (pairs : List Str) (key : Key) : List Int64 := (pairs.filter (named r key)).filterMap (integer r)

def sent (text : Str) (key : Key) : List Int64 := values r (pieces text) key

/-- The values of a parameter in the text that it is read from, the query string if it has one. -/
def occurrences (query : Option Str) (body : Str) (key : Key) : List Int64 :=
  let inQuery := (query.map fun query => sent r query key).getD []
  if inQuery = [] then sent r body key else inQuery

/-- A parameter as it is found first, in the query string or else in the body. -/
def argument (query : Option Str) (body : Str) (key : Key) : Option Int64 :=
  ((query.bind fun query => formParam r query key.name).or (formParam r body key.name)).bind fun value => parseI64 (trim value)

/-- The parameters, each as it is found first. -/
def reference (query : Option Str) (body : Str) : Params :=
  RawParams.clamped {
    offset := argument r query body .offset, limit := argument r query body .limit, timeout := argument r query body .timeout }

/-- The first and the last value of each parameter stand for the same number, once clamped. -/
structure Alike (query : Option Str) (body : Str) : Prop where
  offset : (occurrences r query body .offset).head?.getD 0 = (occurrences r query body .offset).getLast?.getD 0
  limit : limitOf (occurrences r query body .limit).head? = limitOf (occurrences r query body .limit).getLast?
  timeout : timeoutOf (occurrences r query body .timeout).head? = timeoutOf (occurrences r query body .timeout).getLast?

/-- A pair decoded: it is split on the first `=`, and `+` is a space; what is not UTF-8 is replaced. -/
def entry (pair : Str) : Str × Str :=
  (lossy (r.percentDecode (spaced (pair.takeWhile (· ≠ equals)))), lossy (r.percentDecode (spaced ((pairValue pair).getD []))))

/-- The pairs of a form are those between `&`. -/
def Crates.Documented (crates : Crates) : Prop := ∀ text, crates.form text = (pieces text).map (entry r)

end

section
variable {r : Readers} {crates : Crates} {text bytes body pair : Str} {query? : Option Str} {key : Key} {raw : RawParams}

theorem valid_of_fromUtf8 (h : fromUtf8 bytes = some text) : bytes = text ∧ Valid text := by
  unfold fromUtf8 at h
  split at h
  · rename_i valid
    obtain rfl := Option.some.inj h
    obtain ⟨chars, eq⟩ := valid
    exact ⟨rfl, chars, List.toByteArray_inj.mp eq⟩
  · cases h

theorem fromUtf8_of_valid (h : Valid text) : fromUtf8 text = some text := by
  obtain ⟨chars, rfl⟩ := h
  exact if_pos ⟨chars, rfl⟩

theorem formDecode_def (r : Readers) (encoded : Str) : formDecode r encoded = fromUtf8 (r.percentDecode (spaced encoded)) := by
  rw [formDecode]
  split
  · rename_i plain
    rw [LocalFiles.spaced_of_not_mem plain]
  · rfl

theorem name_valid (key : Key) : Valid key.name ∧ ∀ b ∈ key.name, b < 0x80 := by
  have ascii : key.name.all (· < 0x80) = true := by cases key <;> decide
  refine ⟨?_, fun b hb => of_decide_eq_true (List.all_eq_true.mp ascii b hb)⟩
  cases key <;> exact ⟨_, rfl⟩

theorem of_name (key : Key) (v : Str) : Key.of v = some key ↔ v = key.name := by
  constructor
  · intro h
    unfold Key.of at h
    split at h
    · cases h
      assumption
    · split at h
      · cases h
        assumption
      · split at h
        · cases h
          assumption
        · cases h
  · rintro rfl
    cases key <;> decide

/-- A key is known by either reader. -/
theorem key_named (pair : Str) (key : Key) :
    Key.of (entry r pair).1 = some key ↔ named r key pair = true := by
  rw [entry, named, decide_eq_true_iff, formDecode_def, of_name]
  dsimp only
  obtain ⟨valid, ascii⟩ := name_valid key
  constructor
  · intro same
    have read := Utf8.lossy_ascii fun b hb => ascii b (same ▸ hb)
    rw [same] at read
    rw [← read]
    exact fromUtf8_of_valid valid
  · intro same
    rw [(valid_of_fromUtf8 same).1, Utf8.lossy_valid valid]

/-- A value that is an integer is read for itself. -/
theorem entry_integer {n : Int64} (h : integer r pair = some n) : parseI64 (trim (entry r pair).2) = some n := by
  obtain ⟨value, decoded, parsed⟩ := Option.bind_eq_some_iff.mp h
  rw [formDecode_def] at decoded
  obtain ⟨eq, valid⟩ := valid_of_fromUtf8 decoded
  rw [entry, eq, Utf8.lossy_valid valid, parsed]

theorem get_put (raw : RawParams) (n : Int64) (key other : Key) :
    (raw.put n key).get other = if key = other then some n else raw.get other := by
  cases key <;> cases other <;> rfl

theorem pairs_other {e : Str × Str} {rest : List (Str × Str)} (h : Key.of e.1 = none) : raw.pairs (e :: rest) = raw.pairs rest := by
  rw [RawParams.pairs, h]

theorem pairs_put {e : Str × Str} {rest : List (Str × Str)} {n : Int64} (h : Key.of e.1 = some key)
    (value : parseI64 (trim e.2) = some n) :
    raw.pairs (e :: rest) = (raw.put n key).pairs rest := by
  rw [RawParams.pairs, h, value]
  rfl

/-- The last value of each parameter is kept. -/
theorem pairs_get {list : List Str} (integers : ∀ pair ∈ list, ∀ key, named r key pair = true → (integer r pair).isSome)
    (raw : RawParams) :
    ∃ read, raw.pairs (list.map (entry r)) = .ok read ∧ ∀ key, read.get key = (values r list key).getLast?.or (raw.get key) := by
  induction list generalizing raw with
  | nil => exact ⟨raw, rfl, fun _ => rfl⟩
  | cons pair list ih =>
    obtain ⟨here, integers⟩ := List.forall_mem_cons.mp integers
    cases known : Key.of (entry r pair).1 with
    | none =>
      obtain ⟨read, run, got⟩ := ih integers raw
      refine ⟨read, by rw [List.map_cons, pairs_other known, run], fun key => ?_⟩
      · have other : named r key pair = false := by
          rw [← Bool.not_eq_true, ← key_named, known]
          exact nofun
        rw [got key, values, values, List.filter_cons_of_neg (by rw [other]; exact Bool.false_ne_true)]
    | some key =>
      have isNamed := (key_named pair key).mp known
      obtain ⟨n, value⟩ := Option.isSome_iff_exists.mp (here key isNamed)
      obtain ⟨read, run, got⟩ := ih integers (raw.put n key)
      refine ⟨read, by rw [List.map_cons, pairs_put known (entry_integer value), run], fun other => ?_⟩
      rw [got other, get_put]
      by_cases same : key = other
      · subst same
        have first : values r (pair :: list) key = n :: values r list key := by
          rw [values, List.filter_cons_of_pos isNamed, List.filterMap_cons_some value, values]
        rw [if_pos rfl, first, List.getLast?_cons]
        cases (values r list key).getLast? <;> rfl
      · have notNamed : ¬named r other pair = true := fun isOther =>
          same (Option.some.inj (known.symm.trans ((key_named pair other).mpr isOther)))
        rw [if_neg same, values, values, List.filter_cons_of_neg notNamed]

/-- The first pair of a parameter has its first value. -/
theorem formParam_first (integers : Integers r text) (key : Key) :
    formParam r text key.name = none ∧ sent r text key = [] ∨
      ∃ value n rest, formParam r text key.name = some value ∧ parseI64 (trim value) = some n ∧ sent r text key = n :: rest := by
  unfold formParam formValue sent
  change ∀ pair ∈ pieces text, _ at integers
  change ((pieces text).findSome? _).bind _ = none ∧ _ ∨ ∃ value n rest, ((pieces text).findSome? _).bind _ = some value ∧ _
  generalize pieces text = list at integers ⊢
  induction list with
  | nil => exact .inl ⟨rfl, rfl⟩
  | cons pair list ih =>
    obtain ⟨here, integers⟩ := List.forall_mem_cons.mp integers
    rw [List.findSome?_cons]
    by_cases isNamed : named r key pair = true
    · obtain ⟨n, parsed⟩ := Option.isSome_iff_exists.mp (here key isNamed)
      obtain ⟨value, decoded, integer⟩ := Option.bind_eq_some_iff.mp parsed
      refine .inr ⟨value, n, values r list key, ?_, integer, ?_⟩
      · rw [if_pos (of_decide_eq_true isNamed)]
        exact decoded
      · rw [values, List.filter_cons_of_pos isNamed, List.filterMap_cons_some parsed, values]
    · have skipped : values r (pair :: list) key = values r list key := by rw [values, List.filter_cons_of_neg isNamed, values]
      rw [skipped, if_neg (fun same => isNamed (decide_eq_true same))]
      exact ih integers

/-- The parameter that is found first is the first value. -/
theorem argument_eq (inQuery : ∀ text, query? = some text → Integers r text) (inBody : Integers r body) (key : Key) :
    argument r query? body key = (occurrences r query? body key).head? := by
  have ofBody : (formParam r body key.name).bind (fun value => parseI64 (trim value)) = (sent r body key).head? := by
    rcases formParam_first inBody key with ⟨none, eq⟩ | ⟨value, n, rest, some, parsed, eq⟩
    · rw [none, eq]
      rfl
    · rw [some, eq, Option.bind_some, parsed]
      rfl
  rw [argument, occurrences]
  cases query? with
  | none => exact ofBody
  | some query =>
    rw [Option.bind_some, Option.map_some, Option.getD_some]
    rcases formParam_first (inQuery query rfl) key with ⟨none, eq⟩ | ⟨value, n, rest, some, parsed, eq⟩
    · rw [none, eq, if_pos rfl]
      exact ofBody
    · rw [some, eq, if_neg (List.cons_ne_nil _ _), Option.some_or, Option.bind_some, parsed]
      rfl

theorem form_get (documented : crates.Documented r) (integers : Integers r text) :
    ∃ read, RawParams.empty.form crates text = .ok read ∧ ∀ key, read.get key = (sent r text key).getLast? := by
  obtain ⟨read, run, got⟩ := pairs_get integers .empty
  refine ⟨read, by rw [RawParams.form, documented, run], fun key => ?_⟩
  rw [got, sent]
  cases key <;> exact Option.or_none

/-- What is read is the last value of each parameter. -/
theorem parse_last {contentType : Option Str} (documented : crates.Documented r)
    (isForm : isJson contentType = false ∧ isMultipart contentType = false)
    (inQuery : ∀ text, query? = some text → Integers r text) (inBody : Integers r body) :
    ∃ raw : RawParams, Params.parse crates query? contentType body = .ok raw.clamped ∧
      ∀ key, raw.get key = (occurrences r query? body key).getLast? := by
  obtain ⟨first, run, got⟩ : ∃ raw : RawParams, Params.ofQuery crates query? = .ok raw ∧
      ∀ key, raw.get key = ((query?.map fun query => sent r query key).getD []).getLast? := by
    cases query? with
    | none => exact ⟨.empty, rfl, fun key => by cases key <;> rfl⟩
    | some query => exact form_get documented (inQuery query rfl)
  rw [Params.parse, run]
  by_cases empty : body = []
  · refine ⟨first, if_pos empty, fun key => ?_⟩
    rw [got, occurrences]
    split
    · rename_i none
      rw [none, empty]
      rfl
    · rfl
  · obtain ⟨second, runBody, gotBody⟩ := form_get documented inBody
    have read : Params.ofBody crates contentType body = .ok second := by
      rw [Params.ofBody, isForm.1, isForm.2, if_neg Bool.false_ne_true, if_neg Bool.false_ne_true, runBody]
    refine ⟨first.orElse second, ?_, fun key => ?_⟩
    · change (if body = [] then _ else (Params.ofBody crates contentType body).bind fun raw => .ok (first.orElse raw).clamped) = _
      rw [if_neg empty, read]
      rfl
    · have both : (first.orElse second).get key = (first.get key).or (second.get key) := by cases key <;> rfl
      rw [both, got, gotBody, occurrences]
      split
      · rename_i none
        rw [none]
        rfl
      · rename_i some
        rw [List.getLast?_eq_some_getLast some, Option.some_or]

/-- The parameters are those found first if and only if the first and the last value of each stand for the same number. -/
theorem parse_iff {contentType : Option Str} (documented : crates.Documented r)
    (isForm : isJson contentType = false ∧ isMultipart contentType = false)
    (inQuery : ∀ text, query? = some text → Integers r text) (inBody : Integers r body) :
    Params.parse crates query? contentType body = .ok (reference r query? body) ↔ Alike r query? body := by
  obtain ⟨raw, run, got⟩ := parse_last documented isForm inQuery inBody
  have offset : raw.offset = _ := got .offset
  have limit : raw.limit = _ := got .limit
  have timeout : raw.timeout = _ := got .timeout
  rw [run, reference, argument_eq inQuery inBody, argument_eq inQuery inBody, argument_eq inQuery inBody, Except.ok.injEq, RawParams.clamped,
    RawParams.clamped, Params.mk.injEq, offset, limit, timeout]
  exact ⟨fun ⟨offset, limit, timeout⟩ => ⟨offset.symm, limit.symm, timeout.symm⟩,
    fun alike => ⟨alike.offset.symm, alike.limit.symm, alike.timeout.symm⟩⟩

end

/-! ### A parameter sent twice -/

/-- Reads texts without `%`. -/
def plainReaders : Readers where
  percentDecode text := text
  members _ := none
  string _ := none

def plainCrates : Crates where
  form text := (pieces text).map (entry plainReaders)
  document _ := none
  serde := { str := some, number := fun _ => none }

/-- `offset=1&offset=2`. -/
def twice : Str := utf8 "offset=1&offset=2"

theorem twice_pieces : pieces twice = [utf8 "offset=1", utf8 "offset=2"] := by decide

theorem offset_named (value : Str) (h : (utf8 "offset=" ++ value).takeWhile (· ≠ equals) = utf8 "offset") :
    named plainReaders .offset (utf8 "offset=" ++ value) = true := by
  rw [named, formDecode_def, h]
  exact decide_eq_true (fromUtf8_of_valid (name_valid .offset).1)

theorem twice_integer : integer plainReaders (utf8 "offset=1") = some 1 ∧ integer plainReaders (utf8 "offset=2") = some 2 := by
  constructor
  · refine Option.bind_eq_some_iff.mpr ⟨[49], ?_, by decide⟩
    rw [formDecode_def]
    exact fromUtf8_of_valid ⟨['1'], rfl⟩
  · refine Option.bind_eq_some_iff.mpr ⟨[50], ?_, by decide⟩
    rw [formDecode_def]
    exact fromUtf8_of_valid ⟨['2'], rfl⟩

theorem twice_integers : ∀ text, some twice = some text → Integers plainReaders text := by
  rintro _ ⟨⟩ pair mem key -
  rw [twice_pieces, List.mem_pair] at mem
  rcases mem with rfl | rfl
  · rw [twice_integer.1]
    rfl
  · rw [twice_integer.2]
    rfl

theorem nothing_integers : Integers plainReaders [] := nofun

theorem twice_sent : sent plainReaders twice .offset = [1, 2] := by
  have first : named plainReaders .offset (utf8 "offset=1") = true := offset_named [49] (by decide)
  have second : named plainReaders .offset (utf8 "offset=2") = true := offset_named [50] (by decide)
  rw [sent, twice_pieces, values, List.filter_cons_of_pos first, List.filter_cons_of_pos second, List.filter_nil,
    List.filterMap_cons_some twice_integer.1, List.filterMap_cons_some twice_integer.2, List.filterMap_nil]

/-- The last `offset` is read, where the first one is to be. -/
theorem parse_twice : Integers plainReaders twice ∧ ∃ params, Params.parse plainCrates (some twice) none [] = .ok params ∧
    params.offset = 2 ∧ (reference plainReaders (some twice) []).offset = 1 := by
  obtain ⟨raw, run, got⟩ : ∃ raw : RawParams, Params.parse plainCrates (some twice) none [] = .ok raw.clamped ∧
      ∀ key, raw.get key = (occurrences plainReaders (some twice) [] key).getLast? :=
    parse_last (fun _ => rfl) (by decide) twice_integers nothing_integers
  have occurs : occurrences plainReaders (some twice) [] .offset = [1, 2] := by
    rw [occurrences, Option.map_some, Option.getD_some, twice_sent]
    rfl
  refine ⟨twice_integers _ rfl, raw.clamped, run, ?_, ?_⟩
  · have offset : raw.offset = _ := got .offset
    rw [RawParams.clamped, offset, occurs]
    rfl
  · rw [reference, RawParams.clamped, argument_eq twice_integers nothing_integers, occurs]
    rfl

theorem parse_iff_twice : Params.parse plainCrates (some twice) none [] = .ok (reference plainReaders (some twice) []) ↔
    Alike plainReaders (some twice) [] :=
  parse_iff (fun _ => rfl) (by decide) twice_integers nothing_integers

end Tgin.Pull
