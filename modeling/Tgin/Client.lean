import Tgin.Gateway.Prepare
import Tgin.LongPoll
import Tgin.UpdateFacts.Extract

/-! How the updates of a `getUpdates` body are told apart, `tgin-botapi/src/client.rs`. The crate `serde_json` is a parameter. -/

namespace Tgin.Client
open Gateway.Proxy (parseI64)
open JsonText (Chars Denotes Field Number Padded Value backslash isWhitespace)
open LongPoll (ApiError)
open Rules
open UpdateFacts (UPDATE_ID i64 utf8)

/-- What is wrong with a JSON text, `serde_json::error::Category`. -/
inductive Category where
  | io
  /-- `Category::Syntax`. -/
  | malformed
  | data
  | eof
  deriving DecidableEq, Repr

structure JsonError where
  category : Category
  line : Nat
  column : Nat
  deriving DecidableEq, Repr

/-- Describes a JSON error by kind and position only. -/
def decodeError (err : JsonError) : ApiError :=
  let what := match err.category with
    | .io => "I/O error"
    | .malformed => "invalid JSON"
    | .data => "unexpected JSON shape"
    | .eof => "truncated JSON"
  .decode s!"{what} at line {err.line} column {err.column}"

structure Parameters where
  retryAfter : Option UInt64
  deriving DecidableEq, Repr

/-- A Bot API response body. -/
structure Envelope (T : Type) where
  ok : Bool
  result : Option T
  description : Option String
  errorCode : Option Int64
  parameters : Option Parameters
  deriving DecidableEq, Repr

/-- `u16::try_from`. -/
def toU16 (code : Int64) : Option Nat := if 0 ≤ code.toInt ∧ code.toInt < 2 ^ 16 then some code.toInt.toNat else none

/-- The error an `"ok": false` response describes. -/
def Envelope.intoError {T : Type} (envelope : Envelope T) (status : Nat) (retryAfter : Option Duration) : ApiError :=
  .http ((envelope.errorCode.bind toU16).getD status) (envelope.description.getD "")
    (((envelope.parameters.bind (·.retryAfter)).map fun secs => secs.toNat * 10 ^ 9).or retryAfter)

/-- Part of a body. -/
structure Slice where
  start : Nat
  len : Nat
  deriving DecidableEq, Repr

def Slice.of (slice : Slice) (body : Str) : Str := (body.drop slice.start).take slice.len

/-- What `serde_json` reads here. -/
structure SerdeJson extends UpdateFacts.Serde where
  /-- `from_slice::<Envelope<Vec<&RawValue>>>`. -/
  envelope : Str → Except JsonError (Envelope (List Slice))
  /-- `from_str::<UpdateId>`. -/
  updateId : Str → Except JsonError Int64

/-- The `result` of a 2xx response body. -/
def parseResult (serde : SerdeJson) (body : Str) : Except ApiError (List Slice) :=
  match serde.envelope body with
  | .error err => .error (decodeError err)
  | .ok envelope =>
    if !envelope.ok then .error (envelope.intoError 200 none)
    else match envelope.result with
      | some result => .ok result
      | none => .error (.decode "the response has no result")

/-- What an update begins with as the Bot API writes it. -/
def LEADING : Str := 123 :: JsonText.quoted UPDATE_ID ++ [JsonText.colon]

/-- The `update_id` that an update begins with. -/
def leading (json : Str) : Option Int64 := do
  let rest ← if LEADING.isPrefixOf json then some (json.drop LEADING.length) else none
  let stop ← rest.findIdx? fun b => b = JsonText.comma || b = 125
  parseI64 (rest.take stop)

/-- An update's `update_id`. The Bot API writes it first, which is read without a second parse. -/
def updateId (serde : SerdeJson) (json : Str) : Except ApiError Int64 :=
  match leading json with
  | some id => .ok id
  | none => (serde.updateId json).mapError decodeError

/-- Splits a `getUpdates` body into `(update_id, update)` pairs. -/
def splitUpdates (serde : SerdeJson) (body : Str) : Except ApiError (List (Int64 × Slice)) := do
  let updates ← parseResult serde body
  updates.mapM fun raw => do return (← updateId serde (raw.of body), raw)

/-! ### What `serde_json` does -/

namespace UpdateId

/-- The members of an object, read as the fields of `UpdateId`. A repeated field is an error, as is a key that cannot be read; the
    values of other keys are passed over. -/
def visitMap (serde : UpdateFacts.Serde) : List (Str × JsonDoc) → Option Int64 → Option (Option Int64)
  | [], updateId => some updateId
  | (key, value) :: rest, updateId => do
    let name ← serde.str key
    if name = UPDATE_ID then
      if updateId.isSome then none else visitMap serde rest (some (← i64 serde value))
    else visitMap serde rest updateId

/-- A struct is read from an object, or from an array of its fields. -/
def deserialize (serde : UpdateFacts.Serde) : JsonDoc → Option Int64
  | .object members => (visitMap serde members none).join
  | .array [updateId] => i64 serde updateId
  | _ => none

end UpdateId

/-- The fields of `Envelope`. -/
def FIELDS : List Str := ["ok", "result", "description", "error_code", "parameters"].map utf8

/-- Where the elements of an array are, the first of which begins at `offset`. -/
def slices (offset : Nat) : List Padded → List Slice
  | [] => []
  | e :: rest => { start := offset + e.before.length, len := e.value.length } :: slices (offset + e.bytes.length + 1) rest

/-- The elements of the array that is the `result` in a body. -/
inductive Elements (body : Str) : List Slice → Prop where
  | empty {p : Padded} {before space after : Str} (text : body = p.bytes) (spaced : p.Spaced)
    (result : Field FIELDS (utf8 "result") p.value before (91 :: space ++ [93]) after) (white : ∀ b ∈ space, isWhitespace b) :
    Elements body []
  | mk {p : Padded} {before after : Str} (elements : List Padded) (text : body = p.bytes) (spaced : p.Spaced)
    (result : Field FIELDS (utf8 "result") p.value before (JsonText.array elements) after)
    (each : ∀ e ∈ elements, e.Spaced ∧ Value e.value ∧ Utf8.Valid e.value) :
    Elements body (slices (p.before.length + before.length + 1) elements)

/-- What digits stand for. -/
def decimal (digits : Str) : Nat := digits.foldl (fun n b => 10 * n + (b.toNat - 48)) 0

/-- What a visitor is given for an integer below 2^64 in size: `-0` is no integer. -/
def numOf (n : Number) : UpdateFacts.Num :=
  let size := decimal n.int
  if n.minus then if 0 < size ∧ size ≤ 2 ^ 63 then .i64 (.ofInt (-size)) else .f64
  else .u64 (.ofNat size)

structure Documented (serde : SerdeJson) : Prop where
  envelope : ∀ body envelope raws, serde.envelope body = .ok envelope → envelope.result = some raws → Elements body raws
  updateId : ∀ text doc, Utf8.Valid text → Denotes text doc → (serde.updateId text).toOption = UpdateId.deserialize serde.toSerde doc
  /-- A literal without an escape is its own text. -/
  str : ∀ inner, Chars inner → Utf8.Valid inner → backslash ∉ inner → serde.str inner = some inner
  number : ∀ n : Number, n.Formed → n.fraction = none → n.exponent = none → decimal n.int < 2 ^ 64 →
    serde.number n.bytes = some (numOf n)

/-! ### The plain path -/

/-- A full parse of an element gives the id. -/
def Reads (serde : UpdateFacts.Serde) (text : Str) (id : Int64) : Prop :=
  ∃ doc, Denotes text doc ∧ UpdateId.deserialize serde doc = some id

/-- Each element of `result` in order, as the body has it, with the id that its full parse gives. -/
def Plain (serde : SerdeJson) (body : Str) (updates : List (Int64 × Slice)) : Prop :=
  ∃ raws, parseResult serde body = .ok raws ∧ Elements body raws ∧
    List.Forall₂ (fun raw update => update.2 = raw ∧ Reads serde.toSerde (raw.of body) update.1) raws updates

/-- The body is split as on the plain path, and not at all where that fails. -/
def Agrees (serde : SerdeJson) (body : Str) : Prop := ∀ updates, splitUpdates serde body = .ok updates ↔ Plain serde body updates

/-- A text begins with an id, yet a full parse of it fails: the id is `-0`, or a key after it is `update_id` again or cannot be read. -/
def Hidden (serde : UpdateFacts.Serde) (text : Str) : Prop :=
  (leading text).isSome ∧ ∃ value rest, Denotes text (.object ((UPDATE_ID, value) :: rest)) ∧
    (value = .number [45, 48] ∨ ∃ m ∈ rest, ∀ name, serde.str m.1 = some name → name = UPDATE_ID)

end Tgin.Client
