import Mathlib.Algebra.Order.Ring.Int
import Mathlib.Data.List.Basic

/-! The local file scan of `tgin-botapi/src/gateway/local_files.rs`: the values of a request, the JSON they carry, and the
    strings of that JSON, read byte by byte.

    A slice of bytes is a list. Indexing past the end of an array, on which the code panics, is `none`. -/

namespace Tgin.LocalFiles

abbrev Bytes := List UInt8

/-- Why a request is refused. -/
inductive Refusal where
  /-- A parameter carries a local file reference, or JSON nested deeper than `MAX_DEPTH`. -/
  | localFile
  /-- The parameters are over `MAX_PARAMETERS`. -/
  | tooLarge
  /-- The server would refuse the body as malformed; it cannot be cleared. -/
  | unreadable
  deriving DecidableEq, Repr

/-- The outcome of a scan. -/
inductive Verdict where
  /-- No parameter carries a local file reference. -/
  | clean
  | refused (refusal : Refusal)
  deriving DecidableEq, Repr

/-- `"`. -/
abbrev quote : UInt8 := 34

/-- `\`. -/
abbrev backslash : UInt8 := 92

/-- `u`. -/
abbrev letterU : UInt8 := 117

/-- `[`. -/
abbrev bracket : UInt8 := 91

/-- `{`. -/
abbrev brace : UInt8 := 123

/-- A space, `\t`, `\r`, `\n`, `\0` or `0x0b`. -/
def isSpace (b : UInt8) : Bool := b = 32 || b = 9 || b = 13 || b = 10 || b = 0 || b = 11

/-- What a hexadecimal digit stands for. -/
def hex (b : UInt8) : Option UInt8 :=
  if 48 ≤ b && b ≤ 57 then some (b - 48)
  else if 97 ≤ b && b ≤ 102 then some (b - 87)
  else if 65 ≤ b && b ≤ 70 then some (b - 55)
  else none

/-- The byte a JSON escape `\b` stands for. -/
def unescape (b : UInt8) : UInt8 :=
  if b = 98 then 8
  else if b = 102 then 12
  else if b = 110 then 10
  else if b = 114 then 13
  else if b = 116 then 9
  else b

/-- What is refused: a decoded value beginning with `file:`. -/
def LOCAL_PREFIX : Bytes := [102, 105, 108, 101, 58]

/-- Values deep the scan follows: a parameter, the strings of JSON it carries, the strings of JSON carried in those, and
    one more level; a JSON document in a value of the last level is refused unread. -/
abbrev MAX_DEPTH : Nat := 4

inductive Shape where
  /-- Nothing but whitespace yet. -/
  | leading
  /-- A JSON document, scanned for strings. -/
  | json
  /-- Anything else. -/
  | plain
  deriving DecidableEq, Repr

/-- What a value has shown of itself so far. -/
structure Value where
  /-- Bytes of `LOCAL_PREFIX` it began with; `u8::MAX` once it cannot. -/
  matched : Nat
  shape : Shape
  deriving DecidableEq, Repr

def Value.default : Value := { matched := 0, shape := .leading }

/-- What a value's next byte shows of its beginning, and whether it completes a reference. -/
def Value.begins (value : Value) (b : UInt8) : Value × Bool :=
  match LOCAL_PREFIX[value.matched]? with
  | none => (value, false)
  | some expected =>
    if b = expected then
      let matched := value.matched + 1
      ({ value with matched }, matched = LOCAL_PREFIX.length)
    else ({ value with matched := 255 }, false)

/-- Where a JSON document's scan is. -/
inductive Json where
  | outside
  | text
  /-- After a `\` in a string. -/
  | escape
  /-- After `\u` and `digits` hex digits of `code`. -/
  | unicode (digits : Nat) (code : UInt32)
  deriving DecidableEq, Repr

/-- The values being read at each depth and whether one is a local file reference. -/
structure Values where
  value : List Value
  json : List Json
  found : Bool
  deriving DecidableEq, Repr

namespace Values

def default : Values where
  value := List.replicate MAX_DEPTH .default
  json := List.replicate MAX_DEPTH .outside
  found := false

def setValue (v : Values) (depth : Nat) (value : Value) : Option Values :=
  if depth < v.value.length then some { v with value := v.value.set depth value } else none

def setJson (v : Values) (depth : Nat) (json : Json) : Option Values :=
  if depth < v.json.length then some { v with json := v.json.set depth json } else none

/-- A new value at `depth`. -/
def start (v : Values) (depth : Nat) : Option Values := do
  let v ← v.setValue depth .default
  v.setJson depth .outside

/-- The character of a `\u` escape: only ASCII can match or shape anything, so any other stands as one non-ASCII byte. -/
def decoded (code : UInt32) : UInt8 := if code < 128 then code.toUInt8 else 128

/-- `jsonByte` inside a string; `byte` reads the next byte of the value one level deeper. -/
def jsonText (byte : UInt8 → Values → Option Values) (depth : Nat) (b : UInt8) (v : Values) : Option Values :=
  if b = quote then v.setJson depth .outside
  else if b = backslash then v.setJson depth .escape
  else byte b v

def jsonByteWith (byte : UInt8 → Values → Option Values) (depth : Nat) (b : UInt8) (v : Values) : Option Values := do
  match ← v.json[depth]? with
  | .outside =>
    if b = quote then
      let v ← v.setJson depth .text
      v.start (depth + 1)
    else some v
  | .text => jsonText byte depth b v
  | .escape =>
    if b = letterU then v.setJson depth (.unicode 0 0)
    else
      let v ← v.setJson depth .text
      byte (unescape b) v
  | .unicode digits code =>
    match hex b with
    | some digit =>
      let code := code <<< 4 ||| digit.toUInt32
      if digits < 3 then v.setJson depth (.unicode (digits + 1) code)
      else
        let v ← v.setJson depth .text
        byte (decoded code) v
    -- No escape after all: the byte is text again.
    | none =>
      let v ← v.setJson depth .text
      jsonText byte depth b v

/-- `byte`, `levels` being how many levels there are from `depth` on. -/
def byteAt : Nat → Nat → UInt8 → Values → Option Values
  | 0, _, _, _ => none
  | levels + 1, depth, b, v => do
    let (value, found) := (← v.value[depth]?).begins b
    let v ← Values.setValue { v with found := v.found || found } depth value
    match value.shape with
    | .plain => some v
    | .json => jsonByteWith (byteAt levels (depth + 1)) depth b v
    | .leading =>
      if isSpace b then some v
      else if b = bracket || b = brace then
        if depth + 1 < MAX_DEPTH then
          let v ← v.setValue depth { value with shape := .json }
          jsonByteWith (byteAt levels (depth + 1)) depth b v
        -- Too deep to follow: refused, and the rest of the value is read as plain text.
        else Values.setValue { v with found := true } depth { value with shape := .plain }
      else v.setValue depth { value with shape := .plain }

/-- The next decoded byte of the value at `depth`. -/
def byte (v : Values) (depth : Nat) (b : UInt8) : Option Values := byteAt (MAX_DEPTH - depth) depth b v

/-- The next byte of the JSON document in the value at `depth`; the decoded bytes of its strings are values at
    `depth + 1`. -/
def jsonByte (v : Values) (depth : Nat) (b : UInt8) : Option Values :=
  jsonByteWith (fun b v => v.byte (depth + 1) b) depth b v

/-- Reads a JSON body until a reference is found. -/
def jsonScan : Values → Bytes → Option Bool
  | _, [] => some false
  | v, b :: body => do
    let v ← v.jsonByte 0 b
    if v.found then some true else jsonScan v body

end Values

/-- Whether a JSON body carries a local file reference: any string at any depth, JSON carried in a string included.
    Malformed JSON is scanned as far as it goes. -/
def jsonHasLocalFile (body : Bytes) : Option Bool := Values.default.jsonScan body

end Tgin.LocalFiles
