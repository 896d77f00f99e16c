import Mathlib.Data.List.DropRight
import Tgin.Gateway.Bots
import Tgin.Lib.JsonDoc
import Tgin.LocalFiles.Form

/-! The paths of a bot's files, of `gateway/files.rs`: which of them a file origin is asked for, and how the absolute path of a
    `getFile` answer is made relative to the bot's own directory.

    The reader of JSON is a parameter. What it borrows of a text is a slice of the text. -/

namespace Tgin.Gateway
open Rules
open LocalFiles (Bytes fromUtf8 percentDecode)

/-- `\`. -/
abbrev backslash : UInt8 := 92

/-- `:`. -/
abbrev colon : UInt8 := 58

/-- `~`. -/
abbrev tilde : UInt8 := 126

/-! ### Paths asked for -/

/-- `rel` percent-decoded once, when it is plain relative segments, at least two. -/
def checked (rel : Str) : Option Str := do
  let rel ← fromUtf8 (percentDecode rel)
  let plain := !(rel.contains 0 || rel.contains backslash) && rel.contains slash &&
    (rel.splitOn slash).all fun segment => segment ≠ [] && segment ≠ [dot] && segment ≠ [dot, dot]
  if plain then some rel else none

/-- `rel` for a file origin: its checked segments, each percent-encoded again. -/
def originPath (rel : Str) : Option Str :=
  (checked rel).map fun rel => List.intercalate [slash] ((rel.splitOn slash).map (percentEncode · TOKEN_SEGMENT))

/-! ### Paths of the bot's own -/

/-- The two names a bot's directory on the server may have. -/
def Upstream.tokenDirs (token : Str) : List Str := [token, token.map fun b => if b = colon then tilde else b]

/-- `str::strip_prefix`. -/
def strip (start text : Str) : Option Str := if start.isPrefixOf text then some (text.drop start.length) else none

/-- `str::find`. -/
def find (needle : Str) : Str → Option Nat
  | [] => if needle = [] then some 0 else none
  | b :: text => if needle.isPrefixOf (b :: text) then some 0 else (find needle text).map (· + 1)

def isSeparator (b : UInt8) : Bool := b = slash || b = backslash

/-- The root without the separators it ends with. -/
def trimmed (root : Str) : Str := root.rdropWhile isSeparator

/-- `/…`, `\…` or `X:\…` / `X:/…`. -/
def absolute : Str → Bool
  | first :: rest => isSeparator first ||
    match rest with
    | second :: third :: _ => (65 ≤ first && first ≤ 90 || 97 ≤ first && first ≤ 122) && second = colon && isSeparator third
    | _ => false
  | [] => false

/-- Where the path has the directory between the separators, and what remains after it. -/
def remainder (path : Str) (serverRoot : Option Str) (dir : Str) (sep : UInt8) : Option (Nat × Str) :=
  match serverRoot with
  | some root => do
    let rest ← strip (trimmed root) path
    let rest ← strip [sep] rest
    let rest ← strip dir rest
    let rest ← strip [sep] rest
    some (path.length - rest.length, rest)
  | none =>
    if absolute path then
      let needle := sep :: dir ++ [sep]
      (find needle path).map fun «at» => («at», path.drop («at» + needle.length))
    else none

/-- What is found for a directory and a separator, if it is not empty. -/
def candidate (path : Str) (serverRoot : Option Str) (dir : Str) (sep : UInt8) : Option (Nat × Str × UInt8) :=
  ((remainder path serverRoot dir sep).filter (·.2 ≠ [])).map fun («at», rest) => («at», rest, sep)

/-- `rest`, `\` separators (of a server on Windows) as `/`. -/
def slashed (sep : UInt8) (rest : Str) : Str := if sep = backslash then rest.map fun b => if b = backslash then slash else b else rest

/-- The non-empty remainder of `path` under the directory of the bot with `token`, with `/` separators. -/
def ownRelative (path token : Str) (serverRoot : Option Str) : Option Str :=
  let found := ((Upstream.tokenDirs token).product [slash, backslash]).foldl
    (fun found pair => (candidate path serverRoot pair.1 pair.2).elim found fun next =>
      if found.all fun first => next.1 < first.1 then some next else found)
    none
  found.map fun (_, rest, sep) => slashed sep rest

/-! ### `getFile` answers -/

/-- What is borrowed of a text. -/
structure Slice where
  start : Nat
  len : Nat
  deriving DecidableEq, Repr

def Slice.get (slice : Slice) (text : Bytes) : Option Bytes :=
  if slice.start + slice.len ≤ text.length then some ((text.drop slice.start).take slice.len) else none

/-- The names of `ok`, `result` and `file_path`. -/
def OK : Str := [111, 107]
def RESULT : Str := [114, 101, 115, 117, 108, 116]
def FILE_PATH : Str := [102, 105, 108, 101, 95, 112, 97, 116, 104]

/-- `serde_json`, as far as `getFile` answers need it. -/
structure Serde where
  /-- The record of `ok` and, unless it is `null`, `result`. -/
  answer : Bytes → Option (Bool × Option Slice)
  /-- The record of `file_path`, unless it is `null`. -/
  file : Bytes → Option (Option Slice)
  string : Bytes → Option Str
  toVec : Str → Bytes

/-- What `serde_json` is documented to do. -/
structure Serde.Documented (serde : Serde) : Prop where
  answer : ∀ text ok slice, serde.answer text = some (ok, some slice) →
    ∃ (p : JsonText.Padded) (before value after : Bytes), p.Spaced ∧ text = p.bytes ∧
      JsonText.Field [OK, RESULT] RESULT p.value before value after ∧ slice = ⟨p.before.length + before.length, value.length⟩
  file : ∀ text slice, JsonText.Value text → serde.file text = some (some slice) →
    ∃ before value after, JsonText.Field [FILE_PATH] FILE_PATH text before value after ∧ slice = ⟨before.length, value.length⟩
  string : ∀ text s, JsonText.Value text → serde.string text = some s →
    ∃ inner, text = JsonText.quoted inner ∧ JsonText.Chars inner ∧ JsonText.Stands inner s
  toVec : ∀ s, ∃ inner, serde.toVec s = JsonText.quoted inner ∧ JsonText.Chars inner ∧ JsonText.Stands inner s

/-- `body`, a successful `getFile` answer, with `result.file_path` replaced by its remainder under the directory of the bot with
    `token`. `none` when the body is no such answer or its path is not the bot's own. -/
def rewriteGetFile (serde : Serde) (body : Bytes) (token : Str) (serverRoot : Option Str) : Option Bytes := do
  let (ok, result) ← serde.answer body
  if !ok then none
  else
    let result ← result
    let text ← result.get body
    let raw ← (← serde.file text)
    let path ← serde.string (← raw.get text)
    let rel ← ownRelative path token serverRoot
    -- Where `raw` sits in the body.
    let start := result.start + raw.start
    if (Slice.mk start raw.len).get body ≠ raw.get text then none
    else some (body.take start ++ serde.toVec rel ++ body.drop (start + raw.len))

end Tgin.Gateway
