import Tgin.Config.Raw
import Tgin.Lib.JsonWrite
import Tgin.UpdateFacts.Extract

/-! The answers of the gateway's own, `tgin-botapi/src/gateway/errors.rs`. Their bytes are written by hand, as Telegram writes them;
    a reader gets the texts and numbers back that were written. -/

namespace Tgin.Gateway.Errors
open Config.Raw (number)
open JsonText (Chars Denotes Hex Stands letterU quote quoted)
open Rules
open UpdateFacts (utf8)

/-- `http::StatusCode`. -/
structure StatusCode where
  code : Nat
  range : 100 ≤ code ∧ code < 1000
  deriving DecidableEq

def StatusCode.asStr (status : StatusCode) : Str := number status.code

def StatusCode.OK : StatusCode := { code := 200, range := ⟨Nat.le_of_ble_eq_true rfl, Nat.le_of_ble_eq_true rfl⟩ }

def StatusCode.BAD_REQUEST : StatusCode := { code := 400, range := ⟨Nat.le_of_ble_eq_true rfl, Nat.le_of_ble_eq_true rfl⟩ }

def StatusCode.UNAUTHORIZED : StatusCode := { code := 401, range := ⟨Nat.le_of_ble_eq_true rfl, Nat.le_of_ble_eq_true rfl⟩ }

def StatusCode.NOT_FOUND : StatusCode := { code := 404, range := ⟨Nat.le_of_ble_eq_true rfl, Nat.le_of_ble_eq_true rfl⟩ }

def StatusCode.METHOD_NOT_ALLOWED : StatusCode := { code := 405, range := ⟨Nat.le_of_ble_eq_true rfl, Nat.le_of_ble_eq_true rfl⟩ }

def StatusCode.REQUEST_TIMEOUT : StatusCode := { code := 408, range := ⟨Nat.le_of_ble_eq_true rfl, Nat.le_of_ble_eq_true rfl⟩ }

def StatusCode.CONFLICT : StatusCode := { code := 409, range := ⟨Nat.le_of_ble_eq_true rfl, Nat.le_of_ble_eq_true rfl⟩ }

def StatusCode.PAYLOAD_TOO_LARGE : StatusCode := { code := 413, range := ⟨Nat.le_of_ble_eq_true rfl, Nat.le_of_ble_eq_true rfl⟩ }

def StatusCode.TOO_MANY_REQUESTS : StatusCode := { code := 429, range := ⟨Nat.le_of_ble_eq_true rfl, Nat.le_of_ble_eq_true rfl⟩ }

def StatusCode.INTERNAL_SERVER_ERROR : StatusCode := { code := 500, range := ⟨Nat.le_of_ble_eq_true rfl, Nat.le_of_ble_eq_true rfl⟩ }

def StatusCode.SERVICE_UNAVAILABLE : StatusCode := { code := 503, range := ⟨Nat.le_of_ble_eq_true rfl, Nat.le_of_ble_eq_true rfl⟩ }

structure Response where
  status : StatusCode
  contentType : Str
  retryAfter : Option Str
  body : Str
  deriving DecidableEq

def HEX : Str := utf8 "0123456789abcdef"

/-- What a byte of a string is written as. -/
def pushByte (b : UInt8) : Str :=
  if b = quote then [JsonText.backslash, quote]
  else if b = JsonText.backslash then [JsonText.backslash, JsonText.backslash]
  else if b = 10 then [JsonText.backslash, 110]
  else if b = 13 then [JsonText.backslash, 114]
  else if b = 9 then [JsonText.backslash, 116]
  else if b ≤ 0x1f then [JsonText.backslash, letterU, 48, 48, HEX.getD (b >>> 4).toNat 0, HEX.getD (b &&& 0xf).toNat 0]
  else [b]

/-- `s` as a JSON string. -/
def pushString (out s : Str) : Str := s.foldl (fun out b => out ++ pushByte b) (out ++ [quote]) ++ [quote]

def json (status : StatusCode) (body : Str) : Response :=
  { status, contentType := utf8 "application/json", retryAfter := none, body }

/-- A result that is JSON already is written as it is. -/
def okRaw (resultJson : Str) : Response := json .OK (utf8 "\x7b\"ok\":true,\"result\":" ++ resultJson ++ [125])

def okTrue (description : Option Str) : Response :=
  let body := utf8 "\x7b\"ok\":true,\"result\":true"
  let body := description.elim body fun description => pushString (body ++ utf8 ",\"description\":") description
  json .OK (body ++ [125])

/-- The head of an error, not closed. -/
def errorHead (status : StatusCode) (description : Str) : Str :=
  pushString (utf8 "\x7b\"ok\":false,\"error_code\":" ++ status.asStr ++ utf8 ",\"description\":") description

def error (status : StatusCode) (description : Str) : Response := json status (errorHead status description ++ [125])

def tooManyRequests (retryAfterSecs : UInt64) : Response :=
  let secs := number retryAfterSecs.toNat
  let head := errorHead .TOO_MANY_REQUESTS (utf8 "Too Many Requests: retry after " ++ secs)
  { json .TOO_MANY_REQUESTS (head ++ utf8 ",\"parameters\":\x7b\"retry_after\":" ++ secs ++ utf8 "\x7d\x7d") with
    retryAfter := some secs }

def serviceUnavailable (description : Str) (retryAfterSecs : UInt64) : Response :=
  { error .SERVICE_UNAVAILABLE description with retryAfter := some (number retryAfterSecs.toNat) }

/-! ### A string -/

/-- What stands between the quotes. -/
def literal (s : Str) : Str := s.flatMap pushByte

theorem pushString_eq (out s : Str) : pushString out s = out ++ quoted (literal s) := by
  have fold : ∀ out : Str, s.foldl (fun out b => out ++ pushByte b) out = out ++ literal s := by
    unfold literal
    induction s with
    | nil => exact fun out => (List.append_nil out).symm
    | cons b s ih =>
      intro out
      rw [List.foldl_cons, ih, List.flatMap_cons, List.append_assoc]
  rw [pushString, fold, quoted]
  simp only [List.append_assoc, List.nil_append, List.cons_append]

/-- How a byte is written: as an escape, by number or as it is. -/
inductive Written (b : UInt8) : Prop where
  | escape (e : UInt8) (bytes : pushByte b = [JsonText.backslash, e]) (stands : JsonText.escape e = some b)
  | unicode (digits : Str) (bytes : pushByte b = JsonText.backslash :: letterU :: digits) (hex : Hex digits b.toNat) (control : b < 32)
  | plain (bytes : pushByte b = [b]) (control : 32 ≤ b) (noQuote : b ≠ quote) (noEscape : b ≠ JsonText.backslash)

theorem control_digits (n : Fin 32) : JsonText.hexDigit (HEX.getD (UInt8.ofNat n >>> 4).toNat 0) = some (n / 16 : Nat) ∧
    JsonText.hexDigit (HEX.getD (UInt8.ofNat n &&& 0xf).toNat 0) = some (n % 16 : Nat) := by
  revert n
  decide

theorem written (b : UInt8) : Written b := by
  rcases eq_or_ne b quote with rfl | isQuote
  · exact .escape quote rfl rfl
  rcases eq_or_ne b JsonText.backslash with rfl | isEscape
  · exact .escape JsonText.backslash rfl rfl
  rcases eq_or_ne b 10 with rfl | isLine
  · exact .escape 110 rfl rfl
  rcases eq_or_ne b 13 with rfl | isReturn
  · exact .escape 114 rfl rfl
  rcases eq_or_ne b 9 with rfl | isTab
  · exact .escape 116 rfl rfl
  have bytes : pushByte b = if b ≤ 0x1f then
      [JsonText.backslash, letterU, 48, 48, HEX.getD (b >>> 4).toNat 0, HEX.getD (b &&& 0xf).toNat 0] else [b] := by
    rw [pushByte, if_neg isQuote, if_neg isEscape, if_neg isLine, if_neg isReturn, if_neg isTab]
  by_cases control : b ≤ 0x1f
  · have below : b.toNat < 32 := Nat.lt_succ_of_le (UInt8.le_iff_toNat_le.mp control)
    obtain ⟨high, low⟩ := control_digits ⟨b.toNat, below⟩
    rw [UInt8.ofNat_toNat] at high low
    have hex := Hex.mk (show JsonText.hexDigit 48 = some 0 from rfl) (show JsonText.hexDigit 48 = some 0 from rfl) high low
    have worth : ((0 * 16 + 0) * 16 + b.toNat / 16) * 16 + b.toNat % 16 = b.toNat := by omega
    exact .unicode _ (bytes.trans (if_pos control)) (worth ▸ hex) (UInt8.lt_iff_toNat_lt.mpr below)
  · have above : 32 ≤ b := UInt8.le_iff_toNat_le.mpr (Nat.lt_of_not_le fun le => control (UInt8.le_iff_toNat_le.mpr le))
    exact .plain (bytes.trans (if_neg control)) above isQuote isEscape

/-- A string is read back as it was. -/
theorem literal_read (s : Str) : Chars (literal s) ∧ ∀ text, Stands (literal s) text ↔ text = s := by
  unfold literal
  induction s with
  | nil =>
    refine ⟨.nil, fun text => ⟨fun stands => ?_, ?_⟩⟩
    · exact stands.eq_of_plain (List.not_mem_nil)
    · rintro rfl
      exact .nil
  | cons b s ih =>
    obtain ⟨chars, read⟩ := ih
    have back : ∀ {text tail : Str}, text = b :: tail → Stands (s.flatMap pushByte) tail → text = b :: s := fun same stands =>
      same.trans (congrArg _ ((read _).mp stands))
    rw [List.flatMap_cons]
    cases written b with
    | escape e bytes stands =>
      rw [bytes]
      refine ⟨.escape stands chars, fun text => ⟨fun h => ?_, ?_⟩⟩
      · obtain ⟨tail, same, rest⟩ := h.of_escape stands
        exact back same rest
      · rintro rfl
        exact .escape stands ((read s).mpr rfl)
    | unicode digits bytes hex control =>
      have low : b.toNat < 32 := UInt8.lt_iff_toNat_lt.mp control
      have encoded {c : Char} (char : c.toNat = b.toNat) : String.utf8EncodeChar c = [b] := by
        rw [Utf8.encodeChar_ascii (by omega), char, UInt8.ofNat_toNat]
      rw [bytes]
      refine ⟨.unicode hex chars, fun text => ⟨fun h => ?_, ?_⟩⟩
      · obtain ⟨c, tail, char, same, rest⟩ := Stands.of_unicode hex (by omega) h
        exact back (same.trans (by rw [encoded char]; rfl)) rest
      · rintro rfl
        have valid : b.toNat.isValidChar := .inl (by omega)
        have char : (Char.ofNat b.toNat).toNat = b.toNat := by
          rw [Char.ofNat, dif_pos valid]
          rfl
        have whole := Stands.unicode hex _ char ((read s).mpr rfl)
        rwa [encoded char] at whole
    | plain bytes control noQuote noEscape =>
      rw [bytes]
      refine ⟨.plain control noQuote noEscape chars, fun text => ⟨fun h => ?_, ?_⟩⟩
      · obtain ⟨tail, same, rest⟩ := Stands.of_plain noEscape h
        exact back same rest
      · rintro rfl
        exact .plain noQuote noEscape ((read s).mpr rfl)

/-! ### An answer -/

/-- The keys of the answers. -/
def KEYS : List Str := ["ok", "result", "description", "error_code", "parameters", "retry_after"].map utf8

theorem chars_key {key : Str} (mem : key ∈ KEYS) : Chars key := by
  have all : ∀ key ∈ KEYS, key.all fun b => 32 ≤ b ∧ b ≠ quote ∧ b ≠ JsonText.backslash := by decide
  exact .of_plain fun b hb => of_decide_eq_true (List.all_eq_true.mp (all key mem) b hb)

/-- A text that is written as an object of `KEYS` stands for that object alone. -/
theorem denotes_iff {text : Str} (members : List (Str × Str × JsonDoc)) (keys : members.map (·.1) ⊆ KEYS)
    (values : ∀ m ∈ members, Denotes m.2.1 m.2.2)
    (written : text = JsonText.object (members.map fun m => .bare m.1 m.2.1)) (doc : JsonDoc) :
    Denotes text doc ↔ doc = .object (members.map fun m => (m.1, m.2.2)) := by
  have denotes := JsonText.denotes_object (fun m hm => chars_key (keys (List.mem_map_of_mem hm))) values
  rw [← written] at denotes
  constructor
  · exact fun other => other.unique denotes
  · rintro rfl
    exact denotes

/-- The members of an error, each with its text and what that stands for. -/
def members (status : StatusCode) (description : Str) : List (Str × Str × JsonDoc) :=
  [(utf8 "ok", utf8 "false", .word (utf8 "false")),
   (utf8 "error_code", status.asStr, .number status.asStr),
   (utf8 "description", quoted (literal description), .string (literal description))]

theorem number_eq (n : Nat) : number n = JsonText.decimalOf n := by
  rw [number, Nat.toString_eq_ofList_toDigits, String.toList_ofList, JsonText.decimalOf]

theorem members_denote (status : StatusCode) (description : Str) : ∀ m ∈ members status description, Denotes m.2.1 m.2.2 := by
  refine List.forall_mem_cons.mpr ⟨.word (by decide), List.forall_mem_cons.mpr ⟨?_, List.forall_mem_singleton.mpr ?_⟩⟩
  · change Denotes status.asStr (.number status.asStr)
    rw [StatusCode.asStr, number_eq]
    exact JsonText.denotes_decimalOf status.code
  · exact .string (literal_read description).1

/-- An error's head and what closes it. -/
theorem errorHead_eq (status : StatusCode) (description rest : Str) : errorHead status description ++ rest =
    123 :: List.intercalate [JsonText.comma] ((members status description).map fun m => (JsonText.Member.bare m.1 m.2.1).bytes) ++
      rest := by
  have before : utf8 "\x7b\"ok\":false,\"error_code\":" = 123 :: quoted (utf8 "ok") ++ JsonText.colon :: utf8 "false" ++
      JsonText.comma :: quoted (utf8 "error_code") ++ [JsonText.colon] := by decide
  have between : utf8 ",\"description\":" = JsonText.comma :: quoted (utf8 "description") ++ [JsonText.colon] := by decide
  rw [errorHead, pushString_eq, before, between]
  simp only [members, List.map_cons, List.map_nil, List.intercalate_cons_cons, List.intercalate_singleton, JsonText.Member.bare_bytes,
    List.append_assoc, List.cons_append, List.nil_append]

/-- The document of an error, with what it has besides. -/
def errorDoc (status : StatusCode) (description : Str) (more : List (Str × JsonDoc)) : JsonDoc :=
  .object ((utf8 "ok", .word (utf8 "false")) :: (utf8 "error_code", .number status.asStr) ::
    (utf8 "description", .string (literal description)) :: more)

/-- The document of a success, with what it has besides. -/
def okDoc (result : JsonDoc) (more : List (Str × JsonDoc)) : JsonDoc :=
  .object ((utf8 "ok", .word (utf8 "true")) :: (utf8 "result", result) :: more)

theorem error_denotes (status : StatusCode) (description : Str) (doc : JsonDoc) :
    Denotes (error status description).body doc ↔ doc = errorDoc status description [] := by
  have keys : [utf8 "ok", utf8 "error_code", utf8 "description"] ⊆ KEYS := by decide
  refine denotes_iff (members status description) keys (members_denote status description) ?_ doc
  rw [JsonText.object, List.map_map]
  exact errorHead_eq status description [125]

theorem tooManyRequests_denotes (secs : UInt64) (doc : JsonDoc) : Denotes (tooManyRequests secs).body doc ↔
    doc = errorDoc .TOO_MANY_REQUESTS (utf8 "Too Many Requests: retry after " ++ number secs.toNat)
      [(utf8 "parameters", .object [(utf8 "retry_after", .number (number secs.toNat))])] := by
  have wait : Denotes (number secs.toNat) (.number (number secs.toNat)) := by
    rw [number_eq]
    exact JsonText.denotes_decimalOf secs.toNat
  have innerKeys : [utf8 "retry_after"] ⊆ KEYS := by decide
  have keys : [utf8 "ok", utf8 "error_code", utf8 "description", utf8 "parameters"] ⊆ KEYS := by decide
  have inner := (denotes_iff [(utf8 "retry_after", number secs.toNat, .number (number secs.toNat))] innerKeys
    (List.forall_mem_singleton.mpr wait) rfl _).mpr rfl
  have between : utf8 ",\"parameters\":\x7b\"retry_after\":" = JsonText.comma :: quoted (utf8 "parameters") ++
      JsonText.colon :: 123 :: quoted (utf8 "retry_after") ++ [JsonText.colon] := by decide
  have closing : utf8 "\x7d\x7d" = [125, 125] := by decide
  refine denotes_iff (members .TOO_MANY_REQUESTS (utf8 "Too Many Requests: retry after " ++ number secs.toNat) ++
    [(utf8 "parameters", JsonText.object [.bare (utf8 "retry_after") (number secs.toNat)],
      JsonDoc.object [(utf8 "retry_after", .number (number secs.toNat))])]) keys
    (List.forall_mem_append.mpr ⟨members_denote _ _, List.forall_mem_singleton.mpr inner⟩) ?_ doc
  dsimp only [tooManyRequests, json]
  rw [between, closing, List.append_assoc, List.append_assoc, errorHead_eq]
  simp only [members, JsonText.object, List.map_cons, List.map_nil, List.intercalate_cons_cons, List.intercalate_singleton,
    JsonText.Member.bare_bytes, List.append_assoc, List.cons_append, List.nil_append]

theorem okRaw_denotes {result : Str} {value : JsonDoc} (denotes : Denotes result value) (doc : JsonDoc) :
    Denotes (okRaw result).body doc ↔ doc = okDoc value [] := by
  have keys : [utf8 "ok", utf8 "result"] ⊆ KEYS := by decide
  have before : utf8 "\x7b\"ok\":true,\"result\":" = 123 :: quoted (utf8 "ok") ++ JsonText.colon :: utf8 "true" ++
      JsonText.comma :: quoted (utf8 "result") ++ [JsonText.colon] := by decide
  refine denotes_iff [(utf8 "ok", utf8 "true", .word (utf8 "true")), (utf8 "result", result, value)] keys
    (List.forall_mem_cons.mpr ⟨.word (by decide), List.forall_mem_singleton.mpr denotes⟩) ?_ doc
  dsimp only [okRaw, json]
  rw [before]
  simp only [JsonText.object, List.map_cons, List.map_nil, List.intercalate_cons_cons, List.intercalate_singleton,
    JsonText.Member.bare_bytes, List.append_assoc, List.cons_append, List.nil_append]

theorem okTrue_denotes (description : Option Str) (doc : JsonDoc) : Denotes (okTrue description).body doc ↔
    doc = okDoc (.word (utf8 "true")) (description.elim [] fun s => [(utf8 "description", .string (literal s))]) := by
  cases description with
  | none =>
    have same : (okTrue none).body = (okRaw (utf8 "true")).body := by decide
    rw [same]
    exact okRaw_denotes (.word (by decide)) doc
  | some s =>
    have keys : [utf8 "ok", utf8 "result", utf8 "description"] ⊆ KEYS := by decide
    have before : utf8 "\x7b\"ok\":true,\"result\":true" = 123 :: quoted (utf8 "ok") ++ JsonText.colon :: utf8 "true" ++
        JsonText.comma :: quoted (utf8 "result") ++ JsonText.colon :: utf8 "true" := by decide
    have between : utf8 ",\"description\":" = JsonText.comma :: quoted (utf8 "description") ++ [JsonText.colon] := by decide
    refine denotes_iff [(utf8 "ok", utf8 "true", .word (utf8 "true")), (utf8 "result", utf8 "true", .word (utf8 "true")),
      (utf8 "description", quoted (literal s), .string (literal s))] keys
      (List.forall_mem_cons.mpr ⟨.word (by decide), List.forall_mem_cons.mpr ⟨.word (by decide),
        List.forall_mem_singleton.mpr (.string (literal_read s).1)⟩⟩) ?_ doc
    dsimp only [okTrue, json, Option.elim_some]
    rw [pushString_eq, before, between]
    simp only [JsonText.object, List.map_cons, List.map_nil, List.intercalate_cons_cons, List.intercalate_singleton,
      JsonText.Member.bare_bytes, List.append_assoc, List.cons_append, List.nil_append]

/-- The gateway's own answers are read back as they were meant: each body stands for one document alone, of which a reader gets the
    code, the wait and every byte of the description, whatever is in it. -/
theorem answers_read :
    (∀ status description doc, Denotes (error status description).body doc ↔ doc = errorDoc status description []) ∧
    (∀ description secs doc, Denotes (serviceUnavailable description secs).body doc ↔
      doc = errorDoc .SERVICE_UNAVAILABLE description []) ∧
    (∀ secs doc, Denotes (tooManyRequests secs).body doc ↔
      doc = errorDoc .TOO_MANY_REQUESTS (utf8 "Too Many Requests: retry after " ++ number secs.toNat)
        [(utf8 "parameters", .object [(utf8 "retry_after", .number (number secs.toNat))])]) ∧
    (∀ description doc, Denotes (okTrue description).body doc ↔
      doc = okDoc (.word (utf8 "true")) (description.elim [] fun s => [(utf8 "description", .string (literal s))])) ∧
    (∀ result value, Denotes result value → ∀ doc, Denotes (okRaw result).body doc ↔ doc = okDoc value []) ∧
    (∀ s text, Stands (literal s) text ↔ text = s) ∧ ∀ n, JsonText.worth (number n) = n :=
  ⟨error_denotes, fun description _ => error_denotes .SERVICE_UNAVAILABLE description, tooManyRequests_denotes, okTrue_denotes,
    fun _ _ => okRaw_denotes, fun s => (literal_read s).2, fun n => (congrArg _ (number_eq n)).trans (JsonText.worth_decimalOf n)⟩

/-- A result that is a word, and a description with quotes, a line end and a control character in it. -/
theorem answers_read_quoted : Denotes (okRaw (utf8 "true")).body (okDoc (.word (utf8 "true")) []) ∧
    Stands (utf8 "no \\\"x\\\"\\n\\u0001") (utf8 "no \"x\"\n\x01") := by
  have written : literal (utf8 "no \"x\"\n\x01") = utf8 "no \\\"x\\\"\\n\\u0001" := by decide
  obtain ⟨-, -, -, -, okRaw, strings, -⟩ := answers_read
  exact ⟨(okRaw _ _ (.word (by decide)) _).mpr rfl, written ▸ (strings _ _).mpr rfl⟩

end Tgin.Gateway.Errors
