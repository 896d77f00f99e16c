import Tgin.Gateway.OwnFiles
import Tgin.Lib.Split
import Tgin.Lib.UrlPath

/-! The paths of requests, `gateway/path.rs`, and the URLs below a bot's that they become, `url` of `gateway/proxy.rs`. What a URL's path
    is normalised to cannot leave the bot's. -/

namespace Tgin.Gateway
open Rules
open LocalFiles (fromUtf8 percentDecode)

/-! ### Request paths -/

/-- A request path the gateway serves. -/
inductive GatewayPath where
  /-- `[/c/<consumer>]/bot<token>/<method>`. -/
  | method (consumer : Option Str) (token method : Str)
  /-- `[/c/<consumer>]/file/bot<token>/<file_path>`. -/
  | file (consumer : Option Str) (token filePath : Str)
  deriving DecidableEq, Repr

namespace GatewayPath

abbrev dash : UInt8 := 45
abbrev underscore : UInt8 := 95

def isDigit (b : UInt8) : Bool := 48 ≤ b && b ≤ 57
def isLowercase (b : UInt8) : Bool := 97 ≤ b && b ≤ 122
def isAlphabetic (b : UInt8) : Bool := isLowercase b || 65 ≤ b && b ≤ 90
def isAlphanumeric (b : UInt8) : Bool := isAlphabetic b || isDigit b

/-- `c/`, `file/` and `bot`. -/
def CONSUMER : Str := [99, 47]
def FILE : Str := [102, 105, 108, 101, 47]
def BOT : Str := [98, 111, 116]

/-- `%2e`. -/
def ENCODED_DOT : Str := [37, 50, 101]

/-- 1 to 63 lowercase letters, digits and `-`, starting with a letter or digit. -/
def validName (name : Str) : Bool :=
  let allowed (c : UInt8) := isLowercase c || isDigit c
  name.length ≤ 63 && name.head?.any allowed && name.all fun c => allowed c || c = dash

/-- `<digits>:<secret>`. -/
def gatewayToken (token : Str) : Bool :=
  match Split.once colon token with
  | none => false
  | some (id, secret) =>
    id ≠ [] && id.all isDigit && (1 ≤ secret.length && secret.length ≤ 128) &&
      secret.all fun b => isAlphanumeric b || b = underscore || b = dash

/-- The token of a `bot<token>` segment. -/
def tokenSegment (segment : Str) : Option Str := do
  let encoded ← strip BOT segment
  (fromUtf8 (percentDecode encoded)).filter gatewayToken

/-- `[A-Za-z][A-Za-z0-9_]{0,63}`. -/
def validMethod (method : Str) : Bool :=
  method.length ≤ 64 && method.head?.any isAlphabetic && method.all fun c => isAlphanumeric c || c = underscore

/-- `.` or `..`, with any dot written as `%2e` or `%2E`. A segment is cut only between characters, which those are. -/
def isDotSegment (segment : Str) : Bool :=
  let dot (s : Str) := s = [46] || Str.eqIgnoreAsciiCase s ENCODED_DOT
  dot segment || [1, 3].any fun split => split ≤ segment.length && dot (segment.take split) && dot (segment.drop split)

def validFilePath (filePath : Str) : Bool :=
  filePath ≠ [] && !filePath.contains backslash && (filePath.splitOn slash).all fun segment => !isDotSegment segment

/-- What follows the consumer, if the path names one. -/
def consumer (rest : Str) : Option (Option Str × Str) :=
  match strip CONSUMER rest with
  | some rest => do
    let (name, rest) ← Split.once slash rest
    if validName name then some (some name, rest) else none
  | none => some (none, rest)

/-- `path`, still percent-encoded, as a gateway path. -/
def parse (path : Str) : Option GatewayPath := do
  let rest ← strip [slash] path
  let (consumer, rest) ← consumer rest
  match strip FILE rest with
  | some rest =>
    let (token, filePath) ← Split.once slash rest
    let token ← tokenSegment token
    if validFilePath filePath then some (.file consumer token filePath) else none
  | none =>
    let (token, name) ← Split.once slash rest
    let token ← tokenSegment token
    if validMethod name then some (.method consumer token name) else none

end GatewayPath

/-- `base` with `rest` appended to its path, and `query` as the query. -/
def url (u : Urls) (base : u.Url) (rest : Str) (query : Option Str) : u.Url :=
  u.setQuery (u.setPath base (u.path base ++ rest)) query

/-! ### What is claimed -/

/-- The schemes a configured URL may have, `http` and `https`. -/
def Urls.IsWeb (u : Urls) (url : u.Url) : Prop :=
  u.scheme url = [104, 116, 116, 112] ∨ u.scheme url = [104, 116, 116, 112, 115]

/-- The crate follows the URL standard. -/
structure Urls.Standard (u : Urls) : Prop where
  path : ∀ url, u.IsWeb url → ∃ text, u.path url = UrlPath.parse text
  /-- A text without controls and spaces, which are taken out of some. -/
  setPath : ∀ url text, u.IsWeb url → (∀ b ∈ text, 32 < b ∧ b ≠ 127) → u.path (u.setPath url text) = UrlPath.parse text
  setPath_scheme : ∀ url text, u.scheme (u.setPath url text) = u.scheme url
  setQuery : ∀ url query, u.path (u.setQuery url query) = u.path url ∧ u.scheme (u.setQuery url query) = u.scheme url
  setFragment : ∀ url fragment, u.path (u.setFragment url fragment) = u.path url ∧ u.scheme (u.setFragment url fragment) = u.scheme url
  popIfEmpty : ∀ url, u.scheme (u.popIfEmpty url) = u.scheme url
  push : ∀ url segment, u.scheme (u.push url segment) = u.scheme url
  /-- An empty segment at the end is a separator there. -/
  push_nil : ∀ url, u.IsWeb url → (u.path (u.push url [])).getLast? = some slash

namespace GatewayPath

/-- A path that a request target may hold: no controls, spaces, `?` or `#`. -/
def RequestTarget (path : Str) : Prop := ∀ b ∈ path, 32 < b ∧ b ≠ 127 ∧ b ≠ 63 ∧ b ≠ 35

/-- The file route that a path names but for its file path. -/
inductive Routes : (path : Str) → (consumer : Option Str) → (token filePath : Str) → Prop where
  | own {segment token filePath : Str} (decoded : tokenSegment segment = some token) (one : slash ∉ segment) :
    Routes (slash :: FILE ++ (segment ++ slash :: filePath)) none token filePath
  | named {name segment token filePath : Str} (valid : validName name) (decoded : tokenSegment segment = some token)
    (one : slash ∉ segment) : Routes (slash :: CONSUMER ++ (name ++ slash :: (FILE ++ (segment ++ slash :: filePath))))
      (some name) token filePath

/-- The file path stays below the directory of the bot however a URL's path is normalised. -/
structure Stays (filePath : Str) : Prop where
  ne : filePath ≠ []
  noBackslash : backslash ∉ filePath
  noDots : ∀ segment ∈ filePath.splitOn slash, UrlPath.isDots segment = false

variable (u : Urls)

/-- What the proxy asks for, of a request path, below the base of a bot's upstream. -/
inductive Asks (path : Str) : (base : u.Url) → (rest : Str) → Prop where
  | method {consumer : Option Str} {token method : Str} (parsed : parse path = some (.method consumer token method))
    {upstream : Upstream u} {botToken : Str} {base : u.Url} (web : u.IsWeb upstream.url)
    (made : Gateway.base upstream.url [botSegment botToken] = some base) : Asks path base method
  | file {consumer : Option Str} {token filePath : Str} (parsed : parse path = some (.file consumer token filePath))
    {upstream : Upstream u} {botToken : Str} {base : u.Url} (web : u.IsWeb upstream.url)
    (made : FileTarget.new upstream botToken = some (.proxy base)) : Asks path base filePath
  | origin {consumer : Option Str} {token filePath rest : Str} (parsed : parse path = some (.file consumer token filePath))
    (encoded : originPath filePath = some rest) {filesUrl base : u.Url} {botToken : Str} (web : u.IsWeb filesUrl)
    (made : originBase filesUrl botToken = some base) : Asks path base rest

/-! ### Dot segments -/

section
variable {segment filePath path : Str}

theorem lowercase_eq (text : Str) : Str.toAsciiLowercase text = UrlPath.lowercase text := rfl

set_option maxRecDepth 2000 in
theorem eq_dot_of_lowerByte : ∀ b : UInt8, UrlPath.lowerByte b = 46 → b = 46 := UrlPath.forall_byte (by decide)

/-- One dot, in either spelling. -/
theorem isDot_iff {text : Str} : (text = [46] || Str.eqIgnoreAsciiCase text ENCODED_DOT) = true ↔
    UrlPath.lowercase text ∈ UrlPath.DOT := by
  rw [Bool.or_eq_true, decide_eq_true_eq, Str.eqIgnoreAsciiCase, decide_eq_true_eq, lowercase_eq, lowercase_eq]
  refine (or_congr ?_ Iff.rfl).trans (by simp only [UrlPath.DOT, List.mem_cons, List.not_mem_nil, or_false]; exact Iff.rfl)
  constructor
  · rintro rfl
    rfl
  · intro h
    obtain ⟨b, rfl, hb⟩ := List.map_eq_singleton_iff.mp h
    rw [eq_dot_of_lowerByte b hb]

/-- Two dots are spelled by one after the other. -/
theorem mem_DOTS_iff {text : List UInt8} : text ∈ UrlPath.DOTS ↔
    ∃ split ∈ [1, 3], split ≤ text.length ∧ text.take split ∈ UrlPath.DOT ∧ text.drop split ∈ UrlPath.DOT := by
  constructor
  · have all : UrlPath.DOTS.all fun text =>
        [1, 3].any fun split => split ≤ text.length && UrlPath.DOT.contains (text.take split) &&
          UrlPath.DOT.contains (text.drop split) := by
      decide
    intro h
    have := List.all_eq_true.mp all text h
    simpa [and_assoc] using this
  · rintro ⟨split, -, -, first, second⟩
    have all : UrlPath.DOT.all fun first => UrlPath.DOT.all fun second => UrlPath.DOTS.contains (first ++ second) := by decide
    have joined := List.all_eq_true.mp (List.all_eq_true.mp all _ first) _ second
    rwa [List.take_append_drop, List.contains_iff_mem] at joined

/-- The segments that the path does not keep are those that a URL's path does not. -/
theorem isDotSegment_eq (segment : Str) : isDotSegment segment = UrlPath.isDots segment := by
  rw [Bool.eq_iff_iff, UrlPath.isDots_iff, List.mem_append, mem_DOTS_iff]
  refine Bool.or_eq_true_iff.trans (or_congr isDot_iff (List.any_eq_true.trans (exists_congr fun split => and_congr_right fun _ => ?_)))
  rw [Bool.and_eq_true, Bool.and_eq_true, isDot_iff, isDot_iff, decide_eq_true_eq, and_assoc]
  simp only [UrlPath.lowercase, List.length_map, List.map_take, List.map_drop]

theorem validFilePath_iff : validFilePath filePath = true ↔ Stays filePath := by
  rw [validFilePath, Bool.and_eq_true, Bool.and_eq_true, decide_eq_true_eq, List.all_eq_true, List.contains_eq_mem, Bool.not_eq_true',
    decide_eq_false_iff_not]
  constructor
  · rintro ⟨⟨ne, noBackslash⟩, noDots⟩
    exact ⟨ne, noBackslash, fun s h => by rw [← isDotSegment_eq, ← Bool.not_eq_true', noDots s h]⟩
  · rintro ⟨ne, noBackslash, noDots⟩
    exact ⟨⟨ne, noBackslash⟩, fun s h => by rw [isDotSegment_eq, noDots s h]; rfl⟩

/-! ### Routes -/

variable {rest tail name token : Str} {consumed : Option Str}

theorem validName_noSlash (valid : validName name = true) : slash ∉ name := by
  intro mem
  simp only [validName, Bool.and_eq_true, List.all_eq_true] at valid
  exact absurd (valid.2 _ mem) (by decide)

theorem consumer_none : consumer rest = some (none, tail) ↔ rest = tail ∧ strip CONSUMER rest = none := by
  unfold consumer
  split
  · rename_i named
    rw [named]
    refine iff_of_false (fun h => ?_) fun h => nomatch h.2
    simp only [Option.bind_eq_bind, Option.bind_eq_some_iff] at h
    obtain ⟨⟨name, rest⟩, -, h⟩ := h
    dsimp only at h
    split at h <;> cases h
  · rename_i bare
    rw [Option.some.injEq, Prod.mk.injEq, and_iff_right rfl, and_iff_left bare]

theorem consumer_some : consumer rest = some (some name, tail) ↔ rest = CONSUMER ++ (name ++ slash :: tail) ∧ validName name := by
  unfold consumer
  constructor
  · intro h
    split at h
    · rename_i named
      simp only [Option.bind_eq_bind, Option.bind_eq_some_iff] at h
      obtain ⟨⟨first, after⟩, cut, h⟩ := h
      dsimp only at h
      split at h
      · rename_i valid
        cases h
        rw [strip_eq_some.mp named, (Split.once_eq_some.mp cut).1]
        exact ⟨rfl, valid⟩
      · cases h
    · cases h
  · rintro ⟨rfl, valid⟩
    have named : strip CONSUMER (CONSUMER ++ (name ++ slash :: tail)) = some (name ++ slash :: tail) := strip_eq_some.mpr rfl
    have cut : Split.once slash (name ++ slash :: tail) = some (name, tail) := Split.once_append (validName_noSlash valid)
    simp only [named, cut, Option.bind_eq_bind, Option.bind_some, valid, if_true]

/-- A path is parsed as a file's by its own parts. -/
theorem parse_file_iff : parse path = some (.file consumed token filePath) ↔ ∃ rest segment, path = slash :: rest ∧
    consumer rest = some (consumed, FILE ++ (segment ++ slash :: filePath)) ∧ slash ∉ segment ∧ tokenSegment segment = some token ∧
    validFilePath filePath := by
  unfold parse
  simp only [Option.bind_eq_bind, Option.bind_eq_some_iff]
  constructor
  · rintro ⟨rest, lead, ⟨_, tail⟩, taken, h⟩
    dsimp only at h
    split at h
    · rename_i after file
      simp only [Option.bind_eq_some_iff] at h
      obtain ⟨⟨segment, _⟩, cut, _, decoded, h⟩ := h
      dsimp only at h
      split at h
      · rename_i valid
        cases h
        obtain ⟨rfl, one⟩ := Split.once_eq_some.mp cut
        exact ⟨rest, segment, strip_eq_some.mp lead, strip_eq_some.mp file ▸ taken, one, decoded, valid⟩
      · cases h
    · simp only [Option.bind_eq_some_iff] at h
      obtain ⟨⟨segment, _⟩, -, _, -, h⟩ := h
      dsimp only at h
      split at h <;> cases h
  · rintro ⟨rest, segment, rfl, taken, one, decoded, valid⟩
    refine ⟨rest, strip_eq_some.mpr rfl, _, taken, ?_⟩
    have file : strip FILE (FILE ++ (segment ++ slash :: filePath)) = some (segment ++ slash :: filePath) := strip_eq_some.mpr rfl
    simp only [file, Split.once_append one, decoded, Option.bind_some, valid, if_true]

theorem parse_method (parsed : parse path = some (.method consumed token name)) : validMethod name = true := by
  unfold parse at parsed
  simp only [Option.bind_eq_bind, Option.bind_eq_some_iff] at parsed
  obtain ⟨_, -, ⟨_, _⟩, -, parsed⟩ := parsed
  dsimp only at parsed
  split at parsed
  · simp only [Option.bind_eq_some_iff] at parsed
    obtain ⟨⟨_, _⟩, -, _, -, parsed⟩ := parsed
    dsimp only at parsed
    split at parsed <;> cases parsed
  · simp only [Option.bind_eq_some_iff] at parsed
    obtain ⟨⟨_, _⟩, -, _, -, parsed⟩ := parsed
    dsimp only at parsed
    split at parsed
    · cases parsed
      assumption
    · cases parsed

theorem file_noConsumer (text : Str) : strip CONSUMER (FILE ++ text) = none := rfl

/-- The files that are served are those that stay. -/
theorem parse_file : parse path = some (.file consumed token filePath) ↔ Routes path consumed token filePath ∧ Stays filePath := by
  rw [parse_file_iff]
  constructor
  · rintro ⟨rest, segment, rfl, taken, one, decoded, valid⟩
    refine ⟨?_, validFilePath_iff.mp valid⟩
    cases consumed with
    | none =>
      obtain ⟨rfl, -⟩ := consumer_none.mp taken
      exact .own decoded one
    | some name =>
      obtain ⟨rfl, named⟩ := consumer_some.mp taken
      exact .named named decoded one
  · rintro ⟨routes, stays⟩
    have valid := validFilePath_iff.mpr stays
    cases routes with
    | own decoded one => exact ⟨_, _, rfl, consumer_none.mpr ⟨rfl, file_noConsumer _⟩, one, decoded, valid⟩
    | named named decoded one => exact ⟨_, _, rfl, consumer_some.mpr ⟨rfl, named⟩, one, decoded, valid⟩

/-! ### What is asked for -/

/-- A text that no part of a path below which it comes is lost to. -/
structure Below (rest : Str) : Prop where
  noBackslash : backslash ∉ rest
  noDots : ∀ segment ∈ rest.splitOn slash, UrlPath.isDots segment = false
  bytes : ∀ b ∈ rest, 32 < b ∧ b ≠ 127

set_option maxRecDepth 2000 in
theorem bytes_of_not_encodes : ∀ b : UInt8, UrlPath.encodes b = false → 32 < b ∧ b ≠ 127 := UrlPath.forall_byte (by decide)

set_option maxRecDepth 2000 in
theorem word_byte : ∀ b : UInt8, (isAlphanumeric b || b = underscore) = true →
    b ≠ slash ∧ b ≠ backslash ∧ 32 < b ∧ b ≠ 127 ∧ UrlPath.lowerByte b ∉ [(46 : UInt8), 37] := UrlPath.forall_byte (by decide)

/-- Dots are spelled from a dot or a `%` on. -/
theorem spelled_head {text : List UInt8} (h : text ∈ UrlPath.DOT ++ UrlPath.DOTS) : ∃ b ∈ text, b ∈ [(46 : UInt8), 37] := by
  have all : (UrlPath.DOT ++ UrlPath.DOTS).all fun text => text.any fun b => b ∈ [(46 : UInt8), 37] := by decide
  obtain ⟨b, hb, first⟩ := List.any_eq_true.mp (List.all_eq_true.mp all text h)
  exact ⟨b, hb, of_decide_eq_true first⟩

theorem isDots_of_forall (plain : ∀ b ∈ segment, UrlPath.lowerByte b ∉ [(46 : UInt8), 37]) : UrlPath.isDots segment = false := by
  rw [← Bool.not_eq_true, UrlPath.isDots_iff]
  intro dots
  obtain ⟨_, mem, first⟩ := spelled_head dots
  obtain ⟨b, hb, rfl⟩ := List.mem_map.mp mem
  exact plain b hb first

theorem below_method (valid : validMethod name = true) : Below name := by
  simp only [validMethod, Bool.and_eq_true, List.all_eq_true] at valid
  have bytes := fun b hb => word_byte b (valid.2 b hb)
  have one : slash ∉ name := fun mem => (bytes _ mem).1 rfl
  refine ⟨fun mem => (bytes _ mem).2.1 rfl, ?_, fun b hb => ⟨(bytes b hb).2.2.1, (bytes b hb).2.2.2.1⟩⟩
  rw [List.splitOn_eq_singleton one]
  exact List.forall_mem_singleton.mpr (isDots_of_forall fun b hb => (bytes b hb).2.2.2.2)

theorem mem_of_routes (routes : Routes path consumed token filePath) {b : UInt8} (hb : b ∈ filePath) : b ∈ path := by
  cases routes with
  | own => exact List.mem_append_right _ (List.mem_append_right _ (List.mem_cons_of_mem _ hb))
  | named =>
    refine List.mem_append_right _ (List.mem_append_right _ (List.mem_cons_of_mem _ (List.mem_append_right _ ?_)))
    exact List.mem_append_right _ (List.mem_cons_of_mem _ hb)

theorem below_file (routes : Routes path consumed token filePath) (stays : Stays filePath) (target : RequestTarget path) :
    Below filePath where
  noBackslash := stays.noBackslash
  noDots := stays.noDots
  bytes b hb := ⟨(target b (mem_of_routes routes hb)).1, (target b (mem_of_routes routes hb)).2.1⟩

theorem tokenSegment_byte : ∀ b : UInt8, TOKEN_SEGMENT b = false → b ≠ slash ∧ b ≠ backslash ∧ b ≠ 37 ∧ 32 < b ∧ b ≠ 127 := by
  set_option maxRecDepth 2000 in exact UrlPath.forall_byte (by decide)

/-- What a segment is encoded to stays one. -/
theorem mem_encoded {b : UInt8} (h : b ∈ percentEncode segment TOKEN_SEGMENT) : b ≠ slash ∧ b ≠ backslash ∧ 32 < b ∧ b ≠ 127 := by
  rcases UrlPath.mem_percentEncode h with ⟨done, inner⟩ | ⟨-, kept⟩
  · refine ⟨?_, ?_, bytes_of_not_encodes b done⟩
    · rintro rfl
      cases inner
    · rintro rfl
      cases inner
  · have := tokenSegment_byte b kept
    exact ⟨this.1, this.2.1, this.2.2.2⟩

set_option maxRecDepth 2000 in
theorem eq_percent_of_lowerByte : ∀ b : UInt8, UrlPath.lowerByte b = 37 → b = 37 := UrlPath.forall_byte (by decide)

theorem plain_of_spelled : ∀ text ∈ UrlPath.DOT ++ UrlPath.DOTS, 37 ∉ text → text = [46] ∨ text = [46, 46] := by decide

/-- Dots are written out as they are, or not at all. -/
theorem isDots_encoded (noDot : segment ≠ [dot]) (noDots : segment ≠ [dot, dot]) :
    UrlPath.isDots (percentEncode segment TOKEN_SEGMENT) = false := by
  by_cases kept : ∀ b ∈ segment, TOKEN_SEGMENT b = false
  · have same : percentEncode segment TOKEN_SEGMENT = segment := UrlPath.percentEncode_eq_self kept
    rw [same, ← Bool.not_eq_true, UrlPath.isDots_iff]
    intro dots
    have noPercent : 37 ∉ UrlPath.lowercase segment := fun mem => by
      obtain ⟨b, hb, low⟩ := List.mem_map.mp mem
      exact (tokenSegment_byte b (kept b hb)).2.2.1 (eq_percent_of_lowerByte b low)
    rcases plain_of_spelled _ dots noPercent with one | two
    · obtain ⟨b, rfl, low⟩ := List.map_eq_singleton_iff.mp one
      exact noDot (by rw [eq_dot_of_lowerByte b low])
    · obtain ⟨b, rest, rfl, low, last⟩ := List.map_eq_cons_iff.mp two
      obtain ⟨c, rfl, low'⟩ := List.map_eq_singleton_iff.mp last
      exact noDots (by rw [eq_dot_of_lowerByte b low, eq_dot_of_lowerByte c low'])
  · simp only [not_forall, Bool.not_eq_false] at kept
    obtain ⟨b, hb, encoded⟩ := kept
    exact UrlPath.isDots_percentEncode rfl hb encoded

theorem below_origin (encoded : originPath filePath = some rest) : Below rest := by
  obtain ⟨plain, isChecked, rfl⟩ := Option.map_eq_some_iff.mp encoded
  obtain ⟨same, -, segments⟩ := originPath_spec encoded
  rw [percentDecode_joined, List.intercalate_splitOn] at same
  subst same
  set parts := (percentDecode filePath).splitOn slash
  have ne : parts.map (percentEncode · TOKEN_SEGMENT) ≠ [] := by
    rw [ne_eq, List.map_eq_nil_iff]
    exact List.splitOn_ne_nil _ _
  have cut := List.splitOn_intercalate slash (fun segment (h : segment ∈ parts.map (percentEncode · TOKEN_SEGMENT)) mem => by
    obtain ⟨part, -, rfl⟩ := List.mem_map.mp h
    exact (mem_encoded mem).1 rfl) ne
  have bytes : ∀ b ∈ List.intercalate [slash] (parts.map (percentEncode · TOKEN_SEGMENT)), b ≠ backslash ∧ 32 < b ∧ b ≠ 127 := by
    intro b hb
    have listed : b ∈ UrlPath.serialize (parts.map (percentEncode · TOKEN_SEGMENT)) := by
      rw [UrlPath.serialize_eq _ ne]
      exact List.mem_cons_of_mem _ hb
    obtain ⟨segment, h, mem⟩ := List.mem_flatMap.mp listed
    obtain ⟨part, -, rfl⟩ := List.mem_map.mp h
    rcases List.mem_cons.mp mem with rfl | mem
    · decide
    · exact (mem_encoded mem).2
  refine ⟨fun mem => (bytes _ mem).1 rfl, ?_, fun b hb => (bytes b hb).2⟩
  rw [cut]
  intro segment h
  obtain ⟨part, mem, rfl⟩ := List.mem_map.mp h
  exact isDots_encoded (segments part mem).2.1 (segments part mem).2.2

/-! ### Bases -/

/-- A base that what is asked for comes below. -/
structure IsBase (u : Urls) (base : u.Url) : Prop where
  web : u.IsWeb base
  ends : (u.path base).getLast? = some slash

variable {u : Urls}

theorem IsWeb.of_scheme {url other : u.Url} (web : u.IsWeb url) (same : u.scheme other = u.scheme url) : u.IsWeb other := by
  unfold Urls.IsWeb at web ⊢
  rwa [same]

/-- The URL without its query and its fragment. -/
theorem isWeb_bare (standard : u.Standard) {url : u.Url} (web : u.IsWeb url) : u.IsWeb (u.setFragment (u.setQuery url none) none) :=
  IsWeb.of_scheme web ((standard.setFragment _ _).2.trans (standard.setQuery _ _).2)

theorem isBase_base (standard : u.Standard) {apiUrl base : u.Url} {segments : List Str} (web : u.IsWeb apiUrl)
    (made : Gateway.base apiUrl segments = some base) : IsBase u base := by
  unfold Gateway.base at made
  dsimp only at made
  split at made
  · cases made
  · cases made
    have below : u.IsWeb (segments.foldl u.push (u.popIfEmpty (u.setFragment (u.setQuery apiUrl none) none))) :=
      List.foldlRecOn segments u.push (IsWeb.of_scheme (isWeb_bare standard web) (standard.popIfEmpty _))
        fun _ web _ _ => IsWeb.of_scheme web (standard.push _ _)
    exact ⟨IsWeb.of_scheme below (standard.push _ _), standard.push_nil _ below⟩

theorem path_byte (standard : u.Standard) {url : u.Url} (web : u.IsWeb url) : ∀ b ∈ u.path url, 32 < b ∧ b ≠ 127 := by
  obtain ⟨text, eq⟩ := standard.path url web
  rw [eq]
  exact fun b hb => bytes_of_not_encodes b (UrlPath.encodes_of_mem_parse hb)

theorem isBase_origin (standard : u.Standard) {filesUrl base : u.Url} {botToken : Str} (web : u.IsWeb filesUrl)
    (made : originBase filesUrl botToken = some base) : IsBase u base := by
  unfold originBase at made
  split at made
  · cases made
  · cases made
    have bare := isWeb_bare standard web
    refine ⟨IsWeb.of_scheme bare (standard.setPath_scheme _ _), ?_⟩
    rw [standard.setPath _ _ bare]
    · exact UrlPath.getLast?_parse _
    · have lead : ∀ b ∈ [slash], 32 < b ∧ b ≠ 127 := List.forall_mem_singleton.mpr (by decide)
      have old := path_byte standard bare
      refine List.forall_mem_append.mpr ⟨List.forall_mem_append.mpr ⟨?_, fun b hb => (mem_encoded hb).2.2⟩, lead⟩
      split
      · exact old
      · exact List.forall_mem_append.mpr ⟨old, lead⟩

/-- What is asked for of a path comes below a base, and no part of it is lost to. -/
theorem asks_spec (standard : u.Standard) {base : u.Url} (target : RequestTarget path) (asks : Asks u path base rest) :
    IsBase u base ∧ Below rest := by
  cases asks with
  | method parsed web made =>
    refine ⟨isBase_base standard web made, below_method ?_⟩
    exact parse_method parsed
  | file parsed web made =>
    obtain ⟨routes, stays⟩ := parse_file.mp parsed
    refine ⟨?_, below_file routes stays target⟩
    unfold FileTarget.new at made
    split at made
    · split at made
      · obtain ⟨_, made, ⟨⟩⟩ := Option.map_eq_some_iff.mp made
        exact isBase_base standard web made
      · cases made
    · cases made
    · obtain ⟨_, _, ⟨⟩⟩ := Option.map_eq_some_iff.mp made
  | origin parsed encoded web made => exact ⟨isBase_origin standard web made, below_origin encoded⟩

theorem path_url (standard : u.Standard) {base : u.Url} (isBase : IsBase u base) (below : Below rest) (query : Option Str) :
    u.path (url u base rest query) = u.path base ++ UrlPath.encode rest := by
  rw [url, (standard.setQuery _ _).1, standard.setPath _ _ isBase.web]
  · exact UrlPath.parse_append (standard.path base isBase.web) isBase.ends below.noBackslash below.noDots
  · exact List.forall_mem_append.mpr ⟨path_byte standard isBase.web, below.bytes⟩

/-- Of the paths that name a file, those are parsed whose file path stays where it is in every spelling; and whatever is asked for of
    a request's path, the path of its URL starts with that of the bot's base. -/
theorem paths_stay (standard : u.Standard) :
    (∀ path consumer token filePath,
      parse path = some (.file consumer token filePath) ↔ Routes path consumer token filePath ∧ Stays filePath) ∧
    ∀ path base rest query, RequestTarget path → Asks u path base rest →
      u.path (url u base rest query) = u.path base ++ UrlPath.encode rest :=
  ⟨fun _ _ _ _ => parse_file, fun _ _ _ query target asks =>
    path_url standard (asks_spec standard target asks).1 (asks_spec standard target asks).2 query⟩

end

/-! ### A file below a bot -/

/-- A URL, its path by a text for it. -/
structure Parts where
  scheme : Str
  host : Str
  text : Str
  query : Option Str
  fragment : Option Str
  deriving DecidableEq, Repr

/-- A path segment that is pushed has no separator, dots or `%` of its own. -/
def inSegment (b : UInt8) : Bool := UrlPath.encodes b || UrlPath.isSeparator b || b = 37

def popped (path : Str) : Str := if 2 ≤ path.length ∧ path.getLast? = some slash then path.dropLast else path

def pushed (path segment : Str) : Str :=
  if segment = [dot] ∨ segment = [dot, dot] then path
  else (if path = [slash] then path else path ++ [slash]) ++ UrlPath.percentEncode inSegment segment

def standardUrls : Urls where
  Url := Parts
  decEq := inferInstance
  scheme := Parts.scheme
  hostStr url := some url.host
  cannotBeABase _ := false
  setQuery url query := { url with query }
  setFragment url fragment := { url with fragment }
  path url := UrlPath.parse url.text
  setPath url text := { url with text }
  popIfEmpty url := { url with text := popped (UrlPath.parse url.text) }
  push url segment := { url with text := pushed (UrlPath.parse url.text) segment }

theorem standardUrls_standard : standardUrls.Standard where
  path url _ := ⟨url.text, rfl⟩
  setPath _ _ _ _ := rfl
  setPath_scheme _ _ := rfl
  setQuery _ _ := ⟨rfl, rfl⟩
  setFragment _ _ := ⟨rfl, rfl⟩
  popIfEmpty _ := rfl
  push _ _ := rfl
  push_nil url _ := by
    change (UrlPath.parse (pushed (UrlPath.parse url.text) [])).getLast? = some slash
    rw [pushed, if_neg (by decide), show UrlPath.percentEncode inSegment [] = [] from rfl, List.append_nil]
    split
    · rename_i root
      rw [root]
      rfl
    · exact UrlPath.getLast?_parse _

/-- `https://h/`, with the files of bots below it. -/
def cloud : Upstream standardUrls where
  name := [117]
  kind := .cloud
  url := { scheme := [104, 116, 116, 112, 115], host := [104], text := [slash], query := none, fragment := none }
  localMode := false
  files := none
  responseTimeout := 10 ^ 9

/-- `/file/bot1:a/d/f`. -/
def filePath : Str := [47, 102, 105, 108, 101, 47, 98, 111, 116, 49, 58, 97, 47, 100, 47, 102]

/-- `https://h/file/bot1:a/`. -/
def fileBase : Parts where
  scheme := [104, 116, 116, 112, 115]
  host := [104]
  text := [47, 102, 105, 108, 101, 47, 98, 111, 116, 49, 58, 97, 47]
  query := none
  fragment := none

theorem paths_stay_file : standardUrls.path (url standardUrls fileBase [100, 47, 102] none) = standardUrls.path fileBase ++
    [100, 47, 102] := by
  have plain : percentDecode [49, 58, 97] = [49, 58, 97] := by
    rw [LocalFiles.percentDecode_cons, LocalFiles.percentDecode_cons, LocalFiles.percentDecode_cons, percentDecode] <;> decide
  have decoded : tokenSegment [98, 111, 116, 49, 58, 97] = some [49, 58, 97] := by
    change (fromUtf8 (percentDecode [49, 58, 97])).filter gatewayToken = _
    rw [plain]
    decide
  have routes : Routes filePath none [49, 58, 97] [100, 47, 102] := .own decoded (by decide)
  have parsed : parse filePath = some (.file none [49, 58, 97] [100, 47, 102]) := parse_file.mpr ⟨routes, by decide, by decide, by decide⟩
  have made : FileTarget.new cloud [49, 58, 97] = some (.proxy fileBase) := rfl
  have target : RequestTarget filePath := fun b hb => by
    have all : filePath.all fun b => 32 < b && b ≠ 127 && b ≠ 63 && b ≠ 35 := by decide
    simpa [and_assoc] using List.all_eq_true.mp all b hb
  exact (paths_stay standardUrls_standard).2 filePath fileBase [100, 47, 102] none target (.file parsed (.inr rfl) made)

end GatewayPath

end Tgin.Gateway
