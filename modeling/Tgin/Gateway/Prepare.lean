import Tgin.Gateway.Body
import Tgin.Gateway.Bots

/-! A request on its way to a server, before anything is sent: its headers, its chat, and its body, read whole when it is small or
    streamed (`gateway/proxy.rs`, `gateway/proxy/prepare.rs`, `gateway/chat_key.rs`).

    The names of headers are in lower case, as they are held. -/

namespace Tgin.Gateway
open Rules
open LocalFiles (Bytes Encoding Refusal ScanGuard Readers ascii)

/-- Whether `method` is one of the names or starts with one of the prefixes. -/
def MethodSet.«matches» (set : MethodSet) (method : Str) : Bool :=
  set.exact.any (Str.eqIgnoreAsciiCase method) ||
    set.prefixes.any fun start => start.length ≤ method.length && Str.eqIgnoreAsciiCase (method.take start.length) start

/-- Whether `method` is one of `rate_limit.methods`, whatever the mode. -/
def Limiter.covers (limiter : Limiter) (method : Str) : Bool := limiter.methods.matches method

/-- Whether the limits apply to `method`. -/
def Limiter.applies (limiter : Limiter) (method : Str) : Bool := limiter.quotas.mode ≠ .off && limiter.covers method

/-- The exact length, where it is known, as a `u64`. -/
def SizeHint.exact64 (hint : SizeHint) : Option UInt64 := hint.exact.map .ofNat

namespace Proxy

/-! ### Headers -/

abbrev Headers := List (Str × Str)

namespace Headers

def getAll (headers : Headers) (name : Str) : List Str := (headers.filter (·.1 = name)).map (·.2)

def get (headers : Headers) (name : Str) : Option Str := (headers.getAll name).head?

end Headers

def CONNECTION : Str := ascii "connection"
def CONTENT_TYPE : Str := ascii "content-type"
def VIA : Str := ascii "via"

/-- Request headers forwarded on every route. -/
def REQUEST_HEADERS : List Str :=
  ["content-type", "content-length", "accept", "accept-encoding", "user-agent"].map ascii

/-- Request headers forwarded on file routes as well. -/
def FILE_REQUEST_HEADERS : List Str := ["range", "if-none-match", "if-modified-since"].map ascii

/-- Response headers forwarded. -/
def RESPONSE_HEADERS : List Str :=
  ["content-type", "content-length", "content-encoding", "content-disposition", "retry-after", "cache-control", "etag",
    "last-modified", "accept-ranges", "content-range"].map ascii

/-- A header's value as text: visible ASCII, spaces and tabs. -/
def toStr (value : Str) : Option Str := if value.all fun b => b = 9 || 32 ≤ b && b < 127 then some value else none

/-- Whether `sent`'s `Connection` header lists `name`. -/
def hopByHop (sent : Headers) (name : Str) : Bool :=
  ((sent.getAll CONNECTION).filterMap toStr).any fun value =>
    (value.splitOn (44 : UInt8)).any fun listed => Str.eqIgnoreAsciiCase (LocalFiles.trim listed) name

/-- Appends the values of every header of `names` that `sent` has, except those its `Connection` header names. -/
def copyHeaders (sent : Headers) (names : List Str) (out : Headers) : Headers :=
  names.foldl (fun out name => if hopByHop sent name then out else out ++ (sent.getAll name).map (name, ·)) out

/-! ### The chat -/

/-- `i64::from_str`. -/
def parseI64 (text : Bytes) : Option Int64 :=
  let (negative, digits) := match text with
    | 45 :: digits => (true, digits)
    | 43 :: digits => (false, digits)
    | _ => (false, text)
  if digits = [] ∨ !digits.all fun b => 48 ≤ b && b ≤ 57 then none
  else
    let size : Nat := digits.foldl (fun n b => 10 * n + (b.toNat - 48)) 0
    let n : Int := if negative then -(size : Int) else size
    if -2 ^ 63 ≤ n ∧ n < 2 ^ 63 then some (.ofInt n) else none

/-- The `chat_id` of a JSON or urlencoded body; `none` for any other body, multipart included, and for a value that is neither an
    integer nor an `@username`. -/
def chatKey (r : Readers) (contentType : Option Bytes) (body : Bytes) : Option ChatKey := do
  if (← LocalFiles.encoding (← contentType)) = .multipart then none
  else
    match ← LocalFiles.textParam r contentType body (ascii "chat_id") with
    | [64] => none
    | 64 :: username => (String.fromUTF8? (Str.toAsciiLowercase username).toByteArray).map .username
    | chatId => (parseI64 chatId).map .id

/-- The query string's chat. -/
def queryChat (r : Readers) (query : Option Bytes) : Option ChatKey := do
  chatKey r (some (ascii "application/x-www-form-urlencoded")) (← query)

/-! ### Bodies -/

/-- Why a request got no response from the server. -/
inductive Failed where
  /-- Reading the client's body failed. -/
  | clientClosed
  /-- The server never had the whole request. -/
  | unreachable
  /-- The body did not move for `upstream_idle_timeout`. -/
  | idle
  /-- The same, with nothing to send in the client's body. -/
  | clientIdle
  /-- The whole request was sent, and no response headers came. -/
  | noAnswer
  /-- Its parameters may not reach the bot's server. -/
  | refused (refusal : Refusal)
  /-- The bot was parked while the call waited. -/
  | parked
  deriving DecidableEq, Repr

/-- A body that goes once, through its guard where it is scanned. -/
structure Stream where
  body : Prefixed
  guard : Option ScanGuard

/-- A request body as it goes upstream. -/
inductive Payload where
  /-- Read whole: it can be sent again. -/
  | buffered (data : Bytes)
  | streamed (stream : Stream)

/-- A poll of the guarded body, which waits for a frame when `pending`. -/
def Stream.poll (stream : Stream) (pending : Bool) : Stream :=
  let (polled, body) : LocalFiles.Polled × Prefixed :=
    if pending then (.pending, stream.body)
    else match stream.body.pollFrame with
      | (none, body) => (.over, body)
      | (some (.ok frame), body) => (.frame frame, body)
      | (some (.error failure), body) => (.error failure, body)
  { body, guard := stream.guard.map fun guard => (guard.pollFrame polled body.isEndStream).1 }

/-- `failed`, or the refusal that made it fail: a guard fails the upload it refuses. -/
def refusedBy (failed : Failed) (guard : Option ScanGuard) : Failed :=
  match guard.bind (·.verdict) with
  | some (.refused refusal) => .refused refusal
  | _ => failed

/-- The longest request body read for its chat and kept to be sent again. -/
abbrev BUFFER_LIMIT : Nat := 64 * 1024

/-- A client's request. -/
structure Request where
  query : Option Bytes
  headers : Headers
  body : Body

/-- A body read up to the limit, unless it `stalled`: no frame came for `upstream_idle_timeout`. -/
def readWithin (body : Body) (limit : Nat) (stalled : Bool) : Except Failed Bounded :=
  if stalled then .error .idle
  else match readBounded body limit with
    | .ok read => .ok read
    | .error _ => .error .clientClosed

/-- Whether `prepare` reads a body. -/
def readable (req : Request) : Bool :=
  (match (req.headers.get CONTENT_TYPE).bind LocalFiles.encoding with
    | some .json | some .form => true
    | _ => false) || req.body.signs.sizeHint.exact = some 0

/-- The body of a request to buffer, and, when the limits apply, the chat it targets. `stalled` is whether reading it does. -/
def prepare (r : Readers) (req : Request) (limited stalled : Bool) : Except Failed (Payload × Option ChatKey) :=
  let contentType := req.headers.get CONTENT_TYPE
  let ofQuery := if limited then queryChat r req.query else none
  if !readable req then .ok (.streamed { body := { prefixBytes := none, rest := req.body }, guard := none }, ofQuery)
  else match readWithin req.body BUFFER_LIMIT stalled with
    | .error failed => .error failed
    | .ok (.complete data) =>
      .ok (.buffered data, if limited then (queryChat r req.query).or (chatKey r contentType data) else none)
    | .ok (.above part) => .ok (.streamed { body := part.intoBody, guard := none }, ofQuery)

/-- For a bot whose server must not get a local file reference: refuses a query string the server would read one from, and a
    request with more than one `Content-Type`; otherwise the encoding of a body to be scanned. `query` and `headers` are those
    sent. -/
def scannedEncoding (query : Option Bytes) (headers : Headers) : Except Refusal (Option Encoding) :=
  if query.any LocalFiles.formHasLocalFile then .error .localFile
  else match headers.getAll CONTENT_TYPE with
    | _ :: _ :: _ => .error .unreadable
    | contentTypes => .ok (contentTypes.head?.bind LocalFiles.encoding)

/-- Whether a body read whole carries a local file reference. -/
def hasLocalFile (scanned : Encoding) (data : Bytes) : Bool :=
  match scanned with
  | .json => LocalFiles.jsonHasLocalFile data = some true
  | .form | .multipart => LocalFiles.formHasLocalFile data

/-- `prepare` for a body whose parameters are scanned: small, it is refused when it carries a local file reference, else buffered;
    longer, or multipart, it streams through a guard. -/
def prepareScanned (r : Readers) (scanned : Encoding) (contentType : Option Bytes) (req : Request) (limited stalled : Bool) :
    Except Failed (Payload × Option ChatKey) :=
  let ofQuery := if limited then queryChat r req.query else none
  let unread : Prefixed := { prefixBytes := none, rest := req.body }
  if scanned = .multipart then
    if unread.isEndStream then .ok (.streamed { body := unread, guard := none }, ofQuery)
    else match contentType.bind LocalFiles.boundary with
      | none => .error (.refused .unreadable)
      | some boundary =>
        .ok (.streamed { body := unread, guard := some (.new unread.sizeHint.exact64 (.ofMultipart boundary)) }, ofQuery)
  else match readWithin req.body BUFFER_LIMIT stalled with
    | .error failed => .error failed
    | .ok (.complete data) =>
      if hasLocalFile scanned data then .error (.refused .localFile)
      else .ok (.buffered data, if limited then (queryChat r req.query).or (chatKey r contentType data) else none)
    | .ok (.above part) =>
      let body := part.intoBody
      if body.sizeHint.lower > LocalFiles.MAX_PARAMETERS then .error (.refused .tooLarge)
      else .ok (.streamed { body, guard := some (.new body.sizeHint.exact64 (.params scanned)) }, ofQuery)

/-! ### What is buffered -/

section
variable {r : Readers} {req : Request} {limited stalled : Bool} {data : Bytes} {chat : Option ChatKey}

theorem readWithin_complete {limit : Nat} (kept : req.body.Kept) (h : readWithin req.body limit stalled = .ok (.complete data)) :
    data = req.body.data ∧ req.body.failure = none ∧ data.length ≤ limit := by
  have reads := readBounded_reads kept limit
  unfold readWithin at h
  split at h
  · cases h
  · split at h
    · rename_i read
      cases h
      rw [read] at reads
      exact reads
    · cases h

/-- What is kept to be sent again is the whole body, and small. -/
theorem prepare_buffered (kept : req.body.Kept) (h : prepare r req limited stalled = .ok (.buffered data, chat)) :
    data = req.body.data ∧ req.body.failure = none ∧ data.length ≤ BUFFER_LIMIT := by
  unfold prepare at h
  dsimp only at h
  generalize (if limited then queryChat r req.query else none) = ofQuery at h
  split at h
  · cases h
  · split at h
    · cases h
    · rename_i read
      cases h
      exact readWithin_complete kept read
    · cases h

/-- Scanned, it carries no local file reference either. -/
theorem prepareScanned_buffered {scanned : Encoding} {contentType : Option Bytes} (kept : req.body.Kept)
    (h : prepareScanned r scanned contentType req limited stalled = .ok (.buffered data, chat)) :
    (data = req.body.data ∧ req.body.failure = none ∧ data.length ≤ BUFFER_LIMIT) ∧ hasLocalFile scanned data = false := by
  unfold prepareScanned at h
  dsimp only at h
  generalize (if limited then queryChat r req.query else none) = ofQuery at h
  split at h
  · split at h
    · cases h
    · split at h <;> cases h
  · split at h
    · cases h
    · rename_i read
      split at h
      · cases h
      · rename_i clean
        cases h
        exact ⟨readWithin_complete kept read, Bool.eq_false_iff.mpr clean⟩
    · split at h <;> cases h

end

end Proxy

end Tgin.Gateway
