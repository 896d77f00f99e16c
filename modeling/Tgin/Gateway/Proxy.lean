import Tgin.Gateway.Prepare

/-! The streaming proxy (`gateway/proxy.rs`, `gateway/proxy/transfer.rs`): a request goes to its server, once more after a 429
    that it may wait out, and the answer goes back. What `forward` does between two awaits is one step; with the step comes what
    it finds then: the clock, the bot's gate, what the limits answer. -/

namespace Tgin.Gateway.Proxy
open Rules
open LocalFiles (Bytes Encoding Refusal ascii)

variable {u : Urls}

/-! ### Requests -/

/-- What a Bot API error body says of a flood, as far as it is read. -/
structure Parameters where
  retryAfter : Option UInt64
  deriving DecidableEq, Repr

structure Flood where
  parameters : Option Parameters
  deriving DecidableEq, Repr

variable (u) in
/-- What the proxy reads with: the readers of the parameters, `Url::query`, and `serde_json` for a 429's body. -/
structure Reading where
  params : LocalFiles.Readers
  query : u.Url → Option Bytes
  flood : Bytes → Option Flood

/-- `parameters.retry_after` of a Bot API error body. -/
def retryAfter (c : Reading u) (body : Bytes) : Option Duration := do
  (← (← c.flood body).parameters).retryAfter.map fun secs => secs.toNat * 10 ^ 9

variable (u) in
/-- What a gateway path asks of the upstream. -/
inductive Upstream where
  | method (method : Str)
  /-- A path below the bot's file base, on the Bot API server itself or on a file origin. -/
  | file (base : u.Url) (path : Str) (server : Bool)

/-- `base` with `rest` appended to its path, and `query` as the query. -/
def url (base : u.Url) (rest : Str) (query : Option Str) : u.Url := u.setQuery (u.setPath base (u.path base ++ rest)) query

variable (u) in
/-- A request forwarded, with its bot's entry and limiter. -/
structure Forward where
  bot : Bot u
  limiter : Limiter
  upstream : Upstream u
  req : Request

variable (u) in
/-- What goes to the server. -/
structure Sent where
  url : u.Url
  headers : Headers
  payload : Payload

namespace Forward
variable (f : Forward u)

def method : Option Str :=
  match f.upstream with
  | .method method => some method
  | .file .. => none

/-- Whether it goes to the bot's Bot API server. -/
def server : Bool :=
  match f.upstream with
  | .method _ => true
  | .file _ _ server => server

def url : u.Url :=
  match f.upstream with
  | .method method => Proxy.url f.bot.methodBase method f.req.query
  | .file base path _ => Proxy.url base path f.req.query

/-- Whether the bot's limits apply to the method. -/
def limited : Bool := f.method.any f.limiter.applies

/-- Whether a small body is buffered, to be sent again. -/
def resendable : Bool := f.limited || f.bot.gateway.retry429MaxWait ≠ 0 && f.method.any f.limiter.covers

def headers : Headers :=
  let headers := copyHeaders f.req.headers REQUEST_HEADERS []
  let headers := if f.method.isNone then copyHeaders f.req.headers FILE_REQUEST_HEADERS headers else headers
  headers ++ (f.req.headers.getAll VIA).map (VIA, ·) ++ [(VIA, f.bot.via)]

def scanned (c : Reading u) : Except Refusal (Option Encoding) :=
  if f.method.isSome && f.bot.refusesLocalFiles then scannedEncoding (c.query f.url) f.headers else .ok none

/-- Whether the body is read before anything is sent. -/
def reads (scanned : Option Encoding) : Bool :=
  match scanned with
  | some encoding => encoding ≠ .multipart
  | none => readable f.req

/-- The body to send, and the chat. -/
def prepared (c : Reading u) (scanned : Option Encoding) (stalled : Bool) : Except Failed (Payload × Option ChatKey) :=
  match scanned with
  | some scanned => prepareScanned c.params scanned (f.headers.get CONTENT_TYPE) f.req f.limited stalled
  | none => prepare c.params f.req f.limited stalled

/-- The request body as it came. -/
def unread : Payload := .streamed { body := { prefixBytes := none, rest := f.req.body }, guard := none }

def sent (payload : Payload) : Sent u := { url := f.url, headers := f.headers, payload }

end Forward

/-! ### What is counted -/

inductive Outcome where
  | ok | rejected | rateLimited | upstreamError | unreachable | clientClosed
  deriving DecidableEq, Repr

inductive RateAction where
  | delayed | rejected
  deriving DecidableEq, Repr

/-- The outcome of a response with `status`. -/
def outcome (status : Nat) : Outcome :=
  if status = 429 then .rateLimited
  else if 400 ≤ status ∧ status < 500 then .rejected
  else if 500 ≤ status ∧ status < 600 then .upstreamError
  else .ok

/-- A server's response, with what its body gives from then on. -/
structure Response where
  status : Nat
  headers : Headers
  body : Body

variable (u) in
/-- What a request did, in the order it did it. -/
inductive Action where
  /-- The limits were asked. -/
  | asked (chat : Option ChatKey) (now : Instant) (answer : Except Limited Admitted)
  | ratelimited (scope : Scope) (action : RateAction)
  /-- It went to the server. -/
  | sent (now : Instant) (sent : Sent u)
  | retried
  /-- The response headers arrived. -/
  | answered (now : Instant) (response : Response)
  | up (answered : Bool)
  | count (outcome : Outcome)
  /-- Its `Forwarding` was dropped. -/
  | lower

/-- Counts a request once its response body has ended, failed or been dropped. -/
structure Tally where
  outcome : Outcome
  /-- Whether it holds the request's `Forwarding`. -/
  forwarding : Bool

/-- Counts, and is gone. -/
def Tally.count (tally : Tally) (outcome : Outcome) : List (Action u) := .count outcome :: if tally.forwarding then [.lower] else []

/-- A server's response body. -/
structure Download where
  body : Body
  tally : Option Tally

namespace Download

/-- The body failed, or no frame came for `upstream_idle_timeout`. -/
def fail (download : Download) : Download × List (Action u) :=
  ({ download with tally := none }, (download.tally.map (·.count .upstreamError)).getD [])

def pollFrame (download : Download) : Download × List (Action u) :=
  match download.body.pollFrame with
  | (some (.ok _), body) => ({ download with body }, [])
  | (some (.error _), body) => fail { download with body }
  | (none, body) => ({ body, tally := none }, (download.tally.map fun tally => tally.count tally.outcome).getD [])

def drop (download : Download) : List (Action u) := (download.tally.map fun tally => tally.count tally.outcome).getD []

end Download

/-! ### Answers -/

/-- What the client is answered. -/
inductive Answer where
  /-- A Bot API error with its `description`, and the seconds of a `Retry-After`. -/
  | error (status : Nat) (description : String) (retryAfter : Option Nat)
  /-- A 429 that was read whole. -/
  | whole (status : Nat) (headers : Headers) (body : Bytes)
  /-- A 429 too long to be read. -/
  | rest (status : Nat) (headers : Headers) (body : Prefixed)
  | relay (status : Nat) (headers : Headers) (download : Download)

def NO_ANSWER : String := "Bad Gateway: the Bot API server did not answer; the call may have been executed"
def UNREACHABLE : String := "Bad Gateway: the Bot API server is unreachable"
def FILE_NO_ANSWER : String := "Bad Gateway: the file server did not answer"
def FILE_UNREACHABLE : String := "Bad Gateway: the file server is unreachable"
def PARKED : String := "Service Unavailable: the bot is being moved to another Bot API server by tgin"

/-- Seconds. -/
abbrev PARKED_RETRY_AFTER : Nat := 5

/-- The description of the 502 for a request without an answer: `sent`, the whole request had gone out. -/
def noAnswer (server sent : Bool) : String :=
  match server, sent with
  | true, true => NO_ANSWER
  | true, false => UNREACHABLE
  | false, true => FILE_NO_ANSWER
  | false, false => FILE_UNREACHABLE

def refusalAnswer : Refusal → Answer
  | .localFile => .error 400 "Bad Request: local file uploads are disabled by tgin" none
  | .tooLarge => .error 413 "Request Entity Too Large" none
  | .unreadable => .error 400 "Bad Request: can't parse the request parameters" none

/-- The longest `retry_after` answered, in seconds. -/
abbrev MAX_RETRY_AFTER_SECS : Nat := 3600

/-- `wait` in whole seconds, rounded up. -/
def retryAfterSecs (wait : Duration) : Nat :=
  min (saturatingAdd (wait / 10 ^ 9) (if wait % 10 ^ 9 > 0 then 1 else 0)) MAX_RETRY_AFTER_SECS

def tooManyRequests (retryAfterSecs : Nat) : Answer :=
  .error 429 ("Too Many Requests: retry after " ++ toString retryAfterSecs) (some retryAfterSecs)

/-- `idle` after `start`; past any instant, 30 years after it. -/
def deadline (start : Instant) (idle : Duration) : Instant :=
  ((Instant.checkedAdd start idle).or (Instant.checkedAdd start (30 * 365 * 86400 * 10 ^ 9))).getD start

/-! ### One request -/

/-- The longest upstream 429 body read for its `retry_after`. -/
abbrev FLOOD_LIMIT : Nat := 64 * 1024

/-- What a step finds. -/
structure Env where
  now : Instant
  /-- Whether the bot is parked. -/
  parked : Bool
  /-- What the limits answer if they are asked. -/
  limits : Except Limited Admitted

/-- What the upload shows once the wait for the response is over. -/
structure Progress where
  ended : Bool
  clientFailed : Bool
  clientPending : Bool
  deriving DecidableEq, Repr

/-- How the wait for the response headers ends. -/
inductive Waited where
  /-- With a response, or an error: whether it is of the connect. -/
  | ready (response : Except Bool Response)
  | idle
  | noAnswer

/-- What `forward` or the response body waited for. -/
inductive Wake where
  /-- The body being read came, as far as it is read, or it stalled. -/
  | read (stalled : Bool)
  /-- A sleep may be over. -/
  | timer
  /-- The connection polls the request body. -/
  | upload (pending : Bool)
  | answered (waited : Waited) (progress : Progress)
  /-- The response body is polled. -/
  | poll
  /-- The response body gave no frame for `upstream_idle_timeout`. -/
  | idle
  /-- The future, or the response, is dropped. -/
  | drop

/-- Where a request stands. -/
inductive Phase where
  | called
  /-- It reads its body. -/
  | preparing (scanned : Option Encoding)
  /-- It waits out the delay the limits gave. -/
  | admitted (till : Instant) (payload : Payload) (chat : Option ChatKey)
  | sending (payload : Payload) (chat : Option ChatKey)
  /-- A buffered request was answered with 429, whose body is read. -/
  | flood (response : Response) (since : Instant) (data : Bytes) (chat : Option ChatKey)
  /-- It waits out the 429. -/
  | waiting (till : Instant) (response : Response) (flood data : Bytes) (chat : Option ChatKey)
  /-- It waits out the delay the limits gave the second time. -/
  | readmitted (till : Instant) (data : Bytes)
  | resending (data : Bytes)
  | answered (answer : Answer)
  | dropped

variable (u) in
structure Call where
  /-- Whether its outcome is counted, or left to its response body. -/
  counted : Bool
  /-- Whether it holds the request's `Forwarding`. -/
  forwarding : Bool
  phase : Phase
  log : List (Action u)

/-- `Call::exchange`. -/
def exchange (waited : Waited) (progress : Progress) : Except Failed Response :=
  match waited with
  | .ready (.ok response) => .ok response
  | .ready (.error connect) =>
    if progress.clientFailed then .error .clientClosed
    else if connect || !progress.ended then .error .unreachable
    else .error .noAnswer
  | .idle => .error (if progress.clientPending then .clientIdle else .idle)
  | .noAnswer => .error .noAnswer

namespace Call

def push (call : Call u) (actions : List (Action u)) : Call u := { call with log := call.log ++ actions }

/-- Counts the request's outcome, its one count. -/
def count (call : Call u) (outcome : Outcome) : Call u := { call.push [.count outcome] with counted := true }

/-- The call is dropped: uncounted, its client went away. -/
def drop (call : Call u) : Call u :=
  let call := if call.counted then call else call.push [.count .clientClosed]
  if call.forwarding then { call.push [.lower] with forwarding := false } else call

/-- `forward` returns. -/
def finish (call : Call u) (answer : Answer) : Call u := { call.drop with phase := .answered answer }

variable (c : Reading u) (f : Forward u)

/-- The answer to a request that got no response, counted. -/
def failed (call : Call u) (failed : Failed) : Call u :=
  match failed with
  | .clientClosed => (call.count .clientClosed).finish (.error 400 "Bad Request: the request body ended early" none)
  | .unreachable | .idle | .clientIdle => (call.count .unreachable).finish (.error 502 (noAnswer f.server false) none)
  | .noAnswer => (call.count .unreachable).finish (.error 502 (noAnswer f.server true) none)
  | .refused refusal => (call.count .rejected).finish (refusalAnswer refusal)
  | .parked => (call.count .rejected).finish (.error 503 PARKED (some PARKED_RETRY_AFTER))

/-- The server's answer, streamed to the client and counted once it ends. -/
def relay (call : Call u) (response : Response) : Call u :=
  let tally : Tally := { outcome := outcome response.status, forwarding := call.forwarding }
  finish { call with counted := true, forwarding := false }
    (.relay response.status (copyHeaders response.headers RESPONSE_HEADERS []) { body := response.body, tally := some tally })

/-- Books the request on the bot's limits: the instant to wait for, if there is a delay. -/
def admits (call : Call u) (env : Env) (chat : Option ChatKey) : Except Limited (Option Instant) × Call u :=
  if !f.limited then (.ok none, call)
  else
    let call := call.push [.asked chat env.now env.limits]
    match env.limits with
    | .error limited => (.error limited, call)
    | .ok admitted =>
      if admitted.delay = 0 then (.ok none, call)
      else (.ok (some (deadline env.now admitted.delay)), call.push [.ratelimited admitted.scope .delayed])

/-- Counts a request the limits refused. -/
def refuse (call : Call u) (limited : Limited) : Call u := (call.push [.ratelimited limited.scope .rejected]).count .rateLimited

/-- Sends `payload`; a parked bot sends nothing. `next` is where it waits for the response. -/
def send (call : Call u) (env : Env) (payload : Payload) (again : Bool) (next : Phase) : Except Failed (Call u) :=
  if env.parked then .error .parked
  else
    let call := if again then call.push [.retried] else call
    .ok { call.push [.sent env.now (f.sent payload)] with phase := next }

/-- The end of `send`: what the exchange came to. -/
def received (call : Call u) (env : Env) (waited : Waited) (progress : Progress) : Except Failed Response × Call u :=
  let sent := exchange waited progress
  let call := match sent with
    | .ok response => call.push [.answered env.now response]
    | .error _ => call
  let call := if f.server then
      match sent with
      | .ok _ => call.push [.up true]
      | .error .clientClosed | .error .clientIdle => call
      | .error _ => call.push [.up false]
    else call
  (sent, call)

/-- The limits let it go. -/
def go (call : Call u) (env : Env) (payload : Payload) (chat : Option ChatKey) : Call u :=
  match call.send f env payload false (.sending payload chat) with
  | .ok call => call
  | .error failed =>
    match payload with
    | .streamed stream => call.failed f (refusedBy failed stream.guard)
    | .buffered _ => call.failed f failed

/-- The limits let it go once more. -/
def goAgain (call : Call u) (env : Env) (data : Bytes) : Call u :=
  match call.send f env (.buffered data) true (.resending data) with
  | .ok call => call
  | .error failed => call.failed f failed

/-- The body is prepared. -/
def prepared (call : Call u) (env : Env) (prepared : Except Failed (Payload × Option ChatKey)) : Call u :=
  match prepared with
  | .error failed => call.failed f failed
  | .ok (payload, chat) =>
    match call.admits f env chat with
    | (.error limited, call) => (call.refuse limited).finish (tooManyRequests (retryAfterSecs limited.retryAfter))
    | (.ok none, call) => call.go f env payload chat
    | (.ok (some till), call) => { call with phase := .admitted till payload chat }

/-- The first step. -/
def start (env : Env) : Call u :=
  let call : Call u := { counted := false, forwarding := true, phase := .called, log := [] }
  match f.scanned c with
  | .error refusal => call.failed f (.refused refusal)
  | .ok scanned =>
    if !f.resendable && scanned.isNone then call.go f env f.unread none
    else if f.reads scanned then { call with phase := .preparing scanned }
    else call.prepared f env (f.prepared c scanned false)

/-- The wait for the first response is over. -/
def answered (call : Call u) (env : Env) (waited : Waited) (progress : Progress) (payload : Payload) (chat : Option ChatKey) :
    Call u :=
  match payload, call.received f env waited progress with
  | .streamed _, (.ok response, call) => call.relay response
  | .streamed stream, (.error failed, call) => call.failed f (refusedBy failed stream.guard)
  | .buffered _, (.error failed, call) => call.failed f failed
  | .buffered data, (.ok response, call) =>
    if response.status ≠ 429 ∨ f.bot.gateway.retry429MaxWait = 0 ∨ !f.resendable then call.relay response
    else { call with phase := .flood response env.now data chat }

/-- The 429's body was read, up to the limit. -/
def flooded (call : Call u) (response : Response) (since : Instant) (data : Bytes) (chat : Option ChatKey) (stalled : Bool) :
    Call u :=
  let headers := copyHeaders response.headers RESPONSE_HEADERS []
  match if stalled then .error .body else readBounded response.body FLOOD_LIMIT with
  | .error _ => (call.count .upstreamError).finish (.error 502 UNREACHABLE none)
  | .ok (.above part) => (call.count .rateLimited).finish (.rest response.status headers part.intoBody)
  | .ok (.complete flood) =>
    match (retryAfter c flood).filter fun wait => wait ≠ 0 && wait ≤ f.bot.gateway.retry429MaxWait with
    | none => (call.count .rateLimited).finish (.whole response.status headers flood)
    | some wait => { call with phase := .waiting (deadline since wait) response flood data chat }

/-- The 429 is waited out. -/
def waitedOut (call : Call u) (env : Env) (response : Response) (flood data : Bytes) (chat : Option ChatKey) : Call u :=
  match call.admits f env chat with
  | (.error limited, call) =>
    (call.refuse limited).finish (.whole response.status (copyHeaders response.headers RESPONSE_HEADERS []) flood)
  | (.ok none, call) => call.goAgain f env data
  | (.ok (some till), call) => { call with phase := .readmitted till data }

/-- What the response body did. -/
def streamed (call : Call u) (status : Nat) (headers : Headers) (moved : Download × List (Action u)) : Call u :=
  { call.push moved.2 with phase := .answered (.relay status headers moved.1) }

/-- A step that is not due does not happen. -/
def step (call : Call u) (env : Env) (wake : Wake) : Call u :=
  match call.phase, wake with
  | .preparing scanned, .read stalled => call.prepared f env (f.prepared c scanned stalled)
  | .admitted till payload chat, .timer => if till ≤ env.now then call.go f env payload chat else call
  | .sending (.streamed stream) chat, .upload pending => { call with phase := .sending (.streamed (stream.poll pending)) chat }
  | .sending payload chat, .answered waited progress => call.answered f env waited progress payload chat
  | .flood response since data chat, .read stalled => call.flooded c f response since data chat stalled
  | .waiting till response flood data chat, .timer => if till ≤ env.now then call.waitedOut f env response flood data chat else call
  | .readmitted till data, .timer => if till ≤ env.now then call.goAgain f env data else call
  | .resending _, .answered waited progress =>
    match call.received f env waited progress with
    | (.ok response, call) => call.relay response
    | (.error failed, call) => call.failed f failed
  | .answered (.relay status headers download), .poll => call.streamed status headers download.pollFrame
  | .answered (.relay status headers download), .idle => call.streamed status headers download.fail
  | .answered (.relay _ _ download), .drop => { call.push download.drop with phase := .dropped }
  | .answered _, .drop => { call with phase := .dropped }
  | .answered _, _ | .dropped, _ => call
  | _, .drop => { call.drop with phase := .dropped }
  | _, _ => call

def run (env : Env) (events : List (Env × Wake)) : Call u := events.foldl (fun call e => call.step c f e.1 e.2) (start c f env)

end Call

end Tgin.Gateway.Proxy
