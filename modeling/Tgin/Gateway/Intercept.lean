import Tgin.Admission.System
import Tgin.Engine.Captures
import Tgin.Engine.Lookups
import Tgin.Gateway.Body
import Tgin.Gateway.Bots
import Tgin.Gateway.Errors
import Tgin.LocalFiles.Params
import Tgin.Pull.Params

/-! The methods that the gateway answers itself, `tgin-botapi/src/gateway/intercept.rs`, with the engine's operations under them. The
    calls of downstreams take their steps among updates, polls, reloads and drains; for the engine each is a few of its own actions. -/

namespace Tgin.Engine
open Queue Rules

variable {m : Matchers}

/-! ### The engine's operations -/

/-- What the gateway answers by for a consumer. -/
structure ConsumerSettings where
  mode : Mode
  acceptSetWebhook : Bool
  honorDropPending : Bool
  deriving DecidableEq, Repr

/-- Whether a `drop_pending_updates` purges the consumer `name`. -/
def Config.honors (cfg : Config) (name : Str) : Bool :=
  cfg.consumers.any fun c => c.name = name && match c.kind with
    | .pull pull => pull.honorDropPending
    | .push push => push.honorDropPending

/-- Counts `n` updates purged from the slot. -/
def Slot.purged (n : Nat) (s : Slot) : Slot := s.count .purge n

/-- Updates not yet acked or delivered: queued and leased. -/
def Slot.pending (s : Slot) : Nat := s.queue.stats.available + s.queue.stats.leased

namespace Shared

/-- `none` unless a rule of the bot `source` targets the consumer `name`. -/
def consumerSettings (shared : Shared m) (source : SourceId) (name : Str) : Option ConsumerSettings :=
  if !shared.state.feeds source name then none
  else (shared.state.config.consumers.find? (·.name = name)).map fun consumer => match consumer.kind with
    | .pull pull => { mode := .pull, acceptSetWebhook := false, honorDropPending := pull.honorDropPending }
    | .push push => { mode := .push, acceptSetWebhook := push.acceptSetWebhook, honorDropPending := push.honorDropPending }

/-- The bot `source`'s `drop_pending_updates`, sent with `token`: drops its unleased updates from the consumer `name`. -/
def dropPending (shared : Shared m) (source : SourceId) (token name : Str) : Except TokenChanged (Option Nat) × Shared m :=
  let state := shared.state
  match shared.authenticated state source token with
  | none => (.error {}, shared)
  | some _ =>
    if !Config.honors state.config name || !state.feeds source name then (.ok none, shared)
    else match state.target shared.slots name with
      | none => (.ok none, shared)
      | some target =>
        let (n, queue) := (shared.slots target.slot).queue.purgeWhere fun e => e.source = source
        (.ok (some n), shared.modify target.slot fun s => Slot.purged n { s with queue })

/-- The runtime endpoint that a `setWebhook` gives. -/
def endpointOf (shared : Shared m) (source : SourceId) (token : Str) (endpoint : Option (Str × Option Str)) : Option RuntimeEndpoint :=
  endpoint.map fun given => { url := given.1, secretToken := given.2, source, tokenFingerprint := shared.tokenKeys token }

/-- The only thing that a `drop_pending_updates` changes. -/
theorem dropPending_cases (shared : Shared m) (source : SourceId) (token name : Str) :
    let out := shared.dropPending source token name
    (out.2 = shared ∧ ∀ n, out.1 ≠ .ok (some n)) ∨ ∃ target n,
      shared.tokenFingerprint shared.state source = some (shared.tokenKeys token) ∧
      shared.state.target shared.slots name = some target ∧ Config.honors shared.state.config name ∧
      shared.state.feeds source name ∧
      out = (.ok (some n), shared.modify target.slot (Slot.consume (.purgeWhere fun e => e.source = source))) := by
  unfold dropPending authenticated
  by_cases auth : shared.tokenFingerprint shared.state source = some (shared.tokenKeys token)
  · simp only [auth, if_true]
    split
    · exact .inl ⟨rfl, fun n eq => by cases eq⟩
    · rename_i allowed
      simp only [Bool.or_eq_true, Bool.not_eq_true', not_or, Bool.not_eq_false] at allowed
      cases found : shared.state.target shared.slots name with
      | none => exact .inl ⟨rfl, fun n eq => by cases eq⟩
      | some target => exact .inr ⟨target, _, trivial, rfl, allowed.1, allowed.2, rfl⟩
  · dsimp only
    rw [if_neg auth]
    exact .inl ⟨rfl, fun n eq => by cases eq⟩

/-- Where a consumer took a runtime endpoint, it has just that, or none if it was to have none. -/
theorem setRuntimeEndpoint_took {shared after : Shared m} {consumer : Str} {source : SourceId} {token : Str}
    {endpoint : Option (Str × Option Str)} {change : WebhookChange}
    (took : shared.setRuntimeEndpoint consumer source token endpoint = (.ok (some change), after)) :
    ∃ target, shared.state.target shared.slots consumer = some target ∧ shared.state.feeds source consumer ∧
      (after.slots target.slot).consumer.runtime = shared.endpointOf source token endpoint := by
  unfold setRuntimeEndpoint authenticated at took
  by_cases auth : shared.tokenFingerprint shared.state source = some (shared.tokenKeys token)
  · simp only [auth, if_true] at took
    cases found : shared.state.target shared.slots consumer with
    | none =>
      rw [found] at took
      cases took
    | some target =>
      rw [found] at took
      dsimp only at took
      cases instance' : (shared.slots target.slot).consumer with
      | pull =>
        rw [instance'] at took
        cases took
      | push push =>
        rw [instance'] at took
        dsimp only at took
        split at took
        · cases took
        · rename_i allowed
          simp only [Bool.or_eq_true, Bool.not_eq_true', not_or, Bool.not_eq_false] at allowed
          refine ⟨target, rfl, allowed.2, ?_⟩
          rcases endpoint with _ | ⟨url, secretToken⟩ <;> dsimp only at took <;> split at took
          · rename_i none
            cases took
            rw [instance']
            exact Option.isNone_iff_eq_none.mp none
          · cases took
            rw [modify_slots, Function.update_self, instance']
            rfl
          · rename_i same
            cases took
            rw [instance']
            exact same
          · cases took
            rw [modify_slots, Function.update_self, instance']
            rfl
  · dsimp only at took
    rw [if_neg auth] at took
    cases took

end Shared

end Tgin.Engine

namespace Tgin.Gateway.Intercept
open Engine Errors Rules
open LocalFiles (Readers formParam textParam)
open UpdateFacts (utf8)

variable {m : Matchers}

/-! ### A call -/

/-- The largest body of an intercepted webhook method. -/
abbrev PARAMS_LIMIT : Nat := 64 * 1024

/-- The longest `secret_token`. -/
abbrev MAX_SECRET_TOKEN_LEN : Nat := 256

def PROXY_ONLY_GET_UPDATES : Str := utf8 "Conflict: tgin serves getUpdates per consumer at /c/<consumer>/bot<token>/getUpdates"

def LOG_OUT_DISABLED : Str :=
  utf8 "Bad Request: logOut and close are disabled by tgin; operators move bots with tgin admin bot logout|close"

def WEBHOOK_WAS_SET : Str := utf8 "Webhook was set"
def WEBHOOK_IS_ALREADY_SET : Str := utf8 "Webhook is already set"
def WEBHOOK_WAS_DELETED : Str := utf8 "Webhook was deleted"
def WEBHOOK_IS_ALREADY_DELETED : Str := utf8 "Webhook is already deleted"
def INVALID_WEBHOOK_URL : Str := utf8 "Bad Request: invalid webhook URL specified"
def SECRET_TOKEN_TOO_LONG : Str := utf8 "Bad Request: secret token is too long"
def SECRET_TOKEN_ILLEGAL : Str := utf8 "Bad Request: secret token contains illegal characters"
def TOO_LARGE : Str := utf8 "Request Entity Too Large"

/-- A URL of the crate `url`, as it is written again. -/
structure Url where
  text : Str
  host : Option Str

/-- `WebhookInfo` with the fields that are always written. -/
structure WebhookInfo where
  url : Str
  hasCustomCertificate : Bool
  pendingUpdateCount : Nat

/-- What the calls are read and answered with. -/
structure Crates where
  readers : Readers
  parseUrl : Str → Option Url
  toVec : WebhookInfo → Option Str

structure Request where
  query : Option Str
  contentType : Option Str
  acceptEncoding : Option Str
  body : Body
  /-- Whether the read of the body ends within `upstream_idle_timeout`. -/
  inTime : Bool

/-- Why a body was not read: the client closed it early, or it stalled. -/
inductive Abandoned where
  | closed | stalled
  deriving DecidableEq, Repr

def Abandoned.response : Abandoned → Response
  | .closed => error .BAD_REQUEST (utf8 "Bad Request: the request body ended early")
  | .stalled => error .REQUEST_TIMEOUT (utf8 "Request Timeout")

def Request.readBody (request : Request) : Except Abandoned Bounded :=
  if !request.inTime then .error .stalled
  else match readBounded request.body PARAMS_LIMIT with
    | .ok read => .ok read
    | .error _ => .error .closed

/-- What a call is counted as. -/
inductive Outcome where
  | answered | rejected | clientClosed
  deriving DecidableEq, Repr

/-- One request to a bot that the gateway serves. -/
structure Call where
  source : SourceId
  token : Str
  rewrite : Rewrite
  /-- The `getMe` answer that the bot's identity cache holds. -/
  identity : Option Str
  /-- The consumer of a `/c/<consumer>/…` path. -/
  consumer : Option Str
  label : Str

/-- What a `setWebhook` or a `deleteWebhook` is to do. -/
structure Wanted where
  set : Bool
  dropPending : Bool
  url : Str
  /-- The consumer, where it takes a runtime endpoint. -/
  capturing : Option Str
  endpoint : Option (Str × Option Str)

/-- What becomes of a request. -/
inductive Routed where
  | answered (response : Response) (outcome : Outcome)
  /-- A poll of the pull consumer. -/
  | poll (slot : Nat) (query contentType : Option Str) (body : Str)
  /-- It goes on as a change of the engine. -/
  | webhook (wanted : Wanted)
  /-- To Telegram as it is. -/
  | proxy (request : Request)
  /-- To Telegram, and its answer fills the identity cache. -/
  | proxyAndLearn (request : Request)
  /-- To the Bot API server uncompressed, and its answer rewritten. -/
  | proxyAndRewrite (request : Request)

/-! ### The parameters -/

/-- The query string's parameter, then the body's. -/
def param (r : Readers) (query contentType : Option Str) (body name : Str) : Option Str :=
  (query.bind fun query => formParam r query name).or (textParam r contentType body name)

def toBool (value : Str) : Bool :=
  let value := Pull.trim value
  (["true", "yes", "1"].map utf8).any fun yes => Str.eqIgnoreAsciiCase value yes

/-- What ends a scheme. -/
def DELIMITERS : Str := utf8 ":/?#@[]"

/-- A webhook URL, over https unless it has a scheme. -/
def webhookUrl (c : Crates) (url : Str) : Option Url :=
  let (scheme, rest) := match (utf8 "://").isPrefixOf? (url.dropWhile (· ∉ DELIMITERS)) with
    | some rest => (Str.toAsciiLowercase (url.takeWhile (· ∉ DELIMITERS)), rest)
    | none => (utf8 "https", url)
  if (scheme ≠ utf8 "http" && scheme ≠ utf8 "https") || rest.isEmpty || rest.head?.any (· ∈ utf8 "/?#") then none
  else (c.parseUrl (scheme ++ utf8 "://" ++ rest)).filter (·.host.isSome)

def isSecretByte (b : UInt8) : Bool := (48 ≤ b && b ≤ 57) || (65 ≤ b && b ≤ 90) || (97 ≤ b && b ≤ 122) || b = 95 || b = 45

/-- The URL and the secret token of a `setWebhook`, or why they are refused. An empty secret token is none. -/
def runtimeEndpoint (c : Crates) (url : Str) (secretToken : Option Str) : Except Str (Str × Option Str) :=
  match webhookUrl c url with
  | none => .error INVALID_WEBHOOK_URL
  | some url =>
    let secretToken := secretToken.getD []
    if secretToken.length > MAX_SECRET_TOKEN_LEN then .error SECRET_TOKEN_TOO_LONG
    else if !secretToken.all isSecretByte then .error SECRET_TOKEN_ILLEGAL
    else .ok (url.text, if secretToken.isEmpty then none else some secretToken)

/-! ### The answers -/

namespace Call
variable (c : Crates) (call : Call)

def getUpdates (request : Request) (shared : Shared m) : Routed :=
  match call.consumer with
  | none => .answered (error .CONFLICT PROXY_ONLY_GET_UPDATES) .answered
  | some consumer => match shared.pullConsumerFor call.source consumer with
    | none => .answered (error .CONFLICT (utf8 "Conflict: " ++ consumer ++ utf8 " is not a pull consumer of this bot")) .answered
    | some slot => match request.readBody with
      | .ok (.complete body) => .poll slot request.query request.contentType body
      | .ok (.above _) => .answered (error .BAD_REQUEST (utf8 "Bad Request: the request body could not be read")) .answered
      | .error abandoned => .answered abandoned.response .clientClosed

/-- The bot's token changed since the request came. -/
def tokenChanged : Routed := .answered (error .UNAUTHORIZED (utf8 "Unauthorized")) .rejected

/-- `setWebhook` (`set`) or `deleteWebhook`, up to the changes. -/
def webhook (request : Request) (set : Bool) (shared : Shared m) : Routed :=
  match request.readBody with
  | .error abandoned => .answered abandoned.response .clientClosed
  | .ok (.above _) => .answered (error .PAYLOAD_TOO_LARGE TOO_LARGE) .answered
  | .ok (.complete body) =>
    let param name := param c.readers request.query request.contentType body (utf8 name)
    let dropPending := (param "drop_pending_updates").any toBool
    let url := (if set then param "url" else none).getD []
    let capturing := call.consumer.filter fun consumer =>
      (shared.consumerSettings call.source consumer).any fun s => s.mode = .push && s.acceptSetWebhook
    if capturing.isSome && !url.isEmpty then
      match runtimeEndpoint c url (param "secret_token") with
      | .ok endpoint => .webhook { set, dropPending, url, capturing, endpoint := some endpoint }
      | .error description => .answered (error .BAD_REQUEST description) .answered
    else .webhook { set, dropPending, url, capturing, endpoint := none }

/-- The consumer whose pending updates are dropped. -/
def purging (wanted : Wanted) : Option Str :=
  if wanted.dropPending && (!wanted.set || wanted.capturing.isSome) then call.consumer else none

/-- What is described as done. -/
def described (wanted : Wanted) : Option Shared.WebhookChange → Str
  | some .set => WEBHOOK_WAS_SET
  | some .unchanged => if wanted.dropPending then WEBHOOK_WAS_SET else WEBHOOK_IS_ALREADY_SET
  | some .deleted => WEBHOOK_WAS_DELETED
  | some .alreadyDeleted => WEBHOOK_IS_ALREADY_DELETED
  | none => if wanted.url.isEmpty then WEBHOOK_WAS_DELETED else WEBHOOK_WAS_SET

/-- What is answered for a change. -/
def told (wanted : Wanted) (change : Option Shared.WebhookChange) : Routed :=
  .answered (okTrue (some (described wanted change))) .answered

/-- What `getWebhookInfo` tells of the consumer; on a bot path, no webhook and no pending update. -/
def webhookInfo (shared : Shared m) : WebhookInfo :=
  let consumer := call.consumer.bind (shared.consumerFor call.source)
  { url := ((consumer.bind fun slot => (shared.slots slot).consumer.runtime).map (·.url)).getD []
    hasCustomCertificate := false
    pendingUpdateCount := (consumer.map fun slot => (shared.slots slot).pending).getD 0 }

/-- Answers the request here when its method is one of the table's, else hands it on. -/
def route (request : Request) (shared : Shared m) : Routed :=
  if call.label = utf8 "getUpdates" then call.getUpdates request shared
  else if call.label = utf8 "getMe" then
    match call.identity with
    | some identity => .answered (okRaw identity) .answered
    | none => .proxyAndLearn request
  else if call.label = utf8 "setWebhook" then call.webhook c request true shared
  else if call.label = utf8 "deleteWebhook" then call.webhook c request false shared
  else if call.label = utf8 "getWebhookInfo" then
    match c.toVec (call.webhookInfo shared) with
    | some result => .answered (okRaw result) .answered
    | none => .answered (error .INTERNAL_SERVER_ERROR (utf8 "Internal Server Error")) .answered
  else if call.label = utf8 "logOut" || call.label = utf8 "close" then .answered (error .BAD_REQUEST LOG_OUT_DISABLED) .answered
  else if call.label = utf8 "getFile" && call.rewrite ≠ .off then .proxyAndRewrite { request with acceptEncoding := none }
  else .proxy request

end Call

/-! ### Steps -/

/-- How far a call is. -/
inductive Phase where
  | received (request : Request)
  /-- It is to drop what is pending. -/
  | dropping (wanted : Wanted)
  /-- It is to set the runtime endpoint, or to remove it. -/
  | setting (wanted : Wanted)
  | routed (routed : Routed)

namespace Phase
variable (call : Call) (shared : Shared m)

/-- A call's next step. -/
def step (c : Crates) : Phase → Phase × Shared m
  | received request => match call.route c request shared with
    | .webhook wanted => (dropping wanted, shared)
    | there => (routed there, shared)
  | dropping wanted => match call.purging wanted with
    | none => (setting wanted, shared)
    | some consumer => match shared.dropPending call.source call.token consumer with
      | (.error _, shared) => (routed Call.tokenChanged, shared)
      | (.ok _, shared) => (setting wanted, shared)
  | setting wanted => match wanted.capturing with
    | none => (routed (Call.told wanted none), shared)
    | some consumer => match shared.setRuntimeEndpoint consumer call.source call.token wanted.endpoint with
      | (.error _, shared) => (routed Call.tokenChanged, shared)
      | (.ok change, shared) => (routed (Call.told wanted change), shared)
  | routed there => (routed there, shared)

/-- The actions of the engine that the step is. -/
def actions : Phase → List Engine.Action
  | dropping wanted => match call.purging wanted with
    | none => []
    | some consumer => match (shared.dropPending call.source call.token consumer).1 with
      | .ok (some _) => ((shared.state.target shared.slots consumer).map fun target =>
          .consume target.slot (.purgeWhere fun e => e.source = call.source)).toList
      | _ => []
  | setting wanted => match wanted.capturing with
    | none => []
    | some consumer => [.control (.setRuntimeEndpoint consumer call.source call.token wanted.endpoint)]
  | _ => []

end Phase

variable (m) in
/-- An engine and the calls that came to its gateway. -/
structure System where
  engine : Engine.System m
  calls : List (Call × Phase)

inductive Action where
  /-- A downstream calls a method. -/
  | call (call : Call) (request : Request)
  /-- A call takes its next step. -/
  | step (i : Nat)
  | engine (action : Engine.Action)

namespace System

def shared (sys : System m) : Shared m := sys.engine.world.shared

def new (engine : Shared m) : System m := { engine := .new engine, calls := [] }

def act (c : Crates) (sys : System m) : Action → System m
  | .call call request => { sys with calls := sys.calls ++ [(call, .received request)] }
  | .step i =>
    match sys.calls[i]? with
    | none => sys
    | some (call, phase) =>
      { engine := sys.engine.run (phase.actions call sys.shared), calls := sys.calls.set i (call, (phase.step call sys.shared c).1) }
  | .engine action => { sys with engine := sys.engine.step action }

def run (c : Crates) (sys : System m) (actions : List Action) : System m := actions.foldl (act c) sys

end System

/-! ### What a call may do -/

/-- The methods that Telegram never gets from a downstream. -/
def KEPT : List Str := ["getUpdates", "setWebhook", "deleteWebhook", "getWebhookInfo", "logOut", "close"].map utf8

/-- Whether the request goes on to Telegram. -/
def Routed.forwards : Routed → Bool
  | .proxy _ | .proxyAndLearn _ | .proxyAndRewrite _ => true
  | _ => false

/-- What the rest of a call goes by: only the consumer of its path is captured, and no method of `KEPT` is forwarded. -/
def Routed.Fits (call : Call) : Routed → Prop
  | .webhook wanted => ∀ consumer, wanted.capturing = some consumer → call.consumer = some consumer
  | routed => routed.forwards → call.label ∉ KEPT

def Phase.Fits (call : Call) : Phase → Prop
  | received _ => True
  | dropping wanted | setting wanted => Routed.Fits call (.webhook wanted)
  | routed there => there.forwards → call.label ∉ KEPT

section
variable {call : Call} {c : Crates} {request : Request} {shared : Shared m}

theorem fits_answered (response : Response) (outcome : Outcome) : (Routed.answered response outcome).Fits call :=
  fun forwards => absurd forwards Bool.false_ne_true

theorem getUpdates_fits : (call.getUpdates request shared).Fits call := by
  unfold Call.getUpdates
  split
  · exact fits_answered _ _
  · split
    · exact fits_answered _ _
    · split
      · exact fun forwards => absurd forwards Bool.false_ne_true
      · exact fits_answered _ _
      · exact fits_answered _ _

theorem webhook_fits {set : Bool} : (call.webhook c request set shared).Fits call := by
  unfold Call.webhook
  split
  · exact fits_answered _ _
  · exact fits_answered _ _
  · have path {f : Str → Bool} (consumer : Str) (captured : call.consumer.filter f = some consumer) :
        call.consumer = some consumer := (Option.filter_eq_some_iff.mp captured).1
    dsimp only
    split <;> split
    · split
      · exact path
      · exact fits_answered _ _
    · exact path
    · split
      · exact path
      · exact fits_answered _ _
    · exact path

theorem route_fits : (call.route c request shared).Fits call := by
  unfold Call.route
  split
  · exact getUpdates_fits
  rename_i notUpdates
  split
  · rename_i isMe
    split
    · exact fits_answered _ _
    · intro _
      rw [isMe]
      decide
  split
  · exact webhook_fits
  rename_i notSet
  split
  · exact webhook_fits
  rename_i notDelete
  split
  · split <;> exact fits_answered _ _
  rename_i notInfo
  split
  · exact fits_answered _ _
  rename_i notOut
  split
  · rename_i isFile
    intro _
    rw [of_decide_eq_true (Bool.and_eq_true_iff.mp isFile).1]
    decide
  · intro _ mem
    rw [Bool.or_eq_true, decide_eq_true_eq, decide_eq_true_eq, not_or] at notOut
    simp [KEPT, notUpdates, notSet, notDelete, notInfo, notOut] at mem

theorem step_fits {phase : Phase} (fits : phase.Fits call) : (phase.step call shared c).1.Fits call := by
  cases phase with
  | received request =>
    have there : (call.route c request shared).Fits call := route_fits
    simp only [Phase.step]
    cases routed : call.route c request shared <;> rw [routed] at there <;> exact there
  | dropping wanted =>
    simp only [Phase.step]
    split
    · exact fits
    · split
      · exact fits_answered _ _
      · exact fits
  | setting wanted =>
    simp only [Phase.step]
    split
    · exact fits_answered _ _
    · split <;> exact fits_answered _ _
  | routed there => exact fits

/-- The slot is of the consumer in the call's path, which the bot feeds, and the call has the token that the bot has now. -/
structure Reaches (call : Call) (shared : Shared m) (consumer : Str) (slot : Nat) : Prop where
  path : call.consumer = some consumer
  current : shared.consumer consumer = some slot
  feeds : shared.state.feeds call.source consumer
  token : shared.tokenFingerprint shared.state call.source = some (shared.tokenKeys call.token)

/-- What a step of a call may make of a slot. -/
inductive Touches (call : Call) (shared : Shared m) (slot : Nat) : Slot → Prop where
  | same : Touches call shared slot (shared.slots slot)
  /-- The bot's own updates that are not leased are purged. -/
  | purged {consumer : Str} {queue : Queue.LeaseQueue Envelope} (reaches : Reaches call shared consumer slot)
      (honors : Engine.Config.honors shared.state.config consumer)
      (consumed : Queue.Consumed (.purgeWhere fun e => e.source = call.source) (shared.slots slot).queue queue) :
      Touches call shared slot (Slot.purged ((shared.slots slot).queue.inner.entries.toList.filter
        (Queue.Op.removes (.purgeWhere fun e => e.source = call.source))).length { shared.slots slot with queue })
  /-- The runtime endpoint is set or removed. -/
  | captured {consumer : Str} (endpoint : Option (Str × Option Str)) (reaches : Reaches call shared consumer slot)
      (accepts : shared.state.config.accepts consumer) :
      Touches call shared slot { shared.slots slot with
        consumer := (shared.slots slot).consumer.setRuntimeEndpoint (shared.endpointOf call.source call.token endpoint) }

theorem touches_modify {slot : Nat} {f : Slot → Slot} (touches : Touches call shared slot (f (shared.slots slot))) (i : Nat) :
    Touches call shared i ((shared.modify slot f).slots i) := by
  rw [Shared.modify_slots]
  by_cases here : i = slot
  · subst here
    rwa [Function.update_self]
  · rw [Function.update_of_ne here]
    exact .same

theorem path_of_purging {wanted : Wanted} {consumer : Str} (purging : call.purging wanted = some consumer) :
    call.consumer = some consumer := by
  unfold Call.purging at purging
  split at purging
  · exact purging
  · cases purging

theorem dropPending_touches (sound : shared.Sound) {consumer : Str} (path : call.consumer = some consumer) :
    let after := (shared.dropPending call.source call.token consumer).2
    after.state = shared.state ∧ ∀ i, Touches call shared i (after.slots i) := by
  rcases shared.dropPending_cases call.source call.token consumer with ⟨same, -⟩ | ⟨target, n, token, found, honors, feeds, eq⟩
  · intro after
    rw [show after = shared from same]
    exact ⟨rfl, fun _ => .same⟩
  · rw [eq]
    have current : shared.consumer consumer = some target.slot := by rw [Shared.consumer, found, Option.map_some]
    refine ⟨rfl, touches_modify ?_⟩
    rcases Slot.consume_cases (sound.exact target.slot) (.purgeWhere fun e => e.source = call.source) with
      same | ⟨-, queue, consumed, purged⟩
    · rw [same]
      exact .same
    · rw [purged]
      exact .purged ⟨path, current, feeds, token⟩ honors consumed

theorem setRuntimeEndpoint_touches (shared : Shared m) {consumer : Str} (path : call.consumer = some consumer) (endpoint : Option (Str × Option Str)) :
    let after := (shared.setRuntimeEndpoint consumer call.source call.token endpoint).2
    after.state = shared.state ∧ ∀ i, Touches call shared i (after.slots i) := by
  intro after
  rcases shared.setRuntimeEndpoint_cases consumer call.source call.token endpoint with
    same | ⟨target, token, found, accepts, feeds, eq⟩
  · rw [show after = shared from same]
    exact ⟨rfl, fun _ => .same⟩
  · rw [show after = _ from eq]
    have current : shared.consumer consumer = some target.slot := by rw [Shared.consumer, found, Option.map_some]
    exact ⟨rfl, touches_modify (.captured endpoint ⟨path, current, feeds, token⟩ accepts)⟩

/-- Whatever a step does, it touches only what the call may. -/
theorem step_touches (sound : shared.Sound) {phase : Phase} (fits : phase.Fits call) :
    (phase.step call shared c).2.state = shared.state ∧ ∀ i, Touches call shared i ((phase.step call shared c).2.slots i) := by
  have unchanged : shared.state = shared.state ∧ ∀ i, Touches call shared i (shared.slots i) := ⟨rfl, fun _ => .same⟩
  cases phase with
  | received request =>
    simp only [Phase.step]
    split <;> exact unchanged
  | dropping wanted =>
    simp only [Phase.step]
    cases purging : call.purging wanted with
    | none => exact unchanged
    | some consumer =>
      have touches := dropPending_touches sound (path_of_purging purging)
      dsimp only at touches ⊢
      generalize shared.dropPending call.source call.token consumer = out at touches ⊢
      obtain ⟨_ | _, after⟩ := out <;> exact touches
  | setting wanted =>
    simp only [Phase.step]
    cases capturing : wanted.capturing with
    | none => exact unchanged
    | some consumer =>
      have touches := setRuntimeEndpoint_touches shared (fits consumer capturing) wanted.endpoint
      dsimp only at touches ⊢
      generalize shared.setRuntimeEndpoint consumer call.source call.token wanted.endpoint = out at touches ⊢
      obtain ⟨_ | _, after⟩ := out <;> exact touches
  | routed there => exact unchanged

/-- A bot that feeds a consumer sees its current instance. -/
theorem webhookInfo_url {consumer : Str} {target : Target} (path : call.consumer = some consumer)
    (found : shared.state.target shared.slots consumer = some target) (feeds : shared.state.feeds call.source consumer) :
    (call.webhookInfo shared).url = ((shared.slots target.slot).consumer.runtime.map (·.url)).getD [] := by
  simp only [Call.webhookInfo, path, Option.bind_some, Shared.consumerFor, found, feeds, if_true]

/-- After a consumer took a runtime endpoint, its URL is told. -/
theorem setRuntimeEndpoint_told {consumer : Str} {endpoint : Option (Str × Option Str)} {change : Shared.WebhookChange}
    {after : Shared m} (path : call.consumer = some consumer)
    (took : shared.setRuntimeEndpoint consumer call.source call.token endpoint = (.ok (some change), after)) :
    (call.webhookInfo after).url = (endpoint.map (·.1)).getD [] := by
  obtain ⟨target, found, feeds, runtime⟩ := Shared.setRuntimeEndpoint_took took
  have touches := setRuntimeEndpoint_touches shared path endpoint
  rw [took] at touches
  obtain ⟨state, touches⟩ := touches
  have names (i : Nat) : (after.slots i).name = (shared.slots i).name := by
    have touched := touches i
    generalize after.slots i = s' at touched ⊢
    cases touched <;> rfl
  have found' : after.state.target after.slots consumer = some target := by
    rw [state, ← found]
    unfold EngineState.target
    simp only [names]
  rw [webhookInfo_url path found' (state ▸ feeds), runtime]
  cases endpoint <;> rfl

end

/-! ### Runs -/

namespace System
variable {c : Crates} {sys : System m} {call : Call} {phase : Phase}

/-- The engine's actions that a step is do what the step does. -/
theorem run_actions (sound : sys.shared.Sound) (c : Crates) (call : Call) (phase : Phase) :
    (sys.engine.run (phase.actions call sys.shared)).world.shared = (phase.step call sys.shared c).2 := by
  cases phase with
  | received request =>
    simp only [Phase.step]
    split <;> rfl
  | dropping wanted =>
    simp only [Phase.step, Phase.actions]
    cases call.purging wanted with
    | none => rfl
    | some consumer =>
      dsimp only
      rcases sys.shared.dropPending_cases call.source call.token consumer with ⟨same, kept⟩ | ⟨target, n, -, found, -, -, eq⟩
      · generalize sys.shared.dropPending call.source call.token consumer = out at same kept ⊢
        obtain ⟨_ | _ | n, after⟩ := out
        · exact same.symm
        · exact same.symm
        · exact absurd rfl (kept n)
      · have known : target.slot < sys.engine.world.shared.allocated :=
          Instances.below sound.instances target (List.mem_of_find?_eq_some found)
        rw [eq, found]
        change (sys.engine.act (.consume target.slot _)).world.shared = _
        rw [Engine.System.act, if_pos known]
        rfl
  | setting wanted =>
    simp only [Phase.step, Phase.actions]
    cases wanted.capturing with
    | none => rfl
    | some consumer =>
      change (sys.shared.setRuntimeEndpoint consumer call.source call.token wanted.endpoint).2 = _
      dsimp only
      generalize sys.shared.setRuntimeEndpoint consumer call.source call.token wanted.endpoint = out
      obtain ⟨_ | _, after⟩ := out <;> rfl
  | routed there => rfl

/-- What holds throughout a run from `engine`. -/
structure Inv (engine : Engine.System m) (sys : System m) : Prop where
  /-- For the engine, the run is one of its own. -/
  script : ∃ script, sys.engine = engine.run script
  fits : ∀ entry ∈ sys.calls, entry.2.Fits entry.1

theorem act_inv {engine : Engine.System m} (inv : Inv engine sys) (c : Crates) (action : Action) : Inv engine (sys.act c action) := by
  obtain ⟨script, ran⟩ := inv.script
  cases action with
  | call call request =>
    refine ⟨⟨script, ran⟩, fun entry mem => ?_⟩
    rcases List.mem_append.mp mem with mem | mem
    · exact inv.fits entry mem
    · rw [List.mem_singleton.mp mem]
      trivial
  | step i =>
    simp only [act]
    cases found : sys.calls[i]? with
    | none => exact inv
    | some entry =>
      have fits := inv.fits entry (List.mem_of_getElem? found)
      refine ⟨⟨script ++ entry.2.actions entry.1 sys.shared, ?_⟩, fun other mem => ?_⟩
      · rw [Engine.System.run_append, ← ran]
      · rcases List.mem_or_eq_of_mem_set mem with mem | rfl
        · exact inv.fits other mem
        · exact step_fits fits
  | engine action =>
    refine ⟨⟨script ++ [action], ?_⟩, inv.fits⟩
    rw [Engine.System.run_append, ← ran]
    rfl

theorem run_inv (c : Crates) (engine : Shared m) (actions : List Action) : Inv (.new engine) ((new engine).run c actions) := by
  have start : Inv (.new engine) (new engine) := ⟨⟨[], rfl⟩, List.forall_mem_nil _⟩
  generalize new engine = sys at start ⊢
  induction actions generalizing sys with
  | nil => exact start
  | cons action actions ih => exact ih (sys.act c action) (act_inv start c action)

end System

/-- Whatever downstreams call, in any order with all else: for the engine the run is one of its own. No method that tgin keeps goes on
    to Telegram. A call's step touches only the current instance of the consumer in its path, which its bot feeds, and only with the
    token that the bot has then: it purges the bot's own updates there, or sets the runtime endpoint. And when a consumer took an
    endpoint, `getWebhookInfo` tells its URL. -/
theorem intercepted_run {cfg : Config} {tokenKeys : Str → Nat} {engine : Shared m} (made : Shared.new cfg tokenKeys = .ok engine)
    (c : Crates) (actions : List Action) : let now := (System.new engine).run c actions
    (∃ script, now.engine = (Engine.System.new engine).run script) ∧
    (∀ call there, (call, Phase.routed there) ∈ now.calls → there.forwards → call.label ∉ KEPT) ∧
    ∀ i call phase, now.calls[i]? = some (call, phase) → let next := now.act c (.step i)
      next.shared = (phase.step call now.shared c).2 ∧ next.shared.state = now.shared.state ∧
      (∀ slot, Touches call now.shared slot (next.shared.slots slot)) ∧
      ∀ wanted consumer change, phase = .setting wanted → wanted.capturing = some consumer →
        (now.shared.setRuntimeEndpoint consumer call.source call.token wanted.endpoint).1 = .ok (some change) →
        next.calls[i]? = some (call, .routed (Call.told wanted (some change))) ∧
          (call.webhookInfo next.shared).url = (wanted.endpoint.map (·.1)).getD [] := by
  intro now
  obtain ⟨⟨script, ran⟩, fits⟩ : System.Inv _ now := System.run_inv c engine actions
  have sound : now.shared.Sound := by
    rw [System.shared, ran]
    exact (Engine.System.run_induction (P := fun _ => True) (Engine.System.sound_new made) trivial (fun _ _ _ _ => trivial)
      script).1.shared
  refine ⟨⟨script, ran⟩, fun call there mem => fits _ mem, fun i call phase found => ?_⟩
  intro next
  have here := fits _ (List.mem_of_getElem? found)
  have shared : next.shared = (phase.step call now.shared c).2 := by
    rw [← System.run_actions sound c call phase]
    change System.shared (now.act c (.step i)) = _
    rw [System.act, found]
    rfl
  have touches := step_touches (c := c) sound here
  rw [← shared] at touches
  refine ⟨shared, touches.1, touches.2, ?_⟩
  rintro wanted consumer change rfl capturing took
  have path : call.consumer = some consumer := here consumer capturing
  cases eq : now.shared.setRuntimeEndpoint consumer call.source call.token wanted.endpoint with
  | mk result after =>
    rw [eq] at took
    obtain rfl : result = _ := took
    have stepped : (Phase.setting wanted).step call now.shared c = (.routed (Call.told wanted (some change)), after) := by
      simp only [Phase.step, capturing, eq]
    constructor
    · have lt := (List.getElem?_eq_some_iff.mp found).1
      change (now.act c (.step i)).calls[i]? = _
      rw [System.act, found]
      dsimp only
      rw [List.getElem?_set_self lt, stepped]
    · rw [shared, stepped]
      exact setRuntimeEndpoint_told path eq

/-- Crates that decode nothing; every URL is its own host. -/
def plainCrates : Crates where
  readers := { percentDecode := id, members := fun _ => none, string := fun _ => none }
  parseUrl text := some { text, host := some text }
  toVec info := some info.url

/-- Bot `a` sets `h` for the consumer of its path. -/
def setting : Call where
  source := 0
  token := [1]
  rewrite := .off
  identity := none
  consumer := some [112]
  label := utf8 "setWebhook"

theorem noUpper : ∀ u ∈ (none : Option Nat), 0 ≤ u ∧ u ≤ wordMax := fun u none => by cases none

def settingRequest : Request where
  query := some (utf8 "url=h")
  contentType := none
  acceptEncoding := none
  body := .ended { sizeHint := { lower := 0, upper := none, small := Nat.zero_le _, ordered := noUpper }
                   endStream := true }
  inTime := true

theorem intercepted_run_setWebhook :
    let sys := (System.new pushedEngine).run plainCrates [.call setting settingRequest, .step 0, .step 0]
    (setting.webhookInfo (sys.act plainCrates (.step 0)).shared).url = utf8 "https://h" := by
  intro sys
  have made : Shared.new pushed List.length = .ok pushedEngine := rfl
  have wanted : sys.calls[0]? = some (setting, .setting
      { set := true, dropPending := false, url := utf8 "h", capturing := some [112], endpoint := some (utf8 "https://h", none) }) := rfl
  exact (((intercepted_run made plainCrates _).2.2 0 _ _ wanted).2.2.2 _ [112] .set rfl rfl rfl).2

end Tgin.Gateway.Intercept
