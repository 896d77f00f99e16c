import Tgin.Engine.Captures
import Tgin.Gateway.Bots
import Tgin.LocalFiles.Params

/-! Webhook replies: the method call a push endpoint answers an update with (`tgin-core/src/consumer/push.rs`), made by the
    gateway (`tgin-botapi/src/gateway/reply.rs`). What a delivery or a reply does between two awaits is one step. -/

namespace Tgin.Replies
open Rules Engine Gateway

variable {m : Matchers} {u : Urls}

/-! ### What an endpoint answers -/

/-- The longest reply body read. -/
abbrev MAX_REPLY_BYTES : Nat := 1 <<< 20

/-- The bot and token a runtime endpoint was set with. -/
structure Binding where
  source : SourceId
  tokenFingerprint : Nat
  deriving DecidableEq, Repr

/-- A push endpoint's answer to an update, carrying a method call. -/
structure Reply where
  contentType : Str
  body : Str
  /-- Set when the runtime endpoint answered. -/
  boundTo : Option Binding
  deriving DecidableEq, Repr

/-- Whether `contentType` names a body the Bot API reads parameters from. -/
def carriesParameters (contentType : Str) : Bool :=
  ["application/json", "application/x-www-form-urlencoded", "multipart/form-data"].any fun name =>
    (LocalFiles.windows name.length contentType).any (LocalFiles.eqIgnoreAsciiCase · (LocalFiles.ascii name))

/-- The slots: the configured endpoints in order, then the runtime endpoint if there is one. Each is its URL, and whether it is the
    runtime endpoint. -/
def slots (targets : Targets) : List (Str × Bool) :=
  targets.endpoints.map (fun e => (e.url, false)) ++ targets.runtime.toList.map fun r => (r.url, true)

/-- A request's claim on one endpoint of the set it was chosen from. -/
structure Sending where
  targets : Targets
  index : Nat
  deriving DecidableEq, Repr

/-- Whether the request is to the runtime endpoint. -/
def Sending.runtime (sent : Sending) : Bool := (slots sent.targets)[sent.index]?.any (·.2)

/-- What a reply to the request is bound to: the bot and token that set the runtime endpoint, when it is sent there. -/
def Sending.binding (sent : Sending) : Option Binding :=
  (sent.targets.runtime.filter fun _ => sent.runtime).map fun runtime =>
    { source := runtime.source, tokenFingerprint := runtime.tokenFingerprint }

/-- A 2xx answer. -/
structure Response where
  contentType : Option Str
  contentLength : Option Nat
  chunks : List Str
  /-- Whether all of the body arrives. -/
  whole : Bool
  deriving DecidableEq, Repr

/-- The chunks together; `none` once they pass the limit. -/
def collect (body : Str) : List Str → Option Str
  | [] => some body
  | chunk :: chunks => if body.length + chunk.length > MAX_REPLY_BYTES then none else collect (body ++ chunk) chunks

/-- The method call in a 2xx answer. -/
def reply (sent : Sending) (response : Response) : Option Reply := do
  let contentType ← response.contentType.filter carriesParameters
  if response.contentLength = some 0 ∨ response.contentLength.any (· > MAX_REPLY_BYTES) then none
  else
    let body ← collect [] response.chunks
    if response.whole = false then none
    else if body = [] then none
    else some { contentType, body, boundTo := sent.binding }

/-! ### The executor -/

/-- The longest method name executed. -/
abbrev MAX_METHOD_LEN : Nat := 64

/-- Whether a webhook reply may call `method`. -/
def executable (method : Str) : Bool :=
  let refused := (method.length ≥ 3 && LocalFiles.eqIgnoreAsciiCase (method.take 3) (LocalFiles.ascii "get")) ||
    ["setwebhook", "deletewebhook", "close", "logout"].any fun name => LocalFiles.eqIgnoreAsciiCase method (LocalFiles.ascii name)
  method ≠ [] && method.length ≤ MAX_METHOD_LEN &&
    method.all (fun b => 48 ≤ b && b ≤ 57 || 65 ≤ b && b ≤ 90 || 97 ≤ b && b ≤ 122 || b = 95) && !refused

/-- Whether the token is still the bot's token that `binding` was made with. -/
def holdsToken (shared : Shared m) (binding : Binding) (token : Str) : Bool :=
  shared.authenticated shared.state binding.source token = some binding.tokenFingerprint

variable (u) in
/-- Where `run_reply` stands. From its first step on it holds the bot's entry. -/
inductive Phase where
  | called
  /-- It waits for the bot's limits. -/
  | limited (bot : Bot u) (method : Str)
  /-- The limits let it go, any delay over. -/
  | admitted (bot : Bot u) (method : Str)
  /-- Its token was checked. -/
  | checked (bot : Bot u) (method : Str)
  /-- It is sent, to the bot's server with the bot's token. -/
  | sent (bot : Bot u) (method : Str)
  | dropped

/-- The entry of a reply that has one. -/
def Phase.bot : Phase u → Option (Bot u)
  | .limited bot _ | .admitted bot _ | .checked bot _ | .sent bot _ => some bot
  | .called | .dropped => none

variable (u) in
structure Execution where
  /-- The request that was answered. -/
  attempt : Nat
  source : SourceId
  reply : Reply
  phase : Phase u

/-- The first step of `run_reply`: the bot's entry in the gateway's table, and what it refuses at once. -/
def begin (r : LocalFiles.Readers) (table : List (Bot u)) (source : SourceId) (reply : Reply) : Phase u :=
  match table.find? (·.source = source) with
  | none => .dropped
  | some bot =>
    match (LocalFiles.textParam r (some reply.contentType) reply.body (LocalFiles.ascii "method")).filter executable with
    | none => .dropped
    | some method =>
      let refused := match LocalFiles.bodyVerdict (some reply.contentType) reply.body with
        | some (.refused _) => bot.refusesLocalFiles
        | _ => false
      if refused then .dropped else .limited bot method

/-! ### The system -/

/-- An update with the bot it came from. -/
structure Update where
  source : SourceId
  bot : Str
  deriving DecidableEq, Repr

/-- A request sent to an endpoint of the push instance `slot`. -/
structure Attempt where
  slot : Nat
  update : Nat
  sent : Sending
  deriving DecidableEq, Repr

variable (m u) in
structure System where
  shared : Shared m
  gateway : Gateway.System u
  updates : List Update
  attempts : List Attempt
  executions : List (Execution u)

variable (u) in
/-- What else of a bot's config its entry is built from. -/
structure Serving where
  upstream : Upstream u
  allowLocalFiles : Bool
  gateway : Settings

variable (u) in
inductive Event where
  /-- A reload of the engine, a `setWebhook` or `deleteWebhook`, the end of a drain, a username. -/
  | control (control : Control)
  /-- The gateway gets the bots of the engine's config. -/
  | setBots (serving : Config.Bot → Serving u)
  | setParked (name : Str) (parked : Bool)
  /-- An update of a bot is admitted. -/
  | receive (source : SourceId)
  /-- A delivery of an update chooses the endpoint `index` of the instance `slot`. -/
  | send (slot update index : Nat)
  /-- The endpoint of a request answers with 2xx. -/
  | answer (attempt : Nat) (response : Response)
  | begin (execution : Nat)
  /-- The limits let a reply go after its delay, or refuse it. -/
  | letGo (execution : Nat) (admitted : Bool)
  | check (execution : Nat)
  | enter (execution : Nat)
  /-- The delivery is dropped. -/
  | drop (execution : Nat)

/-- The bots of the engine's config as the gateway serves them. -/
def gatewayBots (shared : Shared m) (serving : Config.Bot → Serving u) : List (GatewayBot u) :=
  shared.state.config.bots.filterMap fun bot =>
    (shared.sourceId bot.name).map fun source => {
      name := bot.name
      source
      token := bot.token
      upstream := (serving bot).upstream
      allowLocalFiles := (serving bot).allowLocalFiles
      gateway := (serving bot).gateway }

namespace System

def new (shared : Shared m) (via : Str) (seeds : Nat → (ChatKey → Nat) × (ChatKey → Nat)) : System m u where
  shared
  gateway := .new u via seeds
  updates := []
  attempts := []
  executions := []

/-- Moves a reply on, if there is one. -/
def advance (s : System m u) (i : Nat) (next : Execution u → Phase u) : System m u :=
  match s.executions[i]? with
  | none => s
  | some execution => { s with executions := s.executions.set i { execution with phase := next execution } }

/-- A step that is not due does not happen. -/
def step (r : LocalFiles.Readers) (s : System m u) : Event u → System m u
  | .control control => { s with shared := s.shared.control control }
  | .setBots serving => { s with gateway := s.gateway.setBots (gatewayBots s.shared serving) }
  | .setParked name parked => { s with gateway := s.gateway.setParked name parked }
  | .receive source =>
    match s.shared.state.source source with
    | none => s
    | some info => { s with updates := s.updates ++ [{ source, bot := info.name }] }
  | .send slot update index =>
    match (s.shared.slots slot).consumer with
    | .pull => s
    | .push targets =>
      if update < s.updates.length ∧ index < (slots targets).length then
        { s with attempts := s.attempts ++ [{ slot, update, sent := { targets, index } }] }
      else s
  | .answer i response =>
    match s.attempts[i]? with
    | none => s
    | some attempt =>
      match s.updates[attempt.update]?, if attempt.sent.targets.options.reply then reply attempt.sent response else none with
      | some update, some reply =>
        { s with executions := s.executions ++ [{ attempt := i, source := update.source, reply, phase := .called }] }
      | _, _ => s
  | .begin i => s.advance i fun e =>
    match e.phase with
    | .called => Replies.begin r s.gateway.table e.source e.reply
    | phase => phase
  | .letGo i admitted => s.advance i fun e =>
    match e.phase with
    | .limited bot method => if admitted then .admitted bot method else .dropped
    | phase => phase
  | .check i => s.advance i fun e =>
    match e.phase with
    | .admitted bot method =>
      if e.reply.boundTo.any fun binding => !holdsToken s.shared binding bot.token then .dropped else .checked bot method
    | phase => phase
  | .enter i => s.advance i fun e =>
    match e.phase with
    | .checked bot method => if (s.gateway.cells.gates bot.gate).isParked then .dropped else .sent bot method
    | phase => phase
  | .drop i => s.advance i fun e =>
    match e.phase with
    | .sent bot method => .sent bot method
    | _ => .dropped

def run (r : LocalFiles.Readers) (s : System m u) (events : List (Event u)) : System m u := events.foldl (step r) s

end System

end Tgin.Replies
