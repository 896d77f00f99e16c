import Tgin.Config.HttpPaths
import Tgin.Config.Validate

/-! The resolved configuration, `config/resolve.rs`: secrets expanded, URLs parsed, consumer names replaced by dense ids and rules
    compiled. `Sensitive` values are what they expose. -/

namespace Tgin.Config
open Checked Raw Rules Diagnostics
open Gateway (Urls)
open Parking (UpstreamKind)
open Gateway.GatewayPath (isAlphanumeric gatewayToken)

namespace Loaded
variable (u : Urls) (IpNet : Type)

structure Tls where
  certFile : Str
  keyFile : Str
  deriving DecidableEq, Repr

structure Server where
  listen : List SocketAddr
  tls : Option Tls
  trustedProxies : List IpNet
  maxConnections : Nat
  headerReadTimeout : Duration

structure Admin where
  listen : List SocketAddr
  token : Option Str
  publicMetrics : Bool

structure Reload where
  watch : Bool
  debounce : Duration
  drainTimeout : Duration

structure Runtime where
  /-- `none` is one per CPU. -/
  workerThreads : Option Nat
  lameDuck : Duration
  shutdownGrace : Duration

structure LongPoll where
  timeout : Duration
  limit : UInt32
  allowedUpdates : Option (List Str)
  deleteWebhookOnStart : Bool

inductive WebhookSecret where
  /-- Derived from the bot token. -/
  | auto
  | none
  | token (secret : Str)
  deriving DecidableEq, Repr

structure Webhook where
  path : Str
  publicUrl : Option u.Url
  register : Bool
  secretToken : WebhookSecret
  allowedUpdates : Option (List Str)
  maxConnections : Option UInt32
  dropPendingUpdates : Bool
  ipAddress : Option IpAddr
  certificateFile : Option Str
  ipAllowlist : IpAllowlist IpNet

inductive Ingress where
  | longPoll (poll : LongPoll)
  | webhook (hook : Webhook u IpNet)

structure Bot where
  name : Str
  token : Str
  upstream : Gateway.Upstream u
  allowLocalFiles : Bool
  ingress : Option (Ingress u IpNet)
  gateway : Gateway.Settings
  /-- In order; the first match wins. -/
  rules : List RuleSpec

structure Pull where
  queue : Queue.QueueConfig
  authToken : Option Str
  aliases : List Str
  honorDropPending : Bool

structure Endpoint where
  url : u.Url
  secretToken : Option Str
  timeout : Duration

structure Push where
  /-- Empty only with `acceptSetWebhook`. -/
  endpoints : List (Endpoint u)
  balance : Balance
  maxInFlight : Nat
  ordering : Queue.Ordering
  capacity : Nat
  capacityBytes : Nat
  onFull : Queue.OnFull
  retry : Retry
  breaker : BreakerConfig
  acceptSetWebhook : Bool
  webhookReply : WebhookReply
  honorDropPending : Bool

inductive ConsumerKind where
  | pull (pull : Pull)
  | push (push : Push u)

structure Consumer where
  id : ConsumerId
  name : Str
  kind : ConsumerKind u

end Loaded

/-- A loaded configuration. -/
structure Loaded (u : Urls) (IpNet : Type) where
  runtime : Loaded.Runtime
  log : Log
  server : Option (Loaded.Server IpNet)
  admin : Loaded.Admin
  reload : Loaded.Reload
  /-- The named `upstreams`, in file order. -/
  upstreams : List (Gateway.Upstream u)
  /-- In file order. -/
  bots : List (Loaded.Bot u IpNet)
  /-- Indexed by `ConsumerId`. -/
  consumers : List (Loaded.Consumer u)

/-! ### The resolver -/

/-- What was expanded so far: every secret, every bot token with the first bot that has it, and every HTTP path. -/
@[ext] structure Found where
  secrets : List Str
  tokens : List (Str × Nat)
  paths : HttpPaths

instance : Monoid Found where
  one := { secrets := [], tokens := [], paths := [] }
  mul e e' := { secrets := e.secrets ++ e'.secrets, tokens := e.tokens ++ e'.tokens, paths := e.paths ++ e'.paths }
  mul_assoc _ _ _ := Found.ext (List.append_assoc ..) (List.append_assoc ..) (List.append_assoc ..)
  one_mul _ := Found.ext rfl rfl rfl
  mul_one _ := Found.ext (List.append_nil _) (List.append_nil _) (List.append_nil _)

abbrev oneSecret (value : Str) : Found := { secrets := [value], tokens := [], paths := [] }

abbrev Resolve := Check Found ConfigError

section
variable {u : Urls} {m : Matchers} {IpNet : Type} (w : World u)

/-- The resolved text of an interpolation error. -/
def InterpError.display : InterpError → Str
  | .missingVar name => utf8 "environment variable " ++ name ++ utf8 " is not set"
  | .unreadableFile path error => utf8 "cannot read " ++ path ++ utf8 ": " ++ error
  | .badSyntax what => utf8 "bad interpolation: " ++ what
  | .unknownScheme scheme => utf8 "unknown interpolation scheme " ++ quoted scheme ++ utf8 "; expected `env` or `file`"

/-- A malformed reference or unknown scheme in `what`, without the written text, which may hold credentials. -/
def malformed (path : Str) (location : Location) (what : String) : Diagnostics :=
  error path location (utf8 "cannot expand the " ++ utf8 what ++ utf8 ": a `$\x7b…\x7d` reference is malformed")
    (some (utf8 "references are `$\x7benv:NAME\x7d` or `$\x7bfile:PATH\x7d`; write `$$\x7b` for a literal `$\x7b`"))

/-- Why a text that may hold credentials was not expanded: a missing variable or unreadable file is named, which the operator wrote. -/
def unexpanded (path : Str) (location : Location) (what : String) : InterpError → Diagnostics
  | .missingVar name => error path location (InterpError.missingVar name).display
  | .unreadableFile file reason => error path location (InterpError.unreadableFile file reason).display
  | .badSyntax _ | .unknownScheme _ => malformed path location what

/-- Expands references in a secret. -/
def secret (path : Str) (text : SecretText) : Resolve (Option Str) :=
  match interpolate text.value w.env w.baseDir with
  | .error err => do
    Check.report (unexpanded path text.location "secret" err)
    return none
  | .ok value =>
    if value = [] then do
      Check.report (error path text.location (utf8 "the secret is empty"))
      return none
    else do
      Check.append (oneSecret value)
      return some value

/-- 1 to 256 ASCII letters, digits, `_` or `-`. -/
def headerSafeSecret (secret : Str) : Bool :=
  (1 ≤ secret.length && secret.length ≤ 256) && secret.all fun c => isAlphanumeric c || c = 95 || c = 45

/-- A `secret_token` sent as a header. -/
def headerSecret (path : Str) (text : SecretText) : Resolve (Option Str) := do
  let some secret ← secret w path text | return none
  if headerSafeSecret secret then return some secret
  else
    Check.report (error path text.location (utf8 "the secret_token is not a valid secret header value")
      (some (utf8 "it is sent as `X-Telegram-Bot-Api-Secret-Token`: use 1 to 256 ASCII letters, digits, `_` or `-`")))
    return none

/-- Non-empty, and only ASCII letters, digits, `:`, `_` and `-`. -/
def validBotToken (token : Str) : Bool := !token.isEmpty && token.all fun b => isAlphanumeric b || b = 58 || b = 95 || b = 45

/-- A bot token. One the gateway cannot serve only warns. -/
def botToken (path : Str) (text : SecretText) : Resolve (Option Str) := do
  let some token ← secret w path text | return none
  if validBotToken token then
    Check.report (.when (¬gatewayToken token) (warning path text.location
      (utf8 "the Bot API gateway cannot serve this bot: its token is not shaped `<digits>:<secret>`, as Telegram issues them")))
    return some token
  else
    Check.report (error path text.location (utf8 "this is not a valid bot token")
      (some (utf8 "a bot token uses only [A-Za-z0-9:_-]; look for a space, quotes or an extra newline in the value or its file")))
    return none

def template (path : Str) (text : Template) : Resolve (Option Str) :=
  match interpolate text.value w.env w.baseDir with
  | .ok value => pure (some value)
  | .error err => do
    Check.report (error path text.location err.display)
    return none

/-- A file path; a relative one is resolved against the configuration's directory. -/
def file (path : Str) (text : Template) : Resolve (Option Str) := do
  let some value ← template w path text | return none
  if value = [] then
    Check.report (error path text.location (utf8 "the file path is empty"))
    return none
  else return some (join w.baseDir value)

def addPath (path http : Str) (location : Location) : Resolve Unit := fun s =>
  let (paths, reports) := HttpPaths.add w s.paths path http location
  { value := (), state := { s with paths }, reports }

/-- An HTTP route path, checked against every other configured path. -/
def route (path : Str) (text : Template) : Resolve (Option Str) := do
  let some value ← template w path text | return none
  addPath w path value text.location
  return some value

def HTTP : Str := utf8 "http"
def HTTPS : Str := utf8 "https"

def schemeAllowed (httpsOnly : Bool) (url : u.Url) : Bool :=
  if httpsOnly then u.scheme url = HTTPS else u.scheme url = HTTP || u.scheme url = HTTPS

/-- An `http` or `https` URL; only `https` if `httpsOnly`. -/
def url (path : Str) (text : Template) (httpsOnly : Bool) : Resolve (Option u.Url) :=
  match interpolate text.value w.env w.baseDir with
  | .error err => do
    Check.report (unexpanded path text.location "URL" err)
    return none
  | .ok value =>
    match w.parseUrl value with
    | .error err => do
      Check.report (error path text.location (utf8 "invalid URL: " ++ err))
      return none
    | .ok url =>
      if ¬schemeAllowed httpsOnly url then do
        Check.report (error path text.location (utf8 "the URL scheme must be " ++ utf8 (if httpsOnly then "https" else "http or https")))
        return none
      else pure (some url)

/-- A check of a value that may be absent. -/
def optional {α β : Type} (value : Option α) (check : α → Resolve (Option β)) : Resolve (Option β) :=
  match value with
  | none => pure none
  | some value => check value

def tls (tls : Raw.Tls) : Resolve (Option Loaded.Tls) := do
  let certFile ← file w (utf8 "server.tls.cert_file") tls.certFile
  let keyFile ← file w (utf8 "server.tls.key_file") tls.keyFile
  return certFile.bind fun certFile => keyFile.map fun keyFile => { certFile, keyFile }

/-- The data plane's server with its certificate resolved. -/
def serverWith (server : Raw.Server IpNet) (tls : Option Loaded.Tls) : Loaded.Server IpNet where
  listen := server.listen.map (·.value)
  tls
  trustedProxies := server.trustedProxies
  maxConnections := server.maxConnections.value
  headerReadTimeout := server.headerReadTimeout.value.value

def server (server : Raw.Server IpNet) : Resolve (Loaded.Server IpNet) := do
  let tls ← optional server.tls (tls w)
  return serverWith server tls

/-- A dense id for the bot or consumer number `index`, if one is left. -/
def id (index : Nat) (path : Str) (location : Location) (what : String) : Resolve (Option UInt16) :=
  if index < 2 ^ 16 then pure (some (.ofNat index))
  else do
    Check.report (error path location (utf8 "too many " ++ utf8 what ++ utf8 "; at most 65536"))
    return none

/-! ### Consumers -/

def endpoint (path : Str) (k : Nat) (e : Raw.Endpoint) : Resolve (Option (Loaded.Endpoint u)) := do
  let path := entry (field path "push.endpoints") k
  let url ← url w (field path "url") e.url false
  let secretToken ← optional e.secretToken (headerSecret w (field path "secret_token"))
  return url.map fun url => { url, secretToken, timeout := e.timeout.value.value }

/-- A push consumer with its endpoints resolved. -/
def pushWith (push : Raw.Push) (endpoints : List (Loaded.Endpoint u)) : Loaded.Push u where
  endpoints
  balance := push.balance
  maxInFlight := push.maxInFlight.value
  ordering := push.ordering
  capacity := push.capacity.value
  capacityBytes := push.capacityBytes.value
  onFull := push.onFull
  retry := {
    initial := push.retry.initial.value.value, max := push.retry.max.value.value
    maxAttempts := push.retry.maxAttempts.value.toNat, maxAge := push.retry.maxAge.value.value }
  breaker := { failureThreshold := push.breaker.failureThreshold.value.toNat, openFor := push.breaker.openFor.value.value }
  acceptSetWebhook := push.acceptSetWebhook
  webhookReply := push.webhookReply
  honorDropPending := push.honorDropPending

def pushConsumer (path : Str) (push : Raw.Push) : Resolve (Loaded.Push u) := do
  let endpoints ← Check.each (endpoint w path) 0 push.endpoints.value
  return pushWith push endpoints.reduceOption

/-- A pull consumer with its token and aliases resolved. -/
def pullWith (pull : Raw.Pull) (authToken : Option Str) (aliases : List Str) : Loaded.Pull where
  queue := {
    capacity := pull.capacity.value, capacityBytes := pull.capacityBytes.value, leaseTimeout := pull.leaseTimeout.value.value
    ordering := pull.ordering, onFull := pull.onFull }
  authToken
  aliases
  honorDropPending := pull.honorDropPending

def pullConsumer (path : Str) (pull : Raw.Pull) : Resolve Loaded.Pull := do
  let authToken ← optional pull.authToken (secret w (field path "pull.auth_token"))
  let aliases ← Check.each (fun k => route w (entry (field path "pull.aliases") k)) 0 pull.aliases
  return pullWith pull authToken aliases.reduceOption

def consumerKind (path : Str) : Raw.Consumer → Resolve (Loaded.ConsumerKind u)
  | .pull pull => do return .pull (← pullConsumer w path pull)
  | .push push => do return .push (← pushConsumer w path push)

/-- A consumer, unless no id is left. -/
def loadedConsumer (index : Nat) (named : Str × At Raw.Consumer) : Resolve (Option (Loaded.Consumer u)) := do
  let (name, consumer) := named
  let path := utf8 "consumers." ++ name
  let some id ← id index path consumer.location "consumers" | return none
  let kind ← consumerKind w path consumer.value
  return some { id, name, kind }

def loadedConsumers (raw : RawConfig IpNet) : Resolve (List (Loaded.Consumer u)) :=
  Check.whileSome (loadedConsumer w) 0 raw.consumers.entries

/-! ### Upstreams -/

def CLOUD_RESPONSE_TIMEOUT : Duration := secs 60
def LOCAL_RESPONSE_TIMEOUT : Duration := secs 600

/-- What a plain-http URL off loopback hints. -/
def BOT_API_HINT : String := "use https, or keep the Bot API server on a network only tgin reaches"
def FILE_SERVER_HINT : String := "use https, or keep the file server on a network only tgin reaches"
def SHORTHAND_HINT : String :=
  "use https, or keep the Bot API server on a network only tgin reaches; a self-hosted Bot API server belongs in `upstreams: \x7b <name>: \x7b kind: local, url: … \x7d \x7d` with the bot's `upstream: <name>`, for tgin to serve its files and make its local `getFile` paths downloadable"

/-- Whether the host is this machine: a loopback address or `localhost`. -/
def loopback (url : u.Url) : Bool :=
  match w.hostIp url with
  | some ip => isLoopback ip
  | none => (u.hostStr url).any (Str.eqIgnoreAsciiCase · (utf8 "localhost"))

/-- An upstream's URL. Plain `http` to a host that is not loopback warns. -/
def upstreamUrl (path name : Str) (text : Template) (hint : String) : Resolve (Option u.Url) := do
  let some url ← url w path text false | return none
  Check.report (.when (u.scheme url = HTTP ∧ ¬loopback w url) (warning path text.location
    (utf8 "upstream " ++ quoted name ++ utf8 " sends bot tokens over plain http to a host that is not loopback") (some (utf8 hint))))
  return some url

/-- The `files` of the upstream `name`. -/
def upstreamFiles (path name : Str) (files : Raw.Files) : Resolve (Option (Gateway.Files u)) :=
  match files.url with
  | some text => do
    let url ← upstreamUrl w (field path "url") name text FILE_SERVER_HINT
    return url.map .url
  | none =>
    match files.dir with
    | none => pure none
    | some text => do
      let dirPath := field path "dir"
      let some dir ← file w dirPath text | return none
      match w.absolute dir with
      | .error err =>
        Check.report (error dirPath text.location (utf8 "cannot make the directory absolute: " ++ err))
        return none
      | .ok dir =>
        match files.serverDir with
        | none => return some (.dir ⟨dir⟩ ⟨dir⟩)
        | some text =>
          let path := field path "server_dir"
          let some serverDir ← template w path text | return none
          if serverDir.head? ≠ some slash then
            Check.report (error path text.location (utf8 "`server_dir` must be an absolute path")
              (some (utf8 "it is the files directory as the Bot API server sees it (its `--files-dir`), whose absolute paths `getFile` answers in local mode")))
            return none
          else return some (.dir ⟨dir⟩ ⟨serverDir⟩)

/-- The `files` of the upstream `name`, if it has any. -/
def givenFiles (path name : Str) : Option (At Raw.Files) → Resolve (Option (Option (Gateway.Files u)))
  | none => pure (some none)
  | some files => do
    let files ← upstreamFiles w path name files.value
    return files.map some

/-- The longest wait for an upstream's response: as written, or the kind's own. -/
def responseTimeout (upstream : Raw.Upstream) : Duration :=
  match upstream.responseTimeout with
  | some timeout => timeout.value.value
  | none => match upstream.kind.value with
    | .cloud => CLOUD_RESPONSE_TIMEOUT
    | .local => LOCAL_RESPONSE_TIMEOUT

/-- An upstream with its URL and files resolved. -/
def upstreamWith (name : Str) (upstream : Raw.Upstream) (url : u.Url) (files : Option (Gateway.Files u)) : Gateway.Upstream u where
  name
  kind := upstream.kind.value
  url
  localMode := upstream.localMode.value
  files
  responseTimeout := responseTimeout upstream

def namedUpstream (named : Str × At Raw.Upstream) : Resolve (Option (Gateway.Upstream u)) := do
  let (name, { value := upstream, .. }) := named
  let path := utf8 "upstreams." ++ name
  let url ← upstreamUrl w (field path "url") name upstream.url BOT_API_HINT
  let files ← givenFiles w (field path "files") name upstream.files
  return url.bind fun url => files.map fun files => upstreamWith name upstream url files

/-- The named upstreams; one that fails to resolve is left out. -/
def namedUpstreams (raw : RawConfig IpNet) : Resolve (List (Gateway.Upstream u)) := do
  return (← Check.each (fun _ => namedUpstream w) 0 raw.upstreams.entries).reduceOption

/-! ### Bots -/

/-- `https://api.telegram.org`. -/
def API_URL : Template := .new (utf8 "https://api.telegram.org")

/-- A bot's own upstream. -/
def shorthand (url : u.Url) : Gateway.Upstream u where
  name := Gateway.Upstream.SHORTHAND
  kind := .cloud
  url
  localMode := false
  files := none
  responseTimeout := CLOUD_RESPONSE_TIMEOUT

/-- The URL of a bot's own upstream. -/
def ownUrl (path : Str) : Option Template → Resolve (Option u.Url)
  | some text => upstreamUrl w path Gateway.Upstream.SHORTHAND text SHORTHAND_HINT
  | none => url w path API_URL false

/-- The bot's named upstream, or its own from `api_url` or the default. -/
def upstreamOfBot (path : Str) (bot : Raw.Bot IpNet) (upstreams : List (Gateway.Upstream u)) : Resolve (Option (Gateway.Upstream u)) :=
  match bot.upstream with
  | some name => pure (upstreams.find? (·.name = name.value))
  | none => do
    let url ← ownUrl w (field path "api_url") bot.apiUrl
    return url.map shorthand

/-- The ports Telegram posts webhooks to. -/
def WEBHOOK_PORTS : List Nat := [443, 80, 88, 8443]

/-- A webhook's `public_url`, by the rules of the bot's upstream. -/
def publicUrl (path : Str) (text : Template) (rules : WebhookRules) : Resolve (Option u.Url) := do
  let some url ← url w path text (!rules.httpAllowed) | return none
  let port := w.port url
  if !rules.anyPort && !port.any WEBHOOK_PORTS.contains then
    Check.report (error path text.location
      (utf8 "webhooks are posted only to ports 443, 80, 88 and 8443, not to port" ++ (port.elim [] fun port => 32 :: number port))
      (some (utf8 "only a `local` upstream with `local_mode: true` posts webhooks to any port")))
    return none
  else return some url

def webhookSecret (path : Str) : Raw.WebhookSecret → Resolve Loaded.WebhookSecret
  | .auto => pure .auto
  | .none => pure .none
  | .secret text => do
    match ← headerSecret w (field path "secret_token") text with
    | some secret => return .token secret
    | none => return .none

/-- The path a webhook is served on: `/webhook/<bot name>` if none is written. -/
def hookPath (name : Str) (location : Location) (hook : Raw.Webhook IpNet) : Template :=
  hook.path.getD { value := utf8 "/webhook/" ++ name, location }

/-- A webhook with its path, URL, secret and certificate resolved. -/
def webhookWith (hook : Raw.Webhook IpNet) (path : Str) (publicUrl : Option u.Url) (secretToken : Loaded.WebhookSecret)
    (certificateFile : Option Str) : Loaded.Webhook u IpNet where
  path
  publicUrl
  register := hook.register.value
  secretToken
  allowedUpdates := hook.allowedUpdates
  maxConnections := hook.maxConnections.map (·.value)
  dropPendingUpdates := hook.dropPendingUpdates
  ipAddress := hook.ipAddress
  certificateFile
  ipAllowlist := hook.ipAllowlist.value

def loadedWebhook (path name : Str) (location : Location) (rules : WebhookRules) (hook : Raw.Webhook IpNet) :
    Resolve (Loaded.Webhook u IpNet) := do
  let path := field path "ingress.webhook"
  let route ← route w (field path "path") (hookPath name location hook)
  let publicUrl ← optional hook.publicUrl fun text => publicUrl w (field path "public_url") text rules
  let secretToken ← webhookSecret w path hook.secretToken
  let certificateFile ← optional hook.certificateFile (file w (field path "certificate_file"))
  return webhookWith hook (route.getD []) publicUrl secretToken certificateFile

def loadedIngress (path name : Str) (rules : WebhookRules) (ingress : At (Raw.Ingress IpNet)) : Resolve (Loaded.Ingress u IpNet) :=
  match ingress.value with
  | .longPoll poll => pure (.longPoll {
      timeout := poll.timeout.value.value, limit := poll.limit.value, allowedUpdates := poll.allowedUpdates
      deleteWebhookOnStart := poll.deleteWebhookOnStart })
  | .webhook hook => do return .webhook (← loadedWebhook w path name ingress.location rules hook)

/-- A zero count or burst, which is rejected, has a stand-in. -/
def nonZero (n : UInt32) : Limit.NonZeroU32 :=
  if h : 0 < n.toNat then ⟨n.toNat, h, n.toNat_lt⟩ else ⟨1, Limit.one_nonZeroU32⟩

def loadedRate (rate : Raw.Rate) : Rate := { count := nonZero rate.count.value, per := rate.per.value.value, burst := nonZero rate.burst.value }

def loadedGateway (gateway : Raw.Gateway) : Gateway.Settings :=
  let limit := gateway.rateLimit
  { upstreamIdleTimeout := gateway.upstreamIdleTimeout.value.value
    rateLimit := {
      methods := limit.methods.value.map fun method => method.value.toAsciiLowercase
      rates := {
        mode := limit.mode, maxDelay := limit.maxDelay.value.value, global := loadedRate limit.global
        perChat := loadedRate limit.perChat, perGroup := loadedRate limit.perGroup } }
    retry429MaxWait := gateway.retry429.maxWait.value.value }

/-- Stands in for a consumer that does not exist. -/
def PLACEHOLDER : ConsumerId := 65535

def chatType : Raw.ChatType → Rules.ChatType
  | .privateChat => .privateChat
  | .group => .group
  | .supergroup => .supergroup
  | .channel => .channel

/-- The weights of a split of so many children: 1 each where those written will not do. -/
def splitWeights (strategy : SplitStrategy) (among : Nat) (weights : Option (At (List (At UInt32)))) : List UInt32 :=
  match strategy with
  | .roundRobin | .hashChat => []
  | .weighted =>
    let weights := (weights.map fun ws => ws.value.map (·.value)).getD []
    if weights.length = among ∧ ¬weights.contains 0 then weights else List.replicate among 1

mutual

def targetSpec (consumers : IndexMap (At Raw.Consumer)) : Target → TargetSpec
  | .consumer name =>
    match consumers.getIndexOf name with
    | some index => .consumer (if index < 2 ^ 16 then .ofNat index else PLACEHOLDER)
    | none => .consumer PLACEHOLDER
  | .all children => .all (targetSpecs consumers children)
  | .split strategy among weights =>
    .split strategy.value (targetSpecs consumers among) (splitWeights strategy.value among.length weights)

def targetSpecs (consumers : IndexMap (At Raw.Consumer)) : List (At Target) → List TargetSpec
  | [] => []
  | { value, .. } :: rest => targetSpec consumers value :: targetSpecs consumers rest

end

/-- The rule as the engine runs it; what validation rejected has a stand-in. -/
def ruleSpec (route : Route) (consumers : IndexMap (At Raw.Consumer)) : RuleSpec where
  predicates := route.match'.elim {} fun m => {
    updateTypes := m.updateTypes, chatIds := m.chatIds, chatTypes := m.chatTypes.map chatType, userIds := m.userIds
    commands := (m.commands.filter fun c => validCommand c.value).map (·.value), text := m.text, callbackData := m.callbackData }
  targets := targetSpecs consumers route.to'

end

section
variable {u : Urls} {m : Matchers} {IpNet : Type} (w : World u) (ruleMessage : RuleError m → Str)

/-- Compiles one rule alone, so that every bad rule is reported. -/
def compileRule (path : Str) (location : Location) (spec : RuleSpec) : Diagnostics :=
  match (RouteTable.compile 0 [(0, [spec])] [] : Except (RuleError m) (RouteTable m)) with
  | .error err => error path location (ruleMessage err)
  | .ok _ => .none

/-- The rules of the bot at `path`. -/
def rules (path : Str) (raw : RawConfig IpNet) (bot : Raw.Bot IpNet) : Resolve (List RuleSpec) :=
  Check.each (fun j (route : At Route) => do
    let spec := ruleSpec route.value raw.consumers
    Check.report (compileRule ruleMessage (entry (field path "routes") j) route.location spec)
    return spec) 0 bot.routes

/-- Takes a bot's token; that of an earlier bot is reported. -/
def takeToken (raw : RawConfig IpNet) (index : Nat) (path : Str) (location : Location) (token : Str) : Resolve Unit := fun s =>
  match s.tokens.lookup token with
  | none => { value := (), state := { s with tokens := s.tokens ++ [(token, index)] }, reports := .none }
  | some first =>
    { value := (), state := s
      reports := error path location
        (entry (utf8 "bots") first ++ utf8 " (" ++ quoted ((raw.bots[first]?).elim [] (·.name.value)) ++ utf8 ") already has this token")
        (some (utf8 "Telegram splits a token's updates between everyone who receives them; give each bot its own token")) }

def takeGiven (raw : RawConfig IpNet) (index : Nat) (path : Str) (location : Location) : Option Str → Resolve Unit
  | some token => takeToken raw index path location token
  | none => pure ()

/-- A bot with its token, upstream, ingress and rules resolved. -/
def botWith (bot : Raw.Bot IpNet) (token : Str) (upstream : Gateway.Upstream u) (ingress : Option (Loaded.Ingress u IpNet))
    (rules : List RuleSpec) : Loaded.Bot u IpNet where
  name := bot.name.value
  token
  upstream
  allowLocalFiles := bot.allowLocalFiles
  ingress
  gateway := loadedGateway bot.gateway
  rules

/-- A bot, unless no id is left; one whose token or upstream failed to resolve is left out. -/
def loadedBot (raw : RawConfig IpNet) (upstreams : List (Gateway.Upstream u)) (index : Nat) (bot : Raw.Bot IpNet) :
    Resolve (Option (Option (Loaded.Bot u IpNet))) := do
  let path := entry (utf8 "bots") index
  let some _ ← id index path bot.name.location "bots" | return none
  let token ← botToken w (field path "token") bot.token
  takeGiven raw index (field path "token") bot.token.location token
  let upstream ← upstreamOfBot w path bot upstreams
  let ingress ← optional bot.ingress fun ingress => do
    return some (← loadedIngress w path bot.name.value (webhookRules raw bot) ingress)
  let rules ← rules ruleMessage path raw bot
  return some (token.bind fun token => upstream.map fun upstream => botWith bot token upstream ingress rules)

def loadedBots (raw : RawConfig IpNet) (upstreams : List (Gateway.Upstream u)) : Resolve (List (Loaded.Bot u IpNet)) := do
  return (← Check.whileSome (loadedBot w ruleMessage raw upstreams) 0 raw.bots).reduceOption

/-- A configuration with its parts resolved. -/
def loadedWith (raw : RawConfig IpNet) (consumers : List (Loaded.Consumer u)) (upstreams : List (Gateway.Upstream u))
    (bots : List (Loaded.Bot u IpNet)) (server : Option (Loaded.Server IpNet)) (token : Option Str) : Loaded u IpNet where
  runtime := {
    workerThreads := match raw.runtime.workerThreads with
      | .auto => none
      | .count n _ => some n
    lameDuck := raw.runtime.lameDuck.value.value, shutdownGrace := raw.runtime.shutdownGrace.value.value }
  log := raw.log
  server
  admin := { listen := raw.admin.listen.map (·.value), token, publicMetrics := raw.admin.publicMetrics }
  reload := {
    watch := raw.reload.watch, debounce := raw.reload.debounce.value.value, drainTimeout := raw.reload.drainTimeout.value.value }
  upstreams
  bots
  consumers

/-- Expands secrets, URLs and paths, and resolves names to ids. -/
def resolved (raw : RawConfig IpNet) : Resolve (Loaded u IpNet) := do
  let consumers ← loadedConsumers w raw
  let upstreams ← namedUpstreams w raw
  let bots ← loadedBots w ruleMessage raw upstreams
  let server ← optional raw.server fun s => do return some (← server w s)
  let token ← optional raw.admin.token (secret w (utf8 "admin.token"))
  return loadedWith raw consumers upstreams bots server token

/-! ### Loading -/

/-- The first rule with a `regex` match. -/
def firstRegexRoute (raw : RawConfig IpNet) : Option (Str × Location) :=
  let isRegex : Option TextMatch → Bool
    | some (.regex _) => true
    | _ => false
  raw.bots.zipIdx.findSome? fun (bot, i) => bot.routes.zipIdx.findSome? fun (route, j) => do
    let m ← route.value.match'
    if isRegex m.text || isRegex m.callbackData then some (entry (field (entry (utf8 "bots") i) "routes") j, route.location) else none

/-- The `bots` list, located at its first bot. -/
def botsAt (raw : RawConfig IpNet) : Str × Location := (utf8 "bots", (raw.bots.head?.map (·.name.location)).getD .UNKNOWN)

/-- The rules of every bot, by number. -/
def sources (bots : List (Loaded.Bot u IpNet)) : List (SourceId × List RuleSpec) :=
  bots.zipIdx.filterMap fun (bot, index) => if index < 2 ^ 16 then some (.ofNat index, bot.rules) else none

/-- Compiles every bot's rules together, as the engine will. -/
def compileAll (raw : RawConfig IpNet) (bots : List (Loaded.Bot u IpNet)) : Diagnostics :=
  match (RouteTable.compile 0 (sources bots) [] : Except (RuleError m) (RouteTable m)) with
  | .ok _ => .none
  | .error err =>
    match err with
    | .invalid source rule _ =>
      let index := source.toNat
      let location := ((raw.bots[index]?).bind fun bot => bot.routes[rule]?).map (·.location)
      error (entry (field (entry (utf8 "bots") index) "routes") rule) (location.getD .UNKNOWN) (ruleMessage err)
    | .regexSet _ =>
      let (path, location) := (firstRegexRoute raw).getD (botsAt raw)
      error path location (ruleMessage err)
        (some (utf8 "the regex size limits apply to the `regex` matches of every bot and rule together"))
    | .duplicateSource _ =>
      let (path, location) := botsAt raw
      error path location (ruleMessage err)

/-- Where an error is listed. -/
def sortKey (err : ConfigError) : Nat × Nat := err.place.elim (U32_MAX, U32_MAX) fun at' => (at'.line, at'.column)

def atOrBefore (a b : ConfigError) : Bool :=
  (sortKey a).1 < (sortKey b).1 || (sortKey a).1 = (sortKey b).1 && (sortKey a).2 ≤ (sortKey b).2

/-- What loading gives: the configuration, the secrets that its texts are shown without, and what was found that does not reject it. -/
structure Accepted (u : Urls) (IpNet : Type) where
  config : Loaded u IpNet
  masker : List Str
  warnings : List ConfigError

/-- What the configuration resolves to, and every error and warning about it. -/
def check (raw : RawConfig IpNet) : Loaded u IpNet × List Str × Diagnostics :=
  let first := resolved w ruleMessage raw 1
  let found := validate raw ++ first.reports
  (first.value, first.state.secrets, if found.errors.isEmpty then found ++ compileAll ruleMessage raw first.value.bots else found)

/-- Validates and resolves a configuration as it was read; the errors are ordered by position. -/
def load (raw : RawConfig IpNet) : Except (List ConfigError) (Accepted u IpNet) :=
  let (config, masker, found) := check w ruleMessage raw
  if found.errors.isEmpty then .ok { config, masker, warnings := found.warnings }
  else .error (found.errors.mergeSort atOrBefore)

end

end Tgin.Config
