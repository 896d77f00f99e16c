import Tgin.Config.Report

/-! Checks on a configuration as written that need no environment, `config/validate.rs`. The messages and places are the source's. -/

namespace Tgin.Config.Raw
open Checked Rules Config.Diagnostics
open Parking (UpstreamKind)
open Gateway.GatewayPath (isAlphabetic isAlphanumeric)

variable {IpNet : Type}

/-- `Duration::from_secs`. -/
def secs (n : Nat) : Duration := n * 10 ^ 9

/-- A limit, as humantime writes it. -/
def limit (value : Duration) (text : String) : HumanDuration := { value, text := text.toList }

def MIN_DEBOUNCE : HumanDuration := limit (10 * 10 ^ 6) "10ms"
def MIN_LEASE_TIMEOUT : HumanDuration := limit (secs 1) "1s"
def MIN_UPSTREAM_IDLE_TIMEOUT : HumanDuration := limit (secs 1) "1s"
/-- The shortest `getUpdates` long-poll timeout. -/
def MIN_POLL_TIMEOUT : HumanDuration := limit (secs 1) "1s"
def MAX_GATEWAY_WAIT : HumanDuration := limit (secs 60) "1m"
def MAX_RESPONSE_TIMEOUT : HumanDuration := limit (secs 3600) "1h"

/-- The most connections Telegram opens to a webhook. -/
def TELEGRAM_MAX_CONNECTIONS : Nat := 100

/-- What a webhook registered with an upstream may be. -/
structure WebhookRules where
  httpAllowed : Bool
  anyPort : Bool
  maxConnections : Nat
  deriving DecidableEq, Repr

/-- Telegram's rules, unless the server is local and in local mode. -/
def WebhookRules.new (kind : UpstreamKind) (localMode : Bool) : WebhookRules :=
  let isLocal := kind = .local && localMode
  { httpAllowed := isLocal, anyPort := isLocal, maxConnections := if isLocal then 100000 else TELEGRAM_MAX_CONNECTIONS }

/-! ### Consumers -/

/-- A push consumer at `path`, which was written at `location`. -/
def push (path : Str) (location : Location) (push : Push) : Diagnostics :=
  let retryWait := "0 would retry a failed delivery without waiting; the defaults are 1s (`initial`) and 1m (`max`)"
  .when (push.endpoints.value.isEmpty ∧ ¬push.acceptSetWebhook)
    (error (field path "endpoints") (known push.endpoints.location location) (utf8 "a push consumer needs at least one endpoint")
      (some (utf8 "or set `accept_set_webhook: true` to take its endpoint from the bot's `setWebhook`"))) ++
  .each (fun k endpoint =>
    let path := field (entry (field path "endpoints") k) "timeout"
    duration path endpoint.timeout ++
    positive path endpoint.timeout
      "0 times out every request at once; give the longest a delivery may take (10s is the default)") 0 push.endpoints.value ++
  atLeastOne (field path "max_in_flight") push.maxInFlight ++
  atLeastOne (field path "capacity") push.capacity ++
  capacityBytes (field path "capacity_bytes") push.capacityBytes ++
  duration (field path "retry.initial") push.retry.initial ++
  positive (field path "retry.initial") push.retry.initial retryWait ++
  duration (field path "retry.max") push.retry.max ++
  positive (field path "retry.max") push.retry.max retryWait ++
  atLeastOne (field path "retry.max_attempts") push.retry.maxAttempts ++
  duration (field path "retry.max_age") push.retry.maxAge ++
  positive (field path "retry.max_age") push.retry.maxAge
    "0 dead-letters every update before its first attempt; 1h is the default" ++
  atLeastOne (field path "breaker.failure_threshold") push.breaker.failureThreshold ++
  duration (field path "breaker.open_for") push.breaker.openFor ++
  positive (field path "breaker.open_for") push.breaker.openFor
    "0 would let requests through as soon as the breaker opens; 30s is the default"

/-- A consumer that is served on the data plane. -/
def pull (hasServer : Bool) (path : Str) (location : Location) (pull : Pull) : Diagnostics :=
  .when (¬hasServer) (error path location (utf8 "a pull consumer needs a `server` block to serve getUpdates")) ++
  atLeastOne (field path "capacity") pull.capacity ++
  capacityBytes (field path "capacity_bytes") pull.capacityBytes ++
  duration (field path "lease_timeout") pull.leaseTimeout ++
  atLeast (field path "lease_timeout") pull.leaseTimeout (known pull.leaseTimeout.location location) MIN_LEASE_TIMEOUT
    (some "leases are expired by a check that runs once a second, so a shorter lease ends at the next check; 2m is the default")

def consumer (hasServer : Bool) (path : Str) (location : Location) : Consumer → Diagnostics
  | .pull p => pull hasServer (field path "pull") location p
  | .push p => push (field path "push") location p

def consumers (raw : RawConfig IpNet) : Diagnostics :=
  .each (fun _ (name, c) =>
    let path := utf8 "consumers." ++ name
    checkName path name c.location ++
    consumer raw.server.isSome path c.location c.value) 0 raw.consumers.entries

/-! ### Upstreams -/

/-- An upstream's `files`: `dir`, with an optional `server_dir`, or `url`. -/
def files (path : Str) (files : At Files) : Diagnostics :=
  let value := files.value
  let shape := match value.dir, value.url with
    | some _, some _ => false
    | none, none => value.serverDir.isSome
    | _, _ => true
  .when (shape = false)
    (error path files.location (utf8 "`files` takes either `dir` or `url`")
      (some (utf8 "`dir` is the server's directory mounted in tgin; `url` an HTTP origin serving it"))) ++
  .given value.serverDir fun serverDir => .when value.dir.isNone
    (error (field path "server_dir") serverDir.location
      (utf8 "`server_dir` needs `dir`: it names the same directory as the server sees it"))

/-- An upstream at `path`, which was written at `location`. -/
def upstream (path : Str) (location : Location) (upstream : Upstream) : Diagnostics :=
  .when (upstream.kind.value = .cloud)
    (.when upstream.localMode.value
      (error (field path "local_mode") (known upstream.localMode.location location) (utf8 "`local_mode` needs `kind: local`")
        (some (utf8 "only a self-hosted `telegram-bot-api` runs with `--local`"))) ++
    .given upstream.files fun files => error (field path "files") files.location (utf8 "`files` needs `kind: local`")
      (some (utf8 "a cloud upstream serves its files itself; tgin forwards file downloads to it"))) ++
  .given upstream.files (files (field path "files")) ++
  .given upstream.responseTimeout fun timeout =>
    let path := field path "response_timeout"
    duration path timeout ++
    positive path timeout "0 would fail every request; omitted, it is 1m for cloud and 10m for local" ++
    atMost path timeout MAX_RESPONSE_TIMEOUT "it bounds the wait for the Bot API server's response once a request was sent"

def upstreams (raw : RawConfig IpNet) : Diagnostics :=
  .each (fun _ (name, up) =>
    let path := utf8 "upstreams." ++ name
    (if name = Gateway.Upstream.SHORTHAND then
      error path up.location (utf8 "the upstream name `api_url` is reserved")
        (some (utf8 "a bot's `api_url` is shorthand for an unnamed upstream of that name; choose another name"))
    else checkName path name up.location) ++
    upstream path up.location up.value) 0 raw.upstreams.entries

/-- The entry of `upstreams` that `bot` names, if it names one that exists. -/
def upstreamOf (raw : RawConfig IpNet) (bot : Bot IpNet) : Option Upstream := do
  let name ← bot.upstream
  let upstream ← raw.upstreams.get name.value
  return upstream.value

/-- The webhook rules of the bot's upstream as written: Telegram's for the `api_url` shorthand, and for an unknown name. -/
def webhookRules (raw : RawConfig IpNet) (bot : Bot IpNet) : WebhookRules :=
  match upstreamOf raw bot with
  | some upstream => .new upstream.kind.value upstream.localMode.value
  | none => .new .cloud false

/-- Names between backticks, or others, separated by commas. -/
def listed (names : List Str) : Str := List.intercalate (utf8 ", ") names

/-- A bot's `upstream`: one of `upstreams`, and not with `api_url`. -/
def botUpstream (raw : RawConfig IpNet) (path : Str) (bot : Bot IpNet) (name : At Str) : Diagnostics :=
  let path := field path "upstream"
  .when bot.apiUrl.isSome
    (error path name.location (utf8 "`upstream` and `api_url` are mutually exclusive")
      (some (utf8 "`api_url` is shorthand for an unnamed cloud upstream; keep one of the two"))) ++
  .when (raw.upstreams.get name.value).isNone
    (error path name.location (utf8 "unknown upstream " ++ quoted name.value)
      (some (if raw.upstreams.entries.isEmpty then utf8 "no `upstreams` are defined"
        else utf8 "the upstreams are " ++ listed (raw.upstreams.entries.map (quoted ·.1)))))

/-! ### Ingress -/

def longPoll (path : Str) (location : Location) (poll : LongPoll) : Diagnostics :=
  duration (field path "timeout") poll.timeout ++
  atLeast (field path "timeout") poll.timeout (known poll.timeout.location location) MIN_POLL_TIMEOUT
    (some "Telegram takes whole seconds, and 0 would poll in a tight loop; use 1s or more (30s is usual)") ++
  inRange (field path "limit") poll.limit 100 location

/-- `max_connections` of a webhook whose upstream allows up to `rules.maxConnections`. -/
def webhookConnections (raw : RawConfig IpNet) (rules : WebhookRules) (path : Str) (location : Location) (max : At UInt32) : Diagnostics :=
  let n := max.value.toNat
  inRange path max rules.maxConnections location ++
  .given raw.server fun server =>
    let most := server.maxConnections.value
    .when (TELEGRAM_MAX_CONNECTIONS + 1 ≤ n ∧ n ≤ rules.maxConnections ∧ most < n)
      (error path (known max.location location)
        (utf8 "`max_connections: " ++ number n ++ utf8 "` is above `server.max_connections` (" ++ number most ++
          utf8 "); the data plane closes connections beyond that, so the Bot API server's could take every one")
        (some (utf8 "lower it to " ++ number most ++ utf8 " or less, or raise `server.max_connections`")))

def webhook (raw : RawConfig IpNet) (bot : Bot IpNet) (path : Str) (location : Location) (hook : Webhook IpNet) : Diagnostics :=
  .when raw.server.isNone (error path location (utf8 "a webhook bot needs a `server` block to receive updates")) ++
  .when (hook.register.value ∧ hook.publicUrl.isNone)
    (error (field path "register") hook.register.location
      (utf8 "`register: true` needs `public_url`, the URL the Bot API server posts updates to")) ++
  .given hook.certificateFile (fun certificate => .when (¬hook.register.value)
    (error (field path "certificate_file") certificate.location
      (utf8 "`certificate_file` is uploaded by setWebhook, so it needs `register: true`"))) ++
  .given hook.maxConnections (webhookConnections raw (webhookRules raw bot) (field path "max_connections") location) ++
  .when (hook.ipAllowlist.value.isTelegram ∧ (upstreamOf raw bot).any fun upstream => upstream.kind.value = .local)
    (error (field path "ip_allowlist") (known hook.ipAllowlist.location location)
      (utf8 "`ip_allowlist: telegram` names Telegram's networks, but a `local` upstream posts updates from its own address")
      (some (utf8 "list the Bot API server's networks as CIDRs instead, such as `[10.0.0.0/8]`")))

def ingress (raw : RawConfig IpNet) (path : Str) (bot : Bot IpNet) (ingress : At (Ingress IpNet)) : Diagnostics :=
  match ingress.value with
  | .longPoll poll => longPoll (field path "ingress.long_poll") ingress.location poll
  | .webhook hook => webhook raw bot (field path "ingress.webhook") ingress.location hook

/-! ### The gateway block -/

/-- ASCII letters, optionally followed by one `*`. -/
def validMethodPattern (method : Str) : Bool :=
  let name := if method.getLast? = some 42 then method.dropLast else method
  !name.isEmpty && name.all isAlphabetic

def rate (path : Str) (rate : Rate) : Diagnostics :=
  atLeastOne (field path "count") rate.count ++
  duration (field path "per") rate.per ++
  positive (field path "per") rate.per
    "0 would leave no time between requests; give the period `count` requests are spread over" ++
  atLeastOne (field path "burst") rate.burst

/-- A bot's `gateway` block. -/
def gateway (path : Str) (gateway : Gateway) (fallback : Location) : Diagnostics :=
  let idle := gateway.upstreamIdleTimeout
  let limit := gateway.rateLimit
  let pathLimit := field path "rate_limit"
  let maxWait := gateway.retry429.maxWait
  duration (field path "upstream_idle_timeout") idle ++
  atLeast (field path "upstream_idle_timeout") idle (known idle.location fallback) MIN_UPSTREAM_IDLE_TIMEOUT
    (some "a slow but steady Bot API answer would be cut; 1m is the default") ++
  duration (field pathLimit "max_delay") limit.maxDelay ++
  atMost (field pathLimit "max_delay") limit.maxDelay MAX_GATEWAY_WAIT
    "a client waits this long for its request to start; 5s is the default, and 0s answers 429 at once" ++
  .each (fun k (method : At Str) => .when (¬validMethodPattern method.value)
    (error (entry (field pathLimit "methods") k) method.location (utf8 "invalid method pattern " ++ quoted method.value)
      (some (utf8 "use a method name such as `sendMessage`, or a prefix followed by one `*`, such as `send*`")))) 0 limit.methods.value ++
  .when (limit.methods.value.isEmpty ∧ limit.mode ≠ .off)
    (error (field pathLimit "methods") (known limit.methods.location fallback) (utf8 "the rate limit needs at least one method")
      (some (utf8 "list the methods to limit, or set `mode: off`"))) ++
  rate (field pathLimit "global") limit.global ++
  rate (field pathLimit "per_chat") limit.perChat ++
  rate (field pathLimit "per_group") limit.perGroup ++
  duration (field path "retry_429.max_wait") maxWait ++
  atMost (field path "retry_429.max_wait") maxWait MAX_GATEWAY_WAIT
    "the client waits this long for the retry; 10s is the default, and 0s turns the retry off"

/-! ### Routes -/

/-- A consumer a rule reaches: its index, and where the target is. -/
structure Reached where
  consumer : Nat
  location : Location
  path : Str
  deriving DecidableEq, Repr

def weights (path : Str) (strategy : At SplitStrategy) (among : Nat) (weights : Option (At (List (At UInt32)))) (fallback : Location) :
    Diagnostics :=
  match weights with
  | none => .when (strategy.value = .weighted)
      (error (field path "strategy") (known strategy.location fallback) (utf8 "a weighted split needs `weights`, one per `among` entry"))
  | some weights =>
    let location := known weights.location fallback
    if strategy.value ≠ .weighted then
      error (field path "weights") location (utf8 "`weights` are only allowed with `strategy: weighted`")
    else
      .when (weights.value.length ≠ among)
        (error (field path "weights") location
          (number weights.value.length ++ utf8 " weights for " ++ number among ++ utf8 " `among` entries; give one weight per entry")) ++
      .each (fun k (weight : At UInt32) => .when (weight.value = 0)
        (error (entry (field path "weights") k) (known weight.location location) (utf8 "weights must be greater than 0"))) 0 weights.value

mutual

/-- Checks a target, with the consumers it reaches. -/
def target (consumers : IndexMap (At Consumer)) (path : Str) (location : Location) : Target → Diagnostics × List Reached
  | .consumer name =>
    match consumers.getIndexOf name with
    | some index => (.none, [{ consumer := index, location, path }])
    | none =>
      (error path location (utf8 "unknown consumer " ++ quoted name)
        (some (if consumers.entries.isEmpty then utf8 "no consumers are defined"
          else utf8 "defined consumers: " ++ listed (consumers.entries.map (·.1)))), [])
  | .all children => targets consumers (field path "all") 0 children
  | .split strategy among ws =>
    let path := field path "split"
    let (found, reached) := targets consumers (field path "among") 0 among
    (weights path strategy among.length ws location ++ found, reached)

/-- Checks the targets at `path`, from number `k` on. -/
def targets (consumers : IndexMap (At Consumer)) (path : Str) : (k : Nat) → List (At Target) → Diagnostics × List Reached
  | _, [] => (.none, [])
  | k, { value, location } :: rest =>
    let (found, reached) := target consumers (entry path k) location value
    let (found', reached') := targets consumers path (k + 1) rest
    (found ++ found', reached ++ reached')

end

/-- Whether `command`, without one optional leading `/`, is a name Telegram can send. -/
def validCommand (command : Str) : Bool :=
  let name := command.stripPrefix slash
  (1 ≤ name.length && name.length ≤ 32) && name.all fun c => isAlphanumeric c || c = 95

def commands (path : Str) (commands : List (At Str)) : Diagnostics :=
  .each (fun k (command : At Str) => .when (¬validCommand command.value)
    (error (entry (field path "match.commands") k) command.location (utf8 "invalid command " ++ quoted command.value)
      (some (utf8 "a command is 1 to 32 ASCII letters, digits or `_`, optionally after `/`, with no `@bot` suffix")))) 0 commands

/-- The rules of the bot at `path`, from number `j` on, with the consumers they reach. -/
def routes (consumers : IndexMap (At Consumer)) (path : Str) : (j : Nat) → List (At Route) → Diagnostics × List Reached
  | _, [] => (.none, [])
  | j, route :: rest =>
    let here := entry (field path "routes") j
    let (found, reached) := targets consumers (field here "to") 0 route.value.to'
    let (found', reached') := routes consumers path (j + 1) rest
    (.given route.value.match' (commands here ·.commands) ++ found ++ found', reached ++ reached')

/-- The first reference to each consumer. -/
def firsts : (seen : List Nat) → List Reached → List Reached
  | _, [] => []
  | seen, r :: rest => if seen.contains r.consumer then firsts seen rest else r :: firsts (r.consumer :: seen) rest

/-! ### Bots -/

/-- Why a consumer serves one bot only: its kind, and the rule. -/
def servesOneBot : Consumer → Option (String × String)
  | .pull _ => some ("pull", "a pull consumer serves one bot")
  | .push push => if push.acceptSetWebhook then
      some ("push", "with `accept_set_webhook: true`, a push consumer serves one bot") else none

/-- Checks that the consumers the bot `name` reaches are its own, where one bot has them; `owners` are the bots that first targeted each. -/
def owned (consumers : IndexMap (At Consumer)) (name : Str) : (owners : List (Nat × Str)) → List Reached → Diagnostics × List (Nat × Str)
  | owners, [] => (.none, owners)
  | owners, { consumer, location, path } :: rest =>
    match consumers.entries[consumer]? with
    | none => owned consumers name owners rest
    | some (consumerName, value) =>
      match servesOneBot value.value with
      | none => owned consumers name owners rest
      | some (kind, rule) =>
        match owners.lookup consumer with
        | none => owned consumers name (owners ++ [(consumer, name)]) rest
        | some owner =>
          let (found, owners) := owned consumers name owners rest
          (.when (owner ≠ name)
            (error path location (utf8 kind ++ utf8 " consumer " ++ quoted consumerName ++ utf8 " is targeted by bots " ++
              quoted owner ++ utf8 " and " ++ quoted name ++ utf8 "; " ++ utf8 rule)) ++ found, owners)

/-- What is checked of the bot number `i` by itself. -/
def bot (raw : RawConfig IpNet) (path : Str) (bot : Bot IpNet) : Diagnostics :=
  .given bot.upstream (botUpstream raw path bot) ++
  .given bot.ingress (ingress raw path bot) ++
  gateway (field path "gateway") bot.gateway bot.name.location

/-- A warning for a last rule that does not match everything. -/
def lastRoute (path : Str) (routes : List (At Route)) : Diagnostics :=
  .given routes.getLast? fun last => .when (last.value.match'.any fun m => !m.isEmpty)
    (warning (field path "routes") last.location (utf8 "last rule has a match; unmatched updates are dropped"))

/-- The bots from number `i` on. `names` are those before, with their numbers; `owners` the bots that first targeted each consumer that
    serves one bot. -/
def bots (raw : RawConfig IpNet) : (i : Nat) → (names : List (Str × Nat)) → (owners : List (Nat × Str)) → List (Bot IpNet) → Diagnostics
  | _, _, _, [] => .none
  | i, names, owners, b :: rest =>
    let path := entry (utf8 "bots") i
    let name := b.name.value
    let (found, reached) := routes raw.consumers path 0 b.routes
    let (shared, owners) := owned raw.consumers name owners (firsts [] reached)
    checkName (field path "name") name b.name.location ++
    .given (names.lookup name) (fun first => error (field path "name") b.name.location
      (utf8 "bot name " ++ quoted name ++ utf8 " is already used by " ++ entry (utf8 "bots") first)) ++
    bot raw path b ++ found ++ lastRoute path b.routes ++ shared ++
    bots raw (i + 1) (if (names.lookup name).isSome then names else names ++ [(name, i)]) owners rest

/-- Validates `raw`. HTTP paths and expanded fields need the environment, so they are checked where they are resolved. -/
def validate (raw : RawConfig IpNet) : Diagnostics :=
  .when (raw.version.value ≠ 1)
    (error (utf8 "version") raw.version.location
      (utf8 "unsupported config version " ++ number raw.version.value.toNat ++ utf8 "; this tgin reads version 1")) ++
  duration (utf8 "runtime.lame_duck") raw.runtime.lameDuck ++
  duration (utf8 "runtime.shutdown_grace") raw.runtime.shutdownGrace ++
  .given raw.server (fun server =>
    atLeastOne (utf8 "server.max_connections") server.maxConnections ++
    duration (utf8 "server.header_read_timeout") server.headerReadTimeout ++
    positive (utf8 "server.header_read_timeout") server.headerReadTimeout
      "0 would close every connection before its headers arrive; 10s is the default") ++
  .when raw.admin.token.isNone
    (.each (fun i (listen : At SocketAddr) => .when (¬isLoopback listen.value.ip)
      (error (entry (utf8 "admin.listen") i) listen.location
        (utf8 "the admin API listens on " ++ listen.value.display ++
          utf8 ", which is not a loopback address, so `admin.token` is required"))) 0 raw.admin.listen) ++
  duration (utf8 "reload.debounce") raw.reload.debounce ++
  atLeast (utf8 "reload.debounce") raw.reload.debounce raw.reload.debounce.location MIN_DEBOUNCE none ++
  duration (utf8 "reload.drain_timeout") raw.reload.drainTimeout ++
  consumers raw ++ upstreams raw ++ bots raw 0 [] [] raw.bots

end Tgin.Config.Raw
