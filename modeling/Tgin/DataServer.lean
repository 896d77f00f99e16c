import Tgin.Config.Engine
import Tgin.Engine.Lookups
import Tgin.Lib.Merge
import Tgin.Webhook

/-! The data plane's routes, `tgin/src/data_server.rs`, over reloads: webhook ingress, the `getUpdates` of the pull consumers, and the
    gateway for every other path. A reload applies a file to the engine and then serves its routes; reloads run one at a time
    (`tgin/src/reload.rs`), and drains end meanwhile. -/

namespace Tgin.DataServer
open Rules
open Config (World Loaded Loads utf8 brace close)
open Engine (Shared Control)
open Gateway (Urls)
open LocalFiles (fromUtf8 percentDecode)
open Merge (Map fill insertAll)

variable {u : Urls} {m : Matchers} {IpNet : Type}

/-- The crates: the secret that is derived of a bot's token (`aws_lc_rs`), and the serialization of a URL. -/
structure Crates (u : Urls) where
  derive : Str → Str
  text : u.Url → Str

variable (u m IpNet) in
/-- A file that loads. -/
structure File where
  world : World u
  raw : Config.Raw.RawConfig IpNet
  config : Loaded u IpNet
  loads : Loads m world raw config

/-- What the engine is given of it. -/
def File.forEngine (c : Crates u) (file : File u m IpNet) : Config := file.loads.forEngine c.text

/-! ### The pull consumers served -/

/-- What a router serves of the pull consumers: who is served, with which token, and the alias paths that reach them. -/
structure Served where
  auth : Map Str (Option Str)
  /-- Alias path to consumer. -/
  aliases : Map Str Str

def pullOf (consumer : Loaded.Consumer u) : Option (Str × Loaded.Pull) :=
  match consumer.kind with
  | .pull pull => some (consumer.name, pull)
  | .push _ => none

def hookOf (bot : Loaded.Bot u IpNet) : Option (Loaded.Webhook u IpNet) :=
  match bot.ingress with
  | some (.webhook hook) => some hook
  | _ => none

/-- The pull consumers of a configuration, by name. -/
def pulls (cfg : Loaded u IpNet) : List (Str × Loaded.Pull) := cfg.consumers.filterMap pullOf

/-- The paths of its webhooks. -/
def webhooks (cfg : Loaded u IpNet) : List Str := cfg.bots.filterMap fun bot => (hookOf bot).map (·.path)

/-- The pull consumers of a configuration, with their tokens and aliases. -/
def configured (cfg : Loaded u IpNet) : Served :=
  (pulls cfg).foldl (fun served consumer =>
    { auth := served.auth.insert consumer.1 consumer.2.authToken, aliases := insertAll consumer.2.aliases consumer.1 served.aliases })
    { auth := ∅, aliases := ∅ }

/-- The pull consumers of `cfg`, plus those of `previous` that `cfg` dropped but `engine` still drains, with the token and the aliases they
    had, except for paths that `cfg` routes itself. -/
def served (cfg : Loaded u IpNet) (previous : Served) (engine : Shared m) : Served :=
  let served := configured cfg
  let current (name : Str) := (served.auth.lookup name).isSome
  let auth := fill (fun name _ _ => !current name && (engine.pullConsumer name).isSome) previous.auth.entries served.auth
  let retired (name : Str) := !current name && (auth.lookup name).isSome
  let aliases := fill (fun path name there => retired name && there.isNone && !(webhooks cfg).contains path)
    previous.aliases.entries served.aliases
  { auth, aliases }

/-! ### Routes -/

inductive Route (IpNet : Type) where
  | webhook (ingress : Webhook.Ingress IpNet)
  /-- An alias of a pull consumer's `getUpdates`. -/
  | pull (name : Str)

/-- A path without parameters, as the router takes one. -/
def isLiteral (path : Str) : Bool :=
  path.head? = some slash && !path.contains brace && !path.contains close &&
    (path.splitOn slash).all fun segment => segment.head? ≠ some 58 && segment.head? ≠ some 42

abbrev Routes (IpNet : Type) := List (Str × Route IpNet)

/-- Adds a route; the router panics on a path that is not one, or that is there already. -/
def Routes.add (routes : Routes IpNet) (path : Str) (route : Route IpNet) : Option (Routes IpNet) :=
  if isLiteral path && (routes.lookup path).isNone then some (routes ++ [(path, route)]) else none

structure Router (IpNet : Type) where
  routes : Routes IpNet
  /-- Who may poll on `/c/<consumer>/getUpdates` and on the aliases. -/
  auth : Map Str (Option Str)

/-- 1 MiB. -/
abbrev DEFAULT_WEBHOOK_BODY_LIMIT : Nat := 2 ^ 20

/-- Which client addresses a webhook takes posts from. -/
def allowlist : Config.Raw.IpAllowlist IpNet → Webhook.IpAllowlist IpNet
  | .none => .none
  | .telegram => .telegram
  | .networks nets => .cidrs nets

/-- The secret that comes with each update of a bot's webhook; an automatic one is derived from the token. -/
def webhookSecret (c : Crates u) (bot : Loaded.Bot u IpNet) (hook : Loaded.Webhook u IpNet) : Option Str :=
  match hook.secretToken with
  | .auto => some (c.derive bot.token)
  | .none => none
  | .token secret => some secret

/-- The webhook route of a bot with the id `id`. -/
def ingressOf (c : Crates u) (server : Loaded.Server IpNet) (ingest : Str → Nat) (bot : Loaded.Bot u IpNet)
    (hook : Loaded.Webhook u IpNet) (id : SourceId) : Webhook.Ingress IpNet where
  id
  secret := webhookSecret c bot hook
  allowlist := allowlist hook.ipAllowlist
  trustedProxies := server.trustedProxies
  bodyLimit := DEFAULT_WEBHOOK_BODY_LIMIT
  ingest := ingest bot.name

/-- Adds the route of a bot with a webhook. -/
def addWebhook (c : Crates u) (server : Loaded.Server IpNet) (engine : Shared m) (ingest : Str → Nat) (routes : Routes IpNet)
    (bot : Loaded.Bot u IpNet) : Option (Routes IpNet) :=
  match hookOf bot with
  | none => some routes
  | some hook =>
    match engine.sourceId bot.name with
    -- The engine has no source for the bot: its route is not served.
    | none => some routes
    | some id => routes.add hook.path (.webhook (ingressOf c server ingest bot hook id))

/-- The routes of `cfg` and of the pull consumers served; `none` where building them panics. -/
def router (c : Crates u) (cfg : Loaded u IpNet) (server : Loaded.Server IpNet) (engine : Shared m) (ingest : Str → Nat)
    (served : Served) : Option (Router IpNet) := do
  let routes ← cfg.bots.foldlM (addWebhook c server engine ingest) ([] : Routes IpNet)
  let routes ← served.aliases.entries.foldlM (fun routes entry => Routes.add routes entry.1 (.pull entry.2)) routes
  some { routes, auth := served.auth }

/-! ### Requests -/

structure Request where
  path : Str
  /-- Its `Via` names this process. -/
  loops : Bool
  /-- The method is `GET`, `HEAD` or `POST`. -/
  polls : Bool
  /-- The first `Authorization`. -/
  authorization : Option Str

inductive Answer (IpNet : Type) where
  | loopDetected | badRequest | unauthorized | notFound | methodNotAllowed
  /-- The webhook route answers. -/
  | webhook (ingress : Webhook.Ingress IpNet)
  /-- A poll of this instance answers. -/
  | poll (slot : Nat)
  /-- The gateway answers. -/
  | gateway

/-- Whether a header carries `Bearer <expected>`; the scheme is matched case-insensitively. -/
def bearerMatches (authorization : Option Str) (expected : Str) : Bool :=
  match authorization with
  | none => false
  | some value =>
    let scheme := utf8 "bearer "
    scheme.length < value.length && Str.eqIgnoreAsciiCase (value.take scheme.length) scheme &&
      Webhook.secretEq (value.drop scheme.length) expected

/-- The consumer of `/c/<consumer>/getUpdates`, still encoded. -/
def consumerSegment (path : Str) : Option Str :=
  match path.splitOn slash with
  | [[], c, consumer, method] => if c = utf8 "c" ∧ consumer ≠ [] ∧ method = utf8 "getUpdates" then some consumer else none
  | _ => none

namespace Router
variable (router : Router IpNet)

/-- One `getUpdates` poll of the consumer `name`. -/
def getUpdates (engine : Shared m) (name : Str) (request : Request) : Answer IpNet :=
  match router.auth.lookup name with
  | none => .notFound
  | some token =>
    if token.any fun expected => !bearerMatches request.authorization expected then .unauthorized
    else
      match engine.pullConsumer name with
      | none => .notFound
      | some slot => .poll slot

/-- The answer of the routes, behind the loop check. -/
def respond (engine : Shared m) (request : Request) : Answer IpNet :=
  if request.loops then .loopDetected
  else
    match router.routes.lookup request.path with
    | some (.webhook ingress) => .webhook ingress
    | some (.pull name) => if request.polls then router.getUpdates engine name request else .methodNotAllowed
    | none =>
      match consumerSegment request.path with
      | none => .gateway
      | some segment =>
        if !request.polls then .methodNotAllowed
        else
          match fromUtf8 (percentDecode segment) with
          | none => .badRequest
          | some name => router.getUpdates engine name request

end Router

/-! ### Reloads -/

variable (u m IpNet) in
structure System where
  engine : Shared m
  /-- The file of the running configuration. -/
  file : File u m IpNet
  /-- The engine has it, and its routes are not served yet. -/
  reloading : Bool
  served : Served
  /-- `none` once building the routes panicked. -/
  router : Option (Router IpNet)

variable (u m IpNet) in
inductive Action where
  /-- A step of the engine other than a reload. -/
  | engine (control : Control)
  /-- A reload reads a file and applies it to the engine. -/
  | reload (file : File u m IpNet)
  /-- The routes are built again, at the end of a reload, or after the move of a bot failed. `ingest` is the token that each bot's webhook
      answers by. -/
  | rebuild (ingest : Str → Nat)

namespace System
variable (c : Crates u)

/-- Serves the routes of the running configuration; without a `server` section the old ones stay. -/
def rebuild (sys : System u m IpNet) (ingest : Str → Nat) : System u m IpNet :=
  match sys.file.config.server with
  | none => sys
  | some server =>
    let served := DataServer.served sys.file.config sys.served sys.engine
    { sys with served, router := DataServer.router c sys.file.config server sys.engine ingest served }

/-- The routes at the start, of a file with a `server` section. -/
def new (engine : Shared m) (file : File u m IpNet) (ingest : Str → Nat) : System u m IpNet :=
  ({ engine, file, reloading := false, served := { auth := ∅, aliases := ∅ }, router := none } : System u m IpNet).rebuild c ingest

def step (sys : System u m IpNet) : Action u m IpNet → System u m IpNet
  | .engine (.apply _) => sys
  | .engine control => { sys with engine := sys.engine.control control }
  | .reload file =>
    -- One reload at a time.
    if sys.reloading then sys
    else
      match sys.engine.apply (file.forEngine c) with
      -- It is rejected.
      | (.error _, _) => sys
      | (.ok _, engine) => { sys with engine, file, reloading := true }
  | .rebuild ingest => { sys.rebuild c ingest with reloading := false }

def run (sys : System u m IpNet) (actions : List (Action u m IpNet)) : System u m IpNet := actions.foldl (step c) sys

end System

end Tgin.DataServer
