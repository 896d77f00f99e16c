import Tgin.Config
import Tgin.Gateway.Gate

/-! Bots parked off their Bot API server: the sources of the bots (`tgin/src/sources.rs`), the gateway's table
    (`tgin-botapi/src/gateway/mod.rs`), the webhook routes, and the two jobs that change them, a reload and the move of
    a bot (`tgin/src/reload.rs`), one at a time and before shutdown begins. -/

namespace Tgin.Parking
open Rules
open Gateway (Gate)

inductive UpstreamKind where
  | cloud
  | local
  deriving DecidableEq, Repr

structure Upstream where
  name : Str
  url : Str
  kind : UpstreamKind
  localMode : Bool
  deriving DecidableEq, Repr

/-- The same Bot API server: the same name and URL. -/
def Upstream.sameServer (u other : Upstream) : Bool := u.name = other.name && u.url = other.url

/-- How a bot receives its updates, with the settings of that way. -/
inductive Ingress (X : Type) where
  | longPoll (settings : X)
  | webhook (settings : X)
  deriving DecidableEq, Repr

inductive Kind where
  | longPoll
  | webhook
  deriving DecidableEq, Repr

def Ingress.kind {X : Type} : Ingress X → Kind
  | .longPoll _ => .longPoll
  | .webhook _ => .webhook

/-- A bot of the config. `settings` is what else its gateway entry is built from: its gateway section, and the rest of
    its upstream. -/
structure Bot (X : Type) where
  name : Str
  token : Str
  upstream : Upstream
  ingress : Option (Ingress X)
  settings : X
  deriving DecidableEq, Repr

structure Config (X : Type) where
  bots : List (Bot X)
  /-- Whether the config has a data plane. -/
  server : Bool
  names : (bots.map (·.name)).Nodup

variable {X : Type}

def Config.bot (cfg : Config X) (name : Str) : Option (Bot X) := cfg.bots.find? (·.name = name)

/-- What a reload reports of the bots. The order of the names does not matter to its callers. -/
structure ReloadReport where
  sourcesAdded : List Str
  sourcesRemoved : List Str
  sourcesRestarted : List Str
  upstreamChanged : List Str

/-- Whether `new`, the bot `old` was, needs its source restarted. -/
def restarts [DecidableEq X] (old new : Bot X) : Bool :=
  !new.upstream.sameServer old.upstream || new.token ≠ old.token || new.upstream.kind ≠ old.upstream.kind
    || new.upstream.localMode ≠ old.upstream.localMode || new.ingress ≠ old.ingress

/-- The report of `Plan::build`. The bots with a source in the old state are those of its config. -/
def report [DecidableEq X] (old new : Config X) : ReloadReport where
  sourcesAdded := (new.bots.filter fun bot => (old.bot bot.name).isNone).map (·.name)
  sourcesRemoved := (old.bots.filter fun bot => (new.bot bot.name).isNone).map (·.name)
  sourcesRestarted := (old.bots.filter fun bot => (new.bot bot.name).any (restarts bot)).map (·.name)
  upstreamChanged :=
    (old.bots.filter fun bot => (new.bot bot.name).any fun new => !new.upstream.sameServer bot.upstream).map (·.name)

/-- One bot's entry in the gateway's table. -/
structure Entry (X : Type) where
  bot : Bot X
  gate : Gate
  deriving DecidableEq, Repr

/-- Whether `bot` describes the entry unchanged. -/
def Entry.same [DecidableEq X] (entry : Entry X) (bot : Bot X) : Bool :=
  entry.bot.token = bot.token && entry.bot.upstream = bot.upstream && entry.bot.settings = bot.settings

/-- Cancellation tokens, by number: how many there are, and which are cancelled. -/
structure Tokens where
  next : Nat
  cancelled : Nat → Bool

/-- Why a source is stopped. -/
inductive Stop where
  /-- It starts again. -/
  | restart
  /-- The bot stays configured, without ingress. -/
  | sourceGone
  /-- The bot is no longer configured. -/
  | botGone
  deriving DecidableEq, Repr

structure System (X : Type) where
  cfg : Config X
  table : List (Entry X)
  /-- The sources that run, by bot. -/
  started : Str → Option Kind
  /-- Each bot's stop token, from its preparation on. -/
  stops : Str → Option Nat
  /-- Bots moved off their Bot API server. -/
  parked : Str → Bool
  tokens : Tokens
  /-- The webhook routes with the token each answers by; `none` without a data plane. -/
  routes : Option (List (Str × Nat))

/-- The process's ingest token, not cancelled before shutdown begins. -/
def ingest : Nat := 0

namespace System

def named (s : System X) (name : Str) : Option (Entry X) := s.table.find? (·.bot.name = name)

def isParked (s : System X) (name : Str) : Bool := s.parked name

/-- Parks the bot in the gateway, or ends its parking there. -/
def setParked (s : System X) (name : Str) (parked : Bool) : System X :=
  { s with table := s.table.map fun entry =>
      if entry.bot.name = name then { entry with gate := entry.gate.setParked parked } else entry }

/-- Replaces the table. A bot with an entry keeps its gate. `serves` says whether an entry can be built for a bot. -/
def setBots [DecidableEq X] (s : System X) (serves : Bot X → Bool) (bots : List (Bot X)) : System X :=
  { s with table := bots.filterMap fun bot =>
      match s.named bot.name with
      | some previous =>
        if previous.same bot then some previous
        else if serves bot then some { bot, gate := previous.gate } else none
      | none => if serves bot then some { bot, gate := .new } else none }

def cancel (s : System X) (token : Option Nat) : System X :=
  { s with tokens := { s.tokens with cancelled := fun t => s.tokens.cancelled t || token = some t } }

/-- Stops the source of a bot, if it runs. Only a bot gone from the config loses its parking. -/
def stop (s : System X) (name : Str) (why : Stop) : System X :=
  let token := s.stops name
  let s := match why with
    | .restart => s
    | .sourceGone => { s with stops := Function.update s.stops name none }
    | .botGone =>
      { s.setParked name false with
        parked := Function.update s.parked name false
        stops := Function.update s.stops name none }
  { s with started := Function.update s.started name none }.cancel token

/-- Stops the ingest of a bot and parks it. -/
def park (s : System X) (name : Str) : System X :=
  { s with parked := Function.update s.parked name true, started := Function.update s.started name none }.cancel
    (s.stops name)

/-- Ends the parking of a bot, and the gateway's refusal of its calls. -/
def unpark (s : System X) (name : Str) : System X :=
  { s.setParked name false with parked := Function.update s.parked name false }

/-- What the webhook route of a bot answers by. -/
def ingestOf (s : System X) (name : Str) : Nat × System X :=
  if s.parked name then
    (s.tokens.next, { s with tokens := { s.tokens with next := s.tokens.next + 1 } }.cancel (some s.tokens.next))
  else ((s.stops name).getD ingest, s)

/-- Readies a bot's source to start, with a stop token of its own. A source that is not `ready` counts as failed. -/
def prepare (s : System X) (bot : Bot X) (ready : Bool) : System X :=
  { s with
    stops := Function.update s.stops bot.name (some s.tokens.next)
    tokens := { s.tokens with next := s.tokens.next + 1 }
    started := if ready then s.started else Function.update s.started bot.name (some ((bot.ingress.map (·.kind)).getD .longPoll)) }

/-- The routes of the webhook bots of a list, each with its token. -/
def routesOf (s : System X) : List (Bot X) → List (Str × Nat) × System X
  | [] => ([], s)
  | bot :: bots =>
    match bot.ingress with
    | some (.webhook _) =>
      let (token, s) := s.ingestOf bot.name
      let (routes, s) := routesOf s bots
      ((bot.name, token) :: routes, s)
    | _ => routesOf s bots

/-- Serves the routes of `cfg`. -/
def rebuild (s : System X) (cfg : Config X) : System X :=
  if s.routes.isSome && cfg.server then
    let (routes, s) := s.routesOf cfg.bots
    { s with routes := some routes }
  else s

/-- A source that was prepared starts. -/
def start (s : System X) (bot : Bot X) : System X :=
  { s with started := Function.update s.started bot.name (bot.ingress.map (·.kind)) }

/-- Starts the sources of `bots`, which have ingress, and serves the routes of `cfg`. `ready` says which of them can be
    prepared. -/
def startSources (s : System X) (cfg : Config X) (ready : Str → Bool) (bots : List (Bot X)) : System X :=
  let s := bots.foldl (fun s bot => s.prepare bot (ready bot.name)) s
  let s := s.rebuild cfg
  -- First the webhooks, then the long polls; they do not touch each other.
  (bots.filter fun bot => ready bot.name).foldl start s

local instance lawfulBEqStr : LawfulBEq Str := inferInstance

/-- Stops the restarted bots `names`: the bots among them to start again. -/
def restartEach (cfg : Config X) (report : ReloadReport) : List Str → System X → List (Bot X) × System X
  | [], s => ([], s)
  | name :: names, s =>
    let bot := cfg.bot name
    let why : Stop := match bot with
      | none => .botGone
      | some bot => if bot.ingress.isNone then .sourceGone else .restart
    let moved := decide (name ∈ report.upstreamChanged)
    if !moved && why = .restart && s.isParked name then restartEach cfg report names s
    else
      let s := if moved then s.unpark name else s
      let (starting, s) := restartEach cfg report names (s.stop name why)
      (if why = .restart then bot.toList ++ starting else starting, s)

/-- Stops the removed sources, restarts the changed ones and starts the new ones. -/
def restartSources (s : System X) (cfg : Config X) (report : ReloadReport) (ready : Str → Bool) : System X :=
  let s := report.sourcesRemoved.foldl (fun s name => s.stop name .botGone) s
  let (starting, s) := restartEach cfg report report.sourcesRestarted s
  let added := (report.sourcesAdded.filterMap cfg.bot).filter fun bot => bot.ingress.isSome
  s.startSources cfg ready (starting ++ added)

/-- A reload whose config is applied; one that is rejected changes nothing. -/
def reload [DecidableEq X] (serves : Bot X → Bool) (s : System X) (cfg : Config X) (ready : Str → Bool) : System X :=
  let report := report s.cfg cfg
  ({ s with cfg }.setBots serves cfg.bots).restartSources cfg report ready

/-- Ends the parking of a bot whose move failed, and starts its source again if it has ingress. -/
def resume (s : System X) (bot : Bot X) (ready : Str → Bool) : System X :=
  (s.unpark bot.name).startSources s.cfg ready (if bot.ingress.isSome then [bot] else [])

end System

/-- How a move ends. -/
inductive MoveEnd where
  /-- Before its bot was parked. -/
  | undrained
  /-- Calls of the bot are still being sent at the deadline. -/
  | busy
  /-- The Bot API server fails the call. -/
  | upstream
  | moved
  deriving DecidableEq, Repr

inductive Job (X : Type) where
  | reload (cfg : Config X) (ready : Str → Bool)
  | move (bot : Str) (ending : MoveEnd) (ready : Str → Bool)

namespace System

def moveBot (s : System X) (name : Str) (ending : MoveEnd) (ready : Str → Bool) : System X :=
  match s.cfg.bot name with
  -- It is no bot of the config.
  | none => s
  | some bot =>
    if s.isParked name then s
    else
      match ending with
      | .undrained => s
      | .busy | .upstream => ((s.park name).setParked name true).resume bot ready
      | .moved => (s.park name).setParked name true

def step [DecidableEq X] (serves : Bot X → Bool) (s : System X) : Job X → System X
  | .reload cfg ready => s.reload serves cfg ready
  | .move name ending ready => s.moveBot name ending ready

/-- The app started on `cfg`: every source was prepared. -/
def new [DecidableEq X] (serves : Bot X → Bool) (cfg : Config X) : System X :=
  ({ cfg, table := [], started := fun _ => none, stops := fun _ => none, parked := fun _ => false,
     tokens := { next := 1, cancelled := fun _ => false },
     routes := if cfg.server then some [] else none : System X }.setBots serves cfg.bots).startSources cfg (fun _ => true)
    (cfg.bots.filter fun bot => bot.ingress.isSome)

def run [DecidableEq X] (serves : Bot X → Bool) (cfg : Config X) (jobs : List (Job X)) : System X :=
  jobs.foldl (step serves) (new serves cfg)

end System
end Tgin.Parking
