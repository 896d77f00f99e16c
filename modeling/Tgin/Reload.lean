import Tgin.Engine

/-! Hot reload, `tgin-core/src/reload.rs`: diffing a new config against the engine's state and swapping the new
    state in. Of what a reload reports, the generation is kept. -/

namespace Tgin.Engine
open Queue Rules Config

variable {m : Matchers}

variable (m) in
/-- Why a config could not be turned into an engine state. -/
inductive BuildError where
  | rules (error : RuleError m)
  | sourceIdsExhausted

/-- New parameters for a kept or revived instance. -/
structure Live where
  slot : Nat
  queue : Option QueueConfig
  endpoints : Option (List Endpoint × PushOptions)
  /-- New options for a push consumer that keeps its endpoints (and their breakers). -/
  options : Option PushOptions

/-- What a plan does to the instances. -/
structure Changes where
  /-- Kept or revived instances with new parameters. -/
  live : List Live
  /-- New instances, to start. -/
  started : List Nat
  /-- Draining instances that come back. -/
  revived : List Nat
  /-- Removed or replaced instances, to drain. -/
  retiring : List Nat

/-! ### Parts of a configuration -/

def mode : ConsumerKind → Mode
  | .pull _ => .pull
  | .push _ => .push

def queue : ConsumerKind → QueueConfig
  | .pull pull => pull.queue
  | .push push => push.queue

def onFull (kind : ConsumerKind) : OnFull := (queue kind).onFull

/-- The endpoints of a push consumer, with fresh breakers. -/
def endpoints (push : Push) : List Endpoint :=
  push.endpoints.map fun e => { url := e.url, secretToken := e.secretToken, timeout := e.timeout, breaker := push.breaker }

/-- Bound on one request to a runtime endpoint: 10 s. -/
abbrev DEFAULT_ENDPOINT_TIMEOUT : Duration := 10 * 10 ^ 9

/-- A push consumer's options. -/
def options (push : Push) (sourceNames : List Str) : PushOptions where
  maxInFlight := push.maxInFlight
  balance := push.balance
  retry := push.retry
  sourceNames
  breaker := push.breaker
  runtimeTimeout := DEFAULT_ENDPOINT_TIMEOUT
  reply := push.webhookReply = .execute

/-- The live changes from `old` to `new` of the same mode, if any. A push consumer gets new endpoints (and
    breakers) when its delivery settings change; when only `webhook_reply` changes or new bots appear, it gets new
    options. -/
def liveChange (slot : Nat) (old new : ConsumerKind) (namesGrew : Bool) (sourceNames : List Str) : Option Live :=
  let (queue, endpoints, options) := match old, new with
    | .pull old, .pull new => (if old.queue ≠ new.queue then some new.queue else none, none, none)
    | .push old, .push new =>
      let delivery := old.endpoints ≠ new.endpoints || old.balance ≠ new.balance || old.maxInFlight ≠ new.maxInFlight
        || old.retry ≠ new.retry || old.breaker ≠ new.breaker
      let refresh := namesGrew || old.webhookReply ≠ new.webhookReply
      (if old.queue ≠ new.queue then some new.queue else none,
        if delivery then some (endpoints new, options new sourceNames) else none,
        if !delivery && refresh then some (options new sourceNames) else none)
    | _, _ => (none, none, none)
  if queue.isSome || endpoints.isSome || options.isSome then some { slot, queue, endpoints, options } else none

def newSlot (address : Nat) (consumer : Config.Consumer) (sourceNames : List Str) : Slot :=
  match consumer.kind with
  | .pull pull => .new address consumer.name .pull pull.queue
  | .push push =>
    .new address consumer.name
      (.push { endpoints := endpoints push, runtime := none, options := options push sourceNames }) push.queue

/-! ### Planning -/

/-- A bot of the new generation. -/
structure PlannedBot where
  id : SourceId
  config : Bot
  username : Option Str

/-- The bot as a source of the new state. -/
def PlannedBot.info (b : PlannedBot) : SourceInfo := { id := b.id, name := b.config.name, username := b.username }

/-- The username `kept` had in `old`, if its token did not change: another token may be another bot. -/
def knownUsername (old : EngineState m) (kept : SourceInfo) (bot : Bot) : Option Str :=
  match old.config.bots.find? (·.name = bot.name) with
  | none => none
  | some previous => if previous.token ≠ bot.token then none else kept.username

namespace Plan

/-- Source ids by name; ids are never reused. `names` are the names of the ids given out so far. -/
def bots (old : Option (EngineState m)) : List Bot → List Str → Except (BuildError m) (List PlannedBot × List Str)
  | [], names => .ok ([], names)
  | bot :: rest, names =>
    match old.bind (·.sourceNamed bot.name) with
    | some kept => do
      let (planned, names) ← bots old rest names
      .ok ({ id := kept.id, config := bot, username := old.bind (knownUsername · kept bot) } :: planned, names)
    | none =>
      if names.length < 2 ^ 16 then do
        let id := UInt16.ofNat names.length
        let (planned, names) ← bots old rest (names ++ [bot.name])
        .ok ({ id, config := bot, username := none } :: planned, names)
      else .error .sourceIdsExhausted

/-- The sources of the new state, by id. -/
def sources (planned : List PlannedBot) (ids : Nat) : List (Option SourceInfo) :=
  planned.foldl (fun sources bot => sources.set bot.id.toNat (some bot.info)) (List.replicate ids none)

/-- What the loop over the consumers has so far. -/
structure Draft where
  changes : Changes
  targets : List Target
  slots : Nat → Slot
  allocated : Nat

/-- The current slot of the consumer `name`, with the consumer's config. -/
def previous (old : Option (EngineState m)) (slots : Nat → Slot) (name : Str) : Option (Nat × Config.Consumer) :=
  old.bind fun old =>
    (old.target slots name).bind fun target =>
      (old.config.consumers.find? (·.name = name)).map fun written => (target.slot, written)

/-- The draining instance that comes back for a consumer. -/
def draining (slots : Nat → Slot) (retired : List Nat) (consumer : Config.Consumer) : Option Nat :=
  retired.find? fun slot => (slots slot).name = consumer.name && (slots slot).mode = mode consumer.kind

/-- A consumer as admission sees it, at its slot. -/
def target (consumer : Config.Consumer) (slot : Nat) : Target :=
  { slot, onFull := onFull consumer.kind, capacityBytes := (queue consumer.kind).capacityBytes }

/-- The new parameters of a draining instance that comes back. -/
def revival (consumer : Config.Consumer) (sourceNames : List Str) (slot : Nat) : Live where
  slot
  queue := some (queue consumer.kind)
  endpoints := match consumer.kind with
    | .push push => some (endpoints push, options push sourceNames)
    | .pull _ => none
  options := none

/-- Gives a consumer a draining instance, else a new one. -/
def replace (slots : Nat → Slot) (retired : List Nat) (sourceNames : List Str) (consumer : Config.Consumer) (d : Draft) :
    Draft :=
  match draining slots retired consumer with
  | some slot =>
    { d with
      changes := { d.changes with
        live := d.changes.live ++ [revival consumer sourceNames slot], revived := d.changes.revived ++ [slot] }
      targets := d.targets ++ [target consumer slot] }
  | none =>
    { changes := { d.changes with started := d.changes.started ++ [d.allocated] }
      targets := d.targets ++ [target consumer d.allocated]
      slots := Function.update d.slots d.allocated (newSlot d.allocated consumer sourceNames)
      allocated := d.allocated + 1 }

/-- The slot a consumer of the new config gets: the current one of its mode, else a draining one, else a new one. -/
def consumer (old : Option (EngineState m)) (slots : Nat → Slot) (retired : List Nat) (namesGrew : Bool)
    (sourceNames : List Str) (d : Draft) (consumer : Config.Consumer) : Draft :=
  match previous old slots consumer.name with
  | some (slot, written) =>
    if (slots slot).mode = mode consumer.kind then
      let live := (liveChange slot written.kind consumer.kind namesGrew sourceNames).toList
      { d with
        changes := { d.changes with live := d.changes.live ++ live }, targets := d.targets ++ [target consumer slot] }
    else
      replace slots retired sourceNames consumer
        { d with changes := { d.changes with retiring := d.changes.retiring ++ [slot] } }
  | none => replace slots retired sourceNames consumer d

/-- The instances of consumers that the new config does not have. -/
def removed (cfg : Config) (old : Option (EngineState m)) (slots : Nat → Slot) : List Nat :=
  match old with
  | none => []
  | some old => (old.targets.filter fun t => !cfg.consumers.any (·.name = (slots t.slot).name)).map (·.slot)

/-- Builds the state for `cfg`, keeping what it can of `old` and reviving instances of `retired`; `token` is the
    address of the route table. -/
def build (cfg : Config) (old : Option (EngineState m)) (retired : List Nat) (slots : Nat → Slot) (allocated token : Nat) :
    Except (BuildError m) (EngineState m × Changes × (Nat → Slot) × Nat) := do
  let generation := (old.map (·.generation + 1)).getD 1
  let (planned, names) ← bots old cfg.bots ((old.map (·.sourceNames)).getD [])
  let table ← (RouteTable.compile token (planned.map fun b => (b.id, b.config.rules))
    (planned.map fun b => (b.id, b.username))).mapError .rules
  let namesGrew := old.any fun old => old.sourceNames.length ≠ names.length
  let d := cfg.consumers.foldl (consumer old slots retired namesGrew names)
    { changes := { live := [], started := [], revived := [], retiring := [] }, targets := [], slots, allocated }
  .ok ({
    generation, table, sources := sources planned names.length, targets := d.targets, sourceNames := names,
    config := cfg }, { d.changes with retiring := d.changes.retiring ++ removed cfg old slots }, d.slots, d.allocated)

end Plan

/-! ### Committing -/

def Live.setQueue (live : Live) (slot : Slot) : Slot :=
  match live.queue with
  | some queue => { slot with queue := slot.queue.setConfig queue }
  | none => slot

def Live.setTargets (live : Live) (slot : Slot) : Slot :=
  match live.endpoints, live.options with
  | some (endpoints, options), _ => { slot with consumer := slot.consumer.setEndpoints endpoints options }
  | none, some options => { slot with consumer := slot.consumer.setOptions options }
  | none, none => slot

/-- Sets the new parameters of an instance. -/
def Live.set (live : Live) (slot : Slot) : Slot := live.setTargets (live.setQueue slot)

namespace Shared

/-- Calls the drain of an instance off: it is current again. -/
def revive (shared : Shared m) (slot : Nat) : Shared m :=
  let cancelled := match (shared.slots slot).drain with
    | some drain => Function.update shared.cancelled drain true
    | none => shared.cancelled
  { shared with cancelled, retired := shared.retired.filter (· ≠ slot) }.modify slot fun s =>
    { s with drain := none, draining := s.draining && shared.draining }

/-- Starts a new instance. -/
def start (shared : Shared m) (slot : Nat) : Shared m :=
  shared.modify slot fun s => { s with draining := s.draining || shared.draining }

/-- Begins the drain of an instance that is no longer current, and its drain task. -/
def beginDrain (shared : Shared m) (slot : Nat) : Shared m :=
  let previous := shared.state
  { shared with
    retired := shared.retired ++ [slot], drains := shared.drains + 1, tasks := shared.tasks ++ [(slot, shared.drains)]
  }.modify slot fun s =>
    { s with
      fedBy := if s.mode = Mode.pull then previous.feeder s.name else s.fedBy
      drain := some shared.drains
      draining := true }

/-- Why the runtime endpoint of a current instance is cleared, if it is: the consumer accepts none any more, the
    bot that set it does not feed it any more, or that bot's token changed. -/
def clears (shared : Shared m) (state : EngineState m) (slot : Slot) : Bool :=
  match slot.consumer.runtimeEndpointOwner with
  | none => false
  | some (source, fingerprint) =>
    !state.config.accepts slot.name || !state.feeds source slot.name
      || shared.tokenFingerprint state source ≠ some fingerprint

/-- Clears the runtime endpoint of every push consumer of `state` that may not keep it. -/
def keepRuntimeEndpoints (shared : Shared m) (state : EngineState m) : Shared m :=
  state.targets.foldl
    (fun shared target =>
      if shared.clears state (shared.slots target.slot) then
        shared.modify target.slot fun s => { s with consumer := s.consumer.setRuntimeEndpoint none }
      else shared)
    shared

/-- Whether the bot of a draining instance's runtime endpoint has another token in `state`. -/
def evicts (shared : Shared m) (state : EngineState m) (slot : Slot) : Bool :=
  match slot.consumer.runtimeEndpointOwner with
  | none => false
  | some (source, fingerprint) => (shared.tokenFingerprint state source).any (· ≠ fingerprint)

/-- Clears the runtime endpoint of every draining push instance whose bot's token `state` changes. -/
def evictRotatedCaptures (shared : Shared m) (state : EngineState m) : Shared m :=
  shared.retired.foldl
    (fun shared slot =>
      if shared.evicts state (shared.slots slot) then
        shared.modify slot fun s => { s with consumer := s.consumer.setRuntimeEndpoint none }
      else shared)
    shared

/-- The loops of `commit` over the instances: the kept ones get their parameters, draining ones come back, new ones
    start, and those no longer current begin to drain. -/
def changeInstances (shared : Shared m) (changes : Changes) : Shared m :=
  let shared := changes.live.foldl (fun shared live => shared.modify live.slot live.set) shared
  let shared := changes.revived.foldl revive shared
  let shared := changes.started.foldl start shared
  changes.retiring.foldl beginDrain shared

/-- Applies a plan's changes. The new `state` is swapped in once the kept, revived and new instances are ready and
    the retired ones drain. -/
def commit (shared : Shared m) (state : Option (EngineState m)) (changes : Changes) : Shared m :=
  let shared := shared.changeInstances changes
  match state with
  | none => shared
  | some state => { (shared.keepRuntimeEndpoints state).evictRotatedCaptures state with state }

/-- Applies `new`: its generation, or why nothing changed. -/
def apply (shared : Shared m) (new : Config) : Except (BuildError m) Nat × Shared m :=
  match Plan.build new (some shared.state) shared.retired shared.slots shared.allocated shared.tables with
  | .error error => (.error error, shared)
  | .ok (state, changes, slots, allocated) =>
    (.ok state.generation,
      { shared with slots, allocated, tables := shared.tables + 1 }.commit (some state) changes)

/-- The engine for `cfg` as generation 1, before anything is allocated. -/
def new (cfg : Config) (tokenKeys : Str → Nat) : Except (BuildError m) (Shared m) := do
  let slots _ := Slot.new 0 [] .pull { capacity := 0, capacityBytes := 0, leaseTimeout := 0, ordering := .none, onFull := .backpressure }
  let (state, changes, slots, allocated) ← Plan.build cfg none [] slots 0 0
  .ok (commit {
    state, slots, allocated, retired := [], draining := false, tokenKeys, cancelled := fun _ => false, drains := 0,
    tasks := [], tables := 1 } none changes)

/-- Recompiles the route table of `cfg` with the ids and usernames of `sources`. -/
def compile (cfg : Config) (sources : List (Option SourceInfo)) (token : Nat) : Except (RuleError m) (RouteTable m) :=
  let bots := sources.reduceOption.filterMap fun info =>
    (cfg.bots.find? (·.name = info.name)).map fun bot => (info, bot)
  RouteTable.compile token (bots.map fun (info, bot) => (info.id, bot.rules)) (bots.map fun (info, _) => (info.id, info.username))

/-- Sets the username of a bot of the current generation by recompiling the route table. -/
def setUsername (shared : Shared m) (source : SourceId) (username : Option Str) : Shared m :=
  let old := shared.state
  match old.source source with
  | none => shared
  | some info =>
    if info.username = username then shared
    else
      let sources := old.sources.set source.toNat (some { info with username })
      match compile old.config sources shared.tables with
      | .error _ => shared
      | .ok table => { shared with state := { old with table, sources }, tables := shared.tables + 1 }

end Shared

end Tgin.Engine
