import Tgin.Config

/-! The engine of `tgin-core/src/engine.rs`: the state of one configuration generation, and what it shares with
    the drain tasks.

    An `Arc<Slot>` is the address of a slot, and `Arc::ptr_eq` compares addresses; drain tokens have addresses
    too. What is only logged, the gauges and the time under backpressure are left out. -/

namespace Tgin.Engine
open Queue Rules

inductive ConsumerDropReason where
  | overflow | deadLetter | reload | purge | oversized
  deriving DecidableEq, Repr

/-- An update with its routing metadata. -/
structure Envelope where
  source : SourceId
  updateId : Int
  updateType : Str
  /-- Ordering key (see `Facts.orderingKey`). -/
  key : Option Nat
  /-- The raw update JSON, forwarded verbatim. -/
  payload : List UInt8
  /-- When admission queued the update. -/
  receivedAt : Instant
  deriving DecidableEq, Repr

/-! ### Consumers -/

inductive Mode where
  | pull | push
  deriving DecidableEq, Repr

/-- One configured downstream URL, with the settings its breaker is made with. -/
structure Endpoint where
  url : Str
  secretToken : Option Str
  timeout : Duration
  breaker : BreakerConfig
  deriving DecidableEq, Repr

structure PushOptions where
  maxInFlight : Nat
  balance : Config.Balance
  retry : Config.Retry
  /-- Source names by `SourceId`. -/
  sourceNames : List Str
  /-- The breaker of a runtime endpoint. -/
  breaker : BreakerConfig
  runtimeTimeout : Duration
  /-- Whether the method calls endpoints answer with are executed. -/
  reply : Bool
  deriving DecidableEq, Repr

/-- The endpoint a bot's `setWebhook` gave a consumer that accepts one. -/
structure RuntimeEndpoint where
  url : Str
  secretToken : Option Str
  /-- The bot whose `setWebhook` set it. -/
  source : SourceId
  /-- A keyed hash of that bot's token when it set it. -/
  tokenFingerprint : Nat
  deriving DecidableEq, Repr

/-- Where a push consumer delivers to. -/
structure Targets where
  endpoints : List Endpoint
  runtime : Option RuntimeEndpoint
  options : PushOptions
  deriving DecidableEq, Repr

/-- One consumer instance. -/
inductive Consumer where
  | pull
  | push (targets : Targets)
  deriving DecidableEq, Repr

def Consumer.mode : Consumer → Mode
  | .pull => .pull
  | .push _ => .push

/-- The runtime endpoint of a push instance that has one. -/
def Consumer.runtime : Consumer → Option RuntimeEndpoint
  | .pull => none
  | .push targets => targets.runtime

/-- The bot whose `setWebhook` set the runtime endpoint, and the fingerprint of its token then. -/
def Consumer.runtimeEndpointOwner (consumer : Consumer) : Option (SourceId × Nat) :=
  consumer.runtime.map fun r => (r.source, r.tokenFingerprint)

/-- Sets the runtime endpoint, or removes it (`none`). -/
def Consumer.setRuntimeEndpoint (endpoint : Option RuntimeEndpoint) : Consumer → Consumer
  | .pull => .pull
  | .push targets => .push { targets with runtime := endpoint }

/-- Replaces the configured endpoints and the options; the runtime endpoint stays. -/
def Consumer.setEndpoints (endpoints : List Endpoint) (options : PushOptions) : Consumer → Consumer
  | .pull => .pull
  | .push targets => .push { targets with endpoints, options }

/-- Replaces the options. -/
def Consumer.setOptions (options : PushOptions) : Consumer → Consumer
  | .pull => .pull
  | .push targets => .push { targets with options }

/-! ### Slots -/

/-- One consumer instance with what the engine keeps for it. -/
structure Slot where
  name : Str
  consumer : Consumer
  queue : LeaseQueue Envelope
  /-- Whether the instance drains. -/
  draining : Bool
  /-- The updates counted as dropped through this instance. -/
  dropped : ConsumerDropReason → Nat
  /-- Set when the instance is retired for good: admission must not queue to it any more. -/
  closed : Bool
  /-- While the instance drains after a reload: cancelling it calls the drain off. -/
  drain : Option Nat
  /-- The bot that fed a pull instance when a reload retired it. -/
  fedBy : Option SourceId

namespace Slot

def new (address : Nat) (name : Str) (consumer : Consumer) (cfg : QueueConfig) : Slot where
  name
  consumer
  queue := .new address cfg
  draining := false
  dropped _ := 0
  closed := false
  drain := none
  fedBy := none

def mode (slot : Slot) : Mode := slot.consumer.mode

/-- `ConsumerMetrics::dropped`. -/
def count (slot : Slot) (reason : ConsumerDropReason) (n : Nat) : Slot :=
  { slot with dropped := Function.update slot.dropped reason (slot.dropped reason + n) }

/-- `n` updates dropped for overflow. -/
def overflowed (slot : Slot) (n : Nat) : Slot := slot.count .overflow n

/-- Drops what the queue holds, counted as dropped for a reload. -/
def drainLate (slot : Slot) : Slot :=
  let (dropped, queue) := slot.queue.drainAll
  { slot with queue }.count .reload dropped.length

end Slot

/-! ### The state of a generation -/

/-- One bot of the current generation. -/
structure SourceInfo where
  id : SourceId
  name : Str
  /-- The bot's username, once known. -/
  username : Option Str
  deriving DecidableEq, Repr

/-- A consumer as admission sees it in one generation. -/
structure Target where
  slot : Nat
  onFull : OnFull
  capacityBytes : Nat
  deriving DecidableEq, Repr

variable (m : Matchers)

/-- The routing state of one config generation. -/
structure EngineState where
  generation : Nat
  table : RouteTable m
  /-- By `SourceId`; `none` for ids of bots no longer configured. -/
  sources : List (Option SourceInfo)
  /-- By `ConsumerId`. -/
  targets : List Target
  /-- The name of every source id ever given out, by id. -/
  sourceNames : List Str
  /-- The config this state was built from. -/
  config : Config

variable {m}

namespace EngineState
variable (state : EngineState m)

def target (slots : Nat → Slot) (name : Str) : Option Target := state.targets.find? fun t => (slots t.slot).name = name

def source (id : SourceId) : Option SourceInfo := state.sources[id.toNat]?.getD none

def sourceNamed (name : Str) : Option SourceInfo := state.sources.reduceOption.find? (·.name = name)

/-- Whether a rule of the bot `source` targets the consumer `consumer`. -/
def feeds (source : SourceId) (consumer : Str) : Bool :=
  match state.source source with
  | none => false
  | some info =>
    match state.config.consumers.find? (·.name = consumer) with
    | none => false
    | some c => (state.config.bots.find? (·.name = info.name)).any (Config.botTargets · c.id)

/-- The first bot whose rules target the consumer `consumer`. -/
def feeder (consumer : Str) : Option SourceId :=
  (state.sources.reduceOption.map (·.id)).find? (state.feeds · consumer)

end EngineState

/-! ### The shared part -/

variable (m) in
/-- What the engine shares with its drain tasks. The write lock makes a reload, the end of a drain and a control
    operation one step each. -/
structure Shared where
  state : EngineState m
  /-- Every instance made, by address. -/
  slots : Nat → Slot
  /-- How many instances were made. -/
  allocated : Nat
  /-- Removed or replaced instances whose drain has not ended. -/
  retired : List Nat
  /-- Set by the shutdown drain. -/
  draining : Bool
  /-- Keys the token fingerprints. -/
  tokenKeys : Str → Nat
  /-- The drain tokens that were cancelled, by address. -/
  cancelled : Nat → Bool
  /-- How many drain tokens were made. -/
  drains : Nat
  /-- The drain tasks that run, each with its slot and its token. -/
  tasks : List (Nat × Nat)
  /-- How many route tables were compiled. -/
  tables : Nat

namespace Shared

/-- Changes one slot. -/
def modify (shared : Shared m) (slot : Nat) (f : Slot → Slot) : Shared m :=
  { shared with slots := Function.update shared.slots slot (f (shared.slots slot)) }

/-- The engine's id of the bot `name`, which its source must admit with. -/
def sourceId (shared : Shared m) (name : Str) : Option SourceId := (shared.state.sourceNamed name).map (·.id)

/-- The keyed fingerprint of the bot `source`'s token in `state`. -/
def tokenFingerprint (shared : Shared m) (state : EngineState m) (source : SourceId) : Option Nat :=
  match state.source source with
  | none => none
  | some info => (state.config.bots.find? (·.name = info.name)).map fun bot => shared.tokenKeys bot.token

/-- The fingerprint of `token` if it is the bot `source`'s token in `state`. -/
def authenticated (shared : Shared m) (state : EngineState m) (source : SourceId) (token : Str) : Option Nat :=
  let fingerprint := shared.tokenKeys token
  if shared.tokenFingerprint state source = some fingerprint then some fingerprint else none

/-- The first part of `retire`: takes the instance off the retired ones and closes it, unless a reload called the
    drain off. -/
def close (shared : Shared m) (slot drain : Nat) : Option (Shared m) :=
  if shared.cancelled drain then none
  else if !shared.retired.contains slot then none
  else some ({ shared with retired := shared.retired.erase slot }.modify slot fun s =>
    { s with drain := none, closed := true })

/-- Ends the drain `drain` of a retired instance, unless a reload called it off: closes the instance to admission
    and drops what it still holds. -/
def retire (shared : Shared m) (slot drain : Nat) : Option (Shared m) :=
  (shared.close slot drain).map (·.modify slot Slot.drainLate)

/-- What `set_runtime_endpoint` answers. -/
inductive WebhookChange where
  /-- A new runtime endpoint. -/
  | set
  /-- The same URL, secret token and bot: nothing changed. -/
  | unchanged
  | deleted
  /-- There was none to delete. -/
  | alreadyDeleted
  deriving DecidableEq, Repr

/-- The bot's token changed while the request was in flight. -/
structure TokenChanged where
  deriving DecidableEq, Repr

/-- Applies the bot `source`'s `setWebhook` (`some`: URL and secret token) or `deleteWebhook` (`none`), sent with
    `token`, to the push consumer `consumer`; `none` when it takes no runtime endpoint from `source`. -/
def setRuntimeEndpoint (shared : Shared m) (consumer : Str) (source : SourceId) (token : Str)
    (endpoint : Option (Str × Option Str)) : Except TokenChanged (Option WebhookChange) × Shared m :=
  let state := shared.state
  match shared.authenticated state source token with
  | none => (.error {}, shared)
  | some tokenFingerprint =>
    match state.target shared.slots consumer with
    | none => (.ok none, shared)
    | some target =>
      match (shared.slots target.slot).consumer with
      | .pull => (.ok none, shared)
      | .push push =>
        if !state.config.accepts consumer || !state.feeds source consumer then (.ok none, shared)
        else match endpoint with
          | none =>
            if push.runtime.isNone then (.ok (some .alreadyDeleted), shared)
            else (.ok (some .deleted),
              shared.modify target.slot fun s => { s with consumer := s.consumer.setRuntimeEndpoint none })
          | some (url, secretToken) =>
            let endpoint := { url, secretToken, source, tokenFingerprint }
            if push.runtime = some endpoint then (.ok (some .unchanged), shared)
            else (.ok (some .set),
              shared.modify target.slot fun s => { s with consumer := s.consumer.setRuntimeEndpoint (some endpoint) })

/-- The pull consumer `name` that the bot `source` polls through its gateway path: the current instance if a rule
    of `source` targets it, else an instance a reload removed or replaced that still drains and that `source` fed. -/
def pullConsumerFor (shared : Shared m) (source : SourceId) (name : Str) : Option Nat :=
  let draining := shared.retired.find? fun slot =>
    let s := shared.slots slot
    s.name = name && s.fedBy = some source && s.mode = .pull
  match shared.state.target shared.slots name with
  | none => draining
  | some target =>
    if (shared.slots target.slot).mode = .pull && shared.state.feeds source name then some target.slot else draining

end Shared

end Tgin.Engine
