import Tgin.Breaker
import Tgin.Queue
import Tgin.Rules

/-! The configuration of `tgin-core/src/config/resolve.rs`: the part the engine builds its state from. A
    configuration that loads is valid (`config/validate.rs`), which its last fields say. -/

namespace Tgin
open Rules

namespace Config

structure Bot where
  name : Str
  token : Str
  /-- In order; the first match wins. -/
  rules : List RuleSpec

structure Endpoint where
  url : Str
  secretToken : Option Str
  timeout : Duration
  deriving DecidableEq, Repr

inductive Balance where
  /-- Each endpoint in turn. -/
  | roundRobin
  /-- Sticky by chat (or user); round robin without either. -/
  | hashChat
  /-- The endpoint with the fewest requests in flight. -/
  | leastInFlight
  deriving DecidableEq, Repr

structure Retry where
  initial : Duration
  max : Duration
  maxAttempts : Nat
  maxAge : Duration
  deriving DecidableEq, Repr

inductive WebhookReply where
  /-- Call the method through the gateway, once, before the update is acknowledged. -/
  | execute
  /-- Ignore the response body. -/
  | ignore
  deriving DecidableEq, Repr

structure Pull where
  queue : Queue.QueueConfig
  honorDropPending : Bool
  deriving DecidableEq, Repr

structure Push where
  /-- Empty only with `acceptSetWebhook`. -/
  endpoints : List Endpoint
  balance : Balance
  maxInFlight : Nat
  ordering : Queue.Ordering
  capacity : Nat
  capacityBytes : Nat
  onFull : Queue.OnFull
  retry : Retry
  breaker : BreakerConfig
  /-- `setWebhook` on the consumer's gateway path sets a runtime endpoint; only for a consumer fed by one bot. -/
  acceptSetWebhook : Bool
  webhookReply : WebhookReply
  honorDropPending : Bool
  deriving DecidableEq, Repr

/-- Lease timeout of a push queue: 365 days, long enough never to pass. -/
abbrev LEASE_TIMEOUT : Duration := 365 * 24 * 60 * 60 * 10 ^ 9

/-- The push queue's limits. -/
def Push.queue (push : Push) : Queue.QueueConfig where
  capacity := push.capacity
  capacityBytes := push.capacityBytes
  leaseTimeout := LEASE_TIMEOUT
  ordering := push.ordering
  onFull := push.onFull

inductive ConsumerKind where
  | pull (pull : Pull)
  | push (push : Push)
  deriving DecidableEq, Repr

structure Consumer where
  id : ConsumerId
  name : Str
  kind : ConsumerKind
  deriving DecidableEq, Repr

mutual

/-- Whether a target expression reaches a consumer. -/
def reaches (consumer : ConsumerId) : TargetSpec → Bool
  | .consumer id => id = consumer
  | .all among => reachesAny consumer among
  | .split _ among _ => reachesAny consumer among

def reachesAny (consumer : ConsumerId) : List TargetSpec → Bool
  | [] => false
  | spec :: specs => reaches consumer spec || reachesAny consumer specs

end

/-- Whether a rule of the bot targets the consumer. -/
def botTargets (bot : Bot) (consumer : ConsumerId) : Bool :=
  bot.rules.any fun rule => rule.targets.any (reaches consumer)

/-- Whether only one bot may target the consumer. -/
def ConsumerKind.servesOneBot : ConsumerKind → Bool
  | .pull _ => true
  | .push p => p.acceptSetWebhook

end Config

open Config in
structure Config where
  bots : List Bot
  /-- By `ConsumerId`. -/
  consumers : List Consumer
  botNames : (bots.map (·.name)).Nodup
  tokens : (bots.map (·.token)).Nodup
  consumerNames : (consumers.map (·.name)).Nodup
  ids : consumers.map (·.id.toNat) = List.range consumers.length
  owned : ∀ consumer ∈ consumers, consumer.kind.servesOneBot → ∀ bot ∈ bots, ∀ other ∈ bots,
    botTargets bot consumer.id → botTargets other consumer.id → bot.name = other.name

namespace Config

/-- Whether `setWebhook` may set a runtime endpoint of the consumer `name`. -/
def accepts (cfg : Config) (name : Str) : Bool :=
  cfg.consumers.any fun c => c.name = name && match c.kind with
    | .push push => push.acceptSetWebhook
    | .pull _ => false

end Config

end Tgin
