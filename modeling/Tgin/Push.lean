import Tgin.Engine
import Tgin.Queue.Model
import Tgin.Supervisor

/-! The push consumer of `tgin-core/src/consumer/push.rs`: an update is leased, posted to an endpoint whose breaker admits it, and
    posted again after a failure that may pass, until it is delivered, dead-lettered or left to the queue.

    What a delivery does between two awaits is one step. An `Arc<Slot>` is the address of a slot, which endpoint sets that keep
    it share. Logs, metrics, URLs and the headers but the secret are left out. -/

namespace Tgin.Push
open Engine (Envelope PushOptions RuntimeEndpoint)
open Queue Rules

/-! ### Endpoints -/

/-- The address of a slot. -/
abbrev Address := Nat

inductive SecretHeader where
  | none
  | valid
  /-- Not sendable as a header, so no request is sent. -/
  | invalid
  deriving DecidableEq, Repr

/-- One downstream URL. -/
structure Endpoint where
  secretToken : Option Str
  breaker : Breaker
  deriving DecidableEq, Repr

structure Slot where
  secret : SecretHeader
  breaker : Breaker
  /-- Requests on the wire to this endpoint. -/
  inFlight : Nat
  deriving DecidableEq, Repr

/-- One endpoint set with the options it was given with. -/
structure Targets where
  /-- The configured endpoints in order, then the runtime endpoint if there is one. -/
  slots : List Address
  runtime : Option RuntimeEndpoint
  opts : PushOptions
  deriving DecidableEq, Repr

/-- The configured endpoints, without the runtime one. -/
def Targets.configured (targets : Targets) : List Address :=
  targets.slots.take (targets.slots.length - if targets.runtime.isSome then 1 else 0)

structure PushConsumer where
  heap : Address → Slot
  /-- The address of the next slot. -/
  made : Address
  targets : Targets
  /-- Round-robin position, shared by every endpoint set. -/
  cursor : Nat
  /-- Deliveries the dispatcher holds. -/
  inFlight : Nat
  /-- While set, the dispatcher leases nothing new. -/
  paused : Bool

/-- A request's claim on one endpoint: its in-flight count, and its breaker's probe if it took one. -/
structure Sending where
  targets : Targets
  index : Nat
  reported : Bool
  deriving DecidableEq, Repr

/-- Where the slot is. -/
def Sending.slot (sent : Sending) : Address := sent.targets.slots.getD sent.index 0

/-- The secret header of an endpoint; `sendable` is whether a header can have a value. -/
def secretHeader (sendable : Str → Bool) : Option Str → SecretHeader
  | none => .none
  | some secret => if sendable secret then .valid else .invalid

namespace PushConsumer

def modify (c : PushConsumer) (slot : Address) (f : Slot → Slot) : PushConsumer :=
  { c with heap := Function.update c.heap slot (f (c.heap slot)) }

/-- Puts a new slot on the heap. -/
def make (c : PushConsumer) (secret : SecretHeader) (breaker : Breaker) : Address × PushConsumer :=
  (c.made, { c with heap := Function.update c.heap c.made { secret, breaker, inFlight := 0 }, made := c.made + 1 })

def configuredSlots (sendable : Str → Bool) (endpoints : List Endpoint) (c : PushConsumer) : List Address × PushConsumer :=
  endpoints.foldl
    (fun (slots, c) endpoint =>
      let (slot, c) := c.make (secretHeader sendable endpoint.secretToken) endpoint.breaker
      (slots ++ [slot], c))
    ([], c)

def new (sendable : Str → Bool) (endpoints : List Endpoint) (opts : PushOptions) : PushConsumer :=
  let empty : PushConsumer := {
    heap := fun _ => { secret := .none, breaker := .new opts.breaker 0, inFlight := 0 }
    made := 0
    targets := { slots := [], runtime := none, opts }
    cursor := 0
    inFlight := 0
    paused := false }
  let (slots, c) := empty.configuredSlots sendable endpoints
  { c with targets := { slots, runtime := none, opts } }

/-- The slot of a runtime endpoint: a fresh breaker with the options' settings. -/
def runtimeSlot (sendable : Str → Bool) (endpoint : RuntimeEndpoint) (opts : PushOptions) (now : Instant) (c : PushConsumer) :
    Address × PushConsumer :=
  c.make (secretHeader sendable endpoint.secretToken) (.new opts.breaker now)

/-- Replaces the configured endpoints and the options. The runtime endpoint stays, with its breaker unless the breaker
    settings changed. -/
def setEndpoints (sendable : Str → Bool) (endpoints : List Endpoint) (opts : PushOptions) (now : Instant) (c : PushConsumer) :
    PushConsumer :=
  let current := c.targets
  let (configured, c) := c.configuredSlots sendable endpoints
  match current.runtime, current.slots.getLast? with
  | some runtime, some slot =>
    let same := current.opts.breaker = opts.breaker ∧ current.opts.runtimeTimeout = opts.runtimeTimeout
    let (slot, c) := if same then (slot, c) else c.runtimeSlot sendable runtime opts now
    { c with targets := { slots := configured ++ [slot], runtime := current.runtime, opts } }
  | _, _ => { c with targets := { slots := configured, runtime := current.runtime, opts } }

/-- Replaces the options, keeping the endpoints. -/
def setOptions (opts : PushOptions) (c : PushConsumer) : PushConsumer := { c with targets := { c.targets with opts } }

/-- Sets the runtime endpoint, with a fresh breaker, or removes it (`none`). -/
def setRuntimeEndpoint (sendable : Str → Bool) (endpoint : Option RuntimeEndpoint) (now : Instant) (c : PushConsumer) : PushConsumer :=
  let slots := c.targets.configured
  match endpoint with
  | some runtime =>
    let (slot, c) := c.runtimeSlot sendable runtime c.targets.opts now
    { c with targets := { c.targets with slots := slots ++ [slot], runtime := endpoint } }
  | none => { c with targets := { c.targets with slots, runtime := none } }

/-! ### Choosing an endpoint -/

/-- The endpoints that are ready, in order, and how long until the first of the open breakers may admit a probe. -/
def survey (c : PushConsumer) (slots : List Address) (now : Instant) : List Nat × Option Duration :=
  slots.zipIdx.foldl
    (fun (healthy, wait) (slot, index) =>
      match (c.heap slot).breaker.readyIn now with
      | some 0 => (healthy ++ [index], wait)
      | some left => (healthy, some (wait.elim left (min · left)))
      | none => (healthy, wait))
    ([], none)

/-- The first of the elements with the least key. -/
def minByKey (key : Nat → Nat) : List Nat → Nat
  | [] => 0
  | first :: rest => rest.foldl (fun best i => if key i < key best then i else best) first

/-- Which of the ready endpoints is next, and where the cursor is then. -/
def balanced (balance : Config.Balance) (key : Option Nat) (healthy : List Nat) (load : Nat → Nat) (cursor : Nat) : Nat × Nat :=
  match balance, key with
  | .hashChat, some key => (healthy.getD (key % healthy.length) 0, cursor)
  | .leastInFlight, _ => (minByKey load healthy, cursor)
  | .roundRobin, _ | .hashChat, none => (healthy.getD (cursor % healthy.length) 0, wrappingAdd cursor 1)

/-- The endpoint to send to, its in-flight count already taken, or how long until an open breaker may admit a probe (`none`: no
    breaker reopens by itself). The fuel bounds the rounds of the loop; without any left it gives no answer. -/
def pick (targets : Targets) (key : Option Nat) (now : Instant) :
    Nat → PushConsumer → Option (Except (Option Duration) Nat) × PushConsumer
  | 0, c => (none, c)
  | fuel + 1, c =>
    let (healthy, wait) := c.survey targets.slots now
    if healthy.isEmpty then (some (.error wait), c)
    else
      let load := fun i => (c.heap (targets.slots.getD i 0)).inFlight
      let (index, cursor) := balanced targets.opts.balance key healthy load c.cursor
      let slot := targets.slots.getD index 0
      let (admitted, breaker) := (c.heap slot).breaker.allow now
      let c := { c with cursor }.modify slot fun s => { s with breaker }
      if admitted then (some (.ok index), c.modify slot fun s => { s with inFlight := s.inFlight + 1 })
      else pick targets key now fuel c

end PushConsumer

/-- What `choose` found. -/
inductive Choice where
  | send (sent : Sending)
  /-- The update reached `maxAge`. -/
  | expired
  | cancelled
  /-- The consumer has no endpoint any more. -/
  | noEndpoint
  /-- Every breaker is open: it looks again then, or once one has changed. -/
  | wait (till : Option Instant)
  deriving DecidableEq, Repr

namespace PushConsumer

/-- One look of `choose` for an endpoint of the current set whose breaker admits a request. -/
def choose (envelope : Envelope) (cancelled : Bool) (now : Instant) (c : PushConsumer) : Choice × PushConsumer :=
  if cancelled then (.cancelled, c)
  else if c.targets.slots.isEmpty then (.noEndpoint, c)
  else
    let deadline := Instant.checkedAdd envelope.receivedAt c.targets.opts.retry.maxAge
    if deadline.any (· ≤ now) then (.expired, c)
    else
      match pick c.targets envelope.key now c.targets.slots.length c with
      | (some (.ok index), c') => (.send { targets := c.targets, index, reported := false }, c')
      | (some (.error wait), c') =>
        let reopen := wait.bind (Instant.checkedAdd now)
        (.wait (match reopen, deadline with
          | some reopen, some deadline => some (min reopen deadline)
          | reopen, deadline => reopen.or deadline), c')
      | (none, c') => (.wait none, c')

/-- `Sending::report`: tells the endpoint's breaker whether the endpoint is up. -/
def report (sent : Sending) (up : Bool) (now : Instant) (c : PushConsumer) : Sending × PushConsumer :=
  ({ sent with reported := true },
    c.modify sent.slot fun s => { s with breaker := if up then s.breaker.onSuccess else s.breaker.onFailure now })

/-- Drops a `Sending`: before its report, it reopens a half-open breaker so that the probe is not lost. -/
def dropSending (sent : Sending) (now : Instant) (c : PushConsumer) : PushConsumer :=
  c.modify sent.slot fun s => {
    s with
    inFlight := s.inFlight - 1
    breaker := if !sent.reported && s.breaker.state = .halfOpen then s.breaker.onFailure now else s.breaker }

end PushConsumer

/-! ### One attempt -/

/-- What comes of a request. -/
inductive Fetched where
  /-- An answer: whether it carries this process's `Via`, its `Retry-After`, and whether its body is a reply. -/
  | response (status : Nat) (seen : Bool) (retryAfter : Option Duration) (reply : Bool)
  /-- The request could not even be built. -/
  | builder
  | error
  deriving DecidableEq, Repr

inductive Failure where
  /-- Worth retrying: 408, 429, 5xx or a transport error. -/
  | transient (retryAfter : Option Duration)
  | permanent
  deriving DecidableEq, Repr

/-- A 2xx answer delivers the update; whether there is a reply to execute. -/
def send (executes : Bool) : Fetched → Except Failure Bool
  | .response status seen retryAfter reply =>
    if 200 ≤ status ∧ status < 300 then .ok (executes && reply)
    else if status = 508 ∧ seen then .error .permanent
    else if status = 408 ∨ status = 429 ∨ 500 ≤ status ∧ status < 600 then .error (.transient retryAfter)
    else .error .permanent
  | .builder => .error .permanent
  | .error => .error (.transient none)

/-- The longer of `computed` and the server's `retryAfter`, the latter capped at `cap`. -/
def honorRetryAfter (computed : Duration) (retryAfter : Option Duration) (cap : Duration) : Duration :=
  match retryAfter with
  | some ra => max computed (min ra cap)
  | none => computed

/-- Whether a retry after `delay` would not start before `maxAge` has passed. -/
def tooOld (receivedAt : Instant) (retry : Config.Retry) (now : Instant) (delay : Duration) : Bool :=
  match Instant.checkedAdd receivedAt retry.maxAge, Instant.checkedAdd now delay with
  | some deadline, some retryAt => deadline ≤ retryAt
  | none, _ => false
  | some _, none => true

/-! ### Deliveries -/

inductive End where
  | delivered
  | deadLettered
  /-- The update is left to the queue. -/
  | released
  deriving DecidableEq, Repr

/-- Where a delivery waits. -/
inductive Phase where
  /-- It has not looked for an endpoint yet. -/
  | choosing
  /-- For a breaker. -/
  | waiting (till : Option Instant)
  /-- For the answer to its request. -/
  | sending (sent : Sending)
  /-- For the reply to be executed; the endpoint is done with. -/
  | replying
  /-- To retry. -/
  | sleeping (till : Instant)
  | ended (how : End)
  deriving DecidableEq, Repr

structure Delivery where
  seq : Nat
  envelope : Envelope
  backoff : Option Backoff
  attempt : Nat
  phase : Phase
  deriving DecidableEq, Repr

/-- What a delivery goes on with. -/
inductive Wake where
  /-- It is cancelled, a breaker or the endpoints have changed, or the time it waits for has come. -/
  | look (now : Instant)
  /-- Its request has come to an end; `drawn` is what the generator of the backoff draws. -/
  | answered (now : Instant) (fetched : Fetched) (drawn : Nat)
  | executed
  deriving DecidableEq, Repr

namespace Delivery

/-- How far off `sleep` puts an instant that cannot be represented. -/
def FAR_FUTURE : Duration := 30 * 365 * 24 * 60 * 60 * 10 ^ 9

def new (lease : Lease Envelope) : Delivery :=
  { seq := lease.seq, envelope := lease.item, backoff := none, attempt := 0, phase := .choosing }

/-- `deliver` once an attempt has come to its result. -/
def settle (d : Delivery) (sent : Sending) (now : Instant) (drawn : Nat) (result : Except Failure Bool) (c : PushConsumer) :
    Delivery × PushConsumer :=
  match result with
  | .ok reply =>
    let (sent, c) := c.report sent true now
    ({ d with phase := if reply then .replying else .ended .delivered }, c.dropSending sent now)
  | .error .permanent =>
    let (sent, c) := c.report sent true now
    ({ d with phase := .ended .deadLettered }, c.dropSending sent now)
  | .error (.transient retryAfter) =>
    let (sent, c) := c.report sent false now
    let retry := sent.targets.opts.retry
    let backoff := d.backoff.getD { initial := retry.initial, max := retry.max, floor := 0, attempt := 0 }
    let (computed, backoff) := backoff.nextDelay drawn
    let delay := honorRetryAfter computed retryAfter retry.max
    let exhausted := retry.maxAttempts ≤ d.attempt
    let phase :=
      if exhausted ∨ tooOld d.envelope.receivedAt retry now delay then .ended .deadLettered
      else .sleeping ((Instant.checkedAdd now delay).getD (now + FAR_FUTURE))
    ({ d with backoff := some backoff, phase }, c.dropSending sent now)

/-- `deliver` from where it looks for an endpoint. -/
def look (d : Delivery) (cancelled : Bool) (now : Instant) (c : PushConsumer) : Delivery × PushConsumer :=
  match c.choose d.envelope cancelled now with
  | (.cancelled, c) | (.noEndpoint, c) => ({ d with phase := .ended .released }, c)
  | (.expired, c) => ({ d with phase := .ended .deadLettered }, c)
  | (.wait till, c) => ({ d with phase := .waiting till }, c)
  | (.send sent, c) =>
    let d := { d with attempt := min (d.attempt + 1) (2 ^ 32 - 1) }
    if (c.heap sent.slot).secret = .invalid then d.settle sent now 0 (.error .permanent) c
    else ({ d with phase := .sending sent }, c)

/-- Drops a delivery at the await where it stands. -/
def drop (d : Delivery) (now : Instant) (c : PushConsumer) : Delivery × PushConsumer :=
  match d.phase with
  | .ended _ => (d, c)
  | .sending sent => ({ d with phase := .ended .released }, c.dropSending sent now)
  | _ => ({ d with phase := .ended .released }, c)

/-- `deliver` from one await to the next. -/
def poll (d : Delivery) (cancelled : Bool) (wake : Wake) (c : PushConsumer) : Delivery × PushConsumer :=
  match d.phase, wake with
  | .choosing, .look now | .waiting _, .look now => d.look cancelled now c
  | .sleeping till, .look now =>
    if cancelled then ({ d with phase := .ended .released }, c)
    else if till ≤ now then d.look cancelled now c
    else (d, c)
  | .sending sent, .answered now fetched drawn => d.settle sent now drawn (send sent.targets.opts.reply fetched) c
  | .replying, .executed => ({ d with phase := .ended .delivered }, c)
  | _, _ => (d, c)

end Delivery

end Tgin.Push
