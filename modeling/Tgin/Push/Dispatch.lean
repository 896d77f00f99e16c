import Tgin.PullConsumer
import Tgin.Queue.Leased
import Tgin.Push

/-! The dispatcher of a push consumer (`PushConsumer::dispatch`): the leases it takes, the deliveries it holds, and the call on the queue
    that each lease ends in. Between two of its steps the queue's other callers, a reload and a `setWebhook` go on. -/

namespace Tgin.Push
open Engine (Envelope PushOptions RuntimeEndpoint)
open Queue Rules
open PullConsumer (holderCall)

/-- The holder of all the leases of a push consumer. -/
def HOLDER : HolderId := "push"

/-- A lease the dispatcher holds. Unless acked, dropping it returns the update to the queue. -/
structure Held where
  seq : Nat
  acked : Bool
  deriving DecidableEq, Repr

/-- A delivery the dispatcher holds. -/
structure Live where
  /-- The place of its lease among those taken. -/
  id : Nat
  held : Held
  delivery : Delivery
  /-- A retirement has drained the queue since. -/
  drained : Bool
  deriving DecidableEq, Repr

structure Dispatcher where
  cancelled : Bool
  deliveries : List Live

/-- A call on the queue that a delivery makes about its lease. -/
structure LeaseCall where
  live : Live
  op : Op Envelope
  result : Result Envelope
  /-- What is stored under the lease's seq when the call comes, and after it. -/
  before : Option (Entry Envelope)
  after : Option (Entry Envelope)

/-- A push consumer with its queue, the permits of the admissions to it, and its dispatcher while one runs. -/
structure System where
  consumer : PushConsumer
  client : Client Envelope
  dispatcher : Option Dispatcher
  /-- All the leases taken. -/
  taken : List (Lease Envelope)
  /-- All the calls about them. -/
  calls : List LeaseCall

namespace System

inductive Event where
  /-- An admission, a reload or a retirement calls the queue. -/
  | call (op : Op Envelope)
  | setEndpoints (endpoints : List Endpoint) (opts : PushOptions) (now : Instant)
  | setOptions (opts : PushOptions)
  | setRuntimeEndpoint (endpoint : Option RuntimeEndpoint) (now : Instant)
  | pause
  | resume
  | spawn
  | cancel
  /-- A round of the dispatcher's loop. -/
  | dispatch (now : Instant)
  /-- The `i`-th delivery goes on. -/
  | poll (i : Nat) (wake : Wake)
  /-- The `i`-th delivery is dropped. -/
  | drop (i : Nat) (now : Instant)
  /-- The dispatcher is forced, dropped or aborted. -/
  | force (now : Instant)

def new (sendable : Str → Bool) (endpoints : List Endpoint) (opts : PushOptions) (address : Nat) (cfg : QueueConfig) : System where
  consumer := .new sendable endpoints opts
  client := .new address cfg
  dispatcher := none
  taken := []
  calls := []

def live (s : System) : List Live := s.dispatcher.elim [] (·.deliveries)

/-- The calls that the queue's other callers make. A push queue is never expired. -/
def foreign : Op Envelope → Bool
  | .expire _ => false
  | op => !holderCall op

def callFor (live : Live) (op : Op Envelope) (s : System) : System :=
  let (result, client) := Client.step op s.client
  { s with
    client
    calls := s.calls ++ [{
      live, op, result, before := s.client.queue.at live.held.seq, after := client.queue.at live.held.seq }] }

/-- Drops the delivery's `Held`. -/
def dropHeld (live : Live) (s : System) : System :=
  let s := if live.held.acked then s else s.callFor live (.releaseSeq HOLDER live.held.seq)
  { s with consumer := { s.consumer with inFlight := s.consumer.inFlight - 1 } }

/-- `Held::ack`. -/
def ack (live : Live) (s : System) : System :=
  (s.callFor live (.ackSeq HOLDER live.held.seq)).dropHeld { live with held := { live.held with acked := true } }

/-- The delivery has returned, or was dropped where it stood. -/
def finish (how : End) (live : Live) (s : System) : System :=
  match how with
  | .delivered | .deadLettered => s.ack live
  | .released => s.dropHeld live

/-- The dispatcher takes up what became of its `i`-th delivery. -/
def goOn (d : Dispatcher) (i : Nat) (live : Live) (s : System) : System :=
  match live.delivery.phase with
  | .ended how => { s with dispatcher := some { d with deliveries := d.deliveries.eraseIdx i } }.finish how live
  | _ => { s with dispatcher := some { d with deliveries := d.deliveries.set i live } }

/-- Takes leases until there are as many deliveries as there may be. -/
def lease (d : Dispatcher) (now : Instant) (s : System) : System :=
  let room := s.consumer.targets.opts.maxInFlight - d.deliveries.length
  if 0 < room ∧ s.consumer.targets.slots ≠ [] then
    let (leases, queue) := s.client.queue.lease HOLDER room now
    let fresh := (leases.zipIdx s.taken.length).map fun (lease, id) =>
      { id, held := { seq := lease.seq, acked := false }, delivery := .new lease, drained := false : Live }
    { s with
      client := { s.client with queue }
      consumer := { s.consumer with inFlight := s.consumer.inFlight + leases.length }
      dispatcher := some { d with deliveries := d.deliveries ++ fresh }
      taken := s.taken ++ leases }
  else s

def dropAt (i : Nat) (now : Instant) (s : System) : System :=
  match s.dispatcher with
  | none => s
  | some d =>
    match d.deliveries[i]? with
    | none => s
    | some live =>
      let (delivery, consumer) := live.delivery.drop now s.consumer
      { s with consumer }.goOn d i { live with delivery }

/-- Drops all the deliveries, one by one. -/
def dropAll (now : Instant) (s : System) : System := s.live.foldl (fun s _ => s.dropAt 0 now) s

section
variable (sendable : Str → Bool)

def step (s : System) : Event → System
  | .call op =>
    if foreign op then
      let drains := match op with
        | .drainAll => true
        | _ => false
      { s with
        client := (Client.step op s.client).2
        dispatcher := s.dispatcher.map fun d =>
          { d with deliveries := d.deliveries.map fun live => { live with drained := live.drained || drains } } }
    else s
  | .setEndpoints endpoints opts now => { s with consumer := s.consumer.setEndpoints sendable endpoints opts now }
  | .setOptions opts => { s with consumer := s.consumer.setOptions opts }
  | .setRuntimeEndpoint endpoint now => { s with consumer := s.consumer.setRuntimeEndpoint sendable endpoint now }
  | .pause => { s with consumer := { s.consumer with paused := true } }
  | .resume => { s with consumer := { s.consumer with paused := false } }
  | .spawn => { s with dispatcher := s.dispatcher.or (some { cancelled := false, deliveries := [] }) }
  | .cancel => { s with dispatcher := s.dispatcher.map fun d => { d with cancelled := true } }
  | .dispatch now =>
    match s.dispatcher with
    | none => s
    | some d =>
      if d.cancelled then if d.deliveries.isEmpty then { s with dispatcher := none } else s
      else if s.consumer.paused then s
      else s.lease d now
  | .poll i wake =>
    match s.dispatcher with
    | none => s
    | some d =>
      match d.deliveries[i]? with
      | none => s
      | some live =>
        let (delivery, consumer) := live.delivery.poll d.cancelled wake s.consumer
        { s with consumer }.goOn d i { live with delivery }
  | .drop i now => s.dropAt i now
  | .force now => { s.dropAll now with dispatcher := none }

def run (endpoints : List Endpoint) (opts : PushOptions) (address : Nat) (cfg : QueueConfig) (events : List Event) : System :=
  events.foldl (step sendable) (new sendable endpoints opts address cfg)

end

end System

end Tgin.Push
