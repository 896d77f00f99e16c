import Tgin.Admission.Routes
import Tgin.PullConsumer
import Tgin.Push.Dispatch

/-! Whose updates a bot gets: by the polls on its gateway path, and at the endpoint that its `setWebhook` set. An update
    given to a bot was admitted for it, as long as no reload hands an instance on with what is another bot's. -/

namespace Tgin.Engine
open Queue Rules Config

variable {m : Matchers}

/-! ### Polls and deliveries -/

/-- A poll of the bot `source`, at the instance it was given. -/
structure Polling where
  source : SourceId
  slot : Nat
  poll : PullConsumer.Poll Envelope

/-- A delivery that a push instance has under way. -/
structure Delivering where
  slot : Nat
  lease : Lease Envelope

variable (m) in
/-- The engine with the polls and the deliveries that go on, and what bots have got. -/
structure Traffic where
  sys : System m
  polls : List Polling
  deliveries : List Delivering
  /-- What polls were answered with, each update with the bot that polled. -/
  handed : List (SourceId × Envelope)
  /-- What was posted to runtime endpoints. -/
  sent : List (RuntimeEndpoint × Envelope)

/-- The instance as its polls see it. Whether an operator paused it is kept elsewhere. -/
def Slot.pullConsumer (s : Slot) (paused : Bool) : PullConsumer Envelope := { queue := s.queue, draining := s.draining, paused }

namespace Traffic

inductive Event where
  /-- An admission, the control plane, the end of a drain, or any other caller of a queue. -/
  | act (action : Action)
  /-- A poll of the bot `source` on its gateway path for the consumer `name`. -/
  | poll (source : SourceId) (name : Str) (req : PollRequest) (start : Instant)
  | advance (poll : Nat) (paused : Bool) (now : Instant)
  /-- The wait of a poll ends by its timeout or by its cancellation. -/
  | stop (poll : Nat)
  /-- The dispatcher of a push instance leases what it has room for. -/
  | dispatch (slot : Nat) (paused : Bool) (now : Instant)
  /-- A delivery posts its update to an endpoint of the current set, whichever the balance and the breakers choose. -/
  | send (delivery endpoint : Nat)
  /-- A delivery ends, and acknowledges its update or leaves it to the queue. -/
  | settle (delivery : Nat) (acked : Bool)

def new (shared : Shared m) : Traffic m := { sys := .new shared, polls := [], deliveries := [], handed := [], sent := [] }

def shared (t : Traffic m) : Shared m := t.sys.world.shared

def slots (t : Traffic m) : Nat → Slot := t.shared.slots

def modify (t : Traffic m) (slot : Nat) (f : Slot → Slot) : Traffic m :=
  { t with sys := { t.sys with world := t.sys.world.modify slot f } }

/-- The runtime endpoint comes last in a set. -/
def runtimeAt (consumer : Consumer) (endpoint : Nat) : Option RuntimeEndpoint :=
  match consumer with
  | .pull => none
  | .push targets => if endpoint = targets.endpoints.length then targets.runtime else none

/-- An event that is not due does nothing. The traces of the system are not kept. -/
def step (t : Traffic m) : Event → Traffic m
  | .act action => { t with sys := t.sys.act action }
  | .poll source name req start =>
    match t.shared.pullConsumerFor source name with
    | none => t
    | some slot => { t with polls := t.polls ++ [{ source, slot, poll := { req, start, phase := .acking } }] }
  | .advance i paused now =>
    match t.polls[i]? with
    | none => t
    | some p =>
      let (phase, consumer) := ((t.slots p.slot).pullConsumer paused).advance p.poll now
      let t := t.modify p.slot fun s => { s with queue := consumer.queue }
      match phase with
      | .answered response =>
        { t with polls := t.polls.eraseIdx i, handed := t.handed ++ response.items.map fun item => (p.source, item) }
      | phase => { t with polls := t.polls.set i { p with poll := { p.poll with phase } } }
  | .stop i =>
    match t.polls[i]? with
    | some { poll := { phase := .waiting _, .. }, .. } => { t with polls := t.polls.eraseIdx i }
    | _ => t
  | .dispatch slot paused now =>
    match (t.slots slot).consumer with
    | .pull => t
    | .push targets =>
      if paused || t.shared.allocated ≤ slot || targets.endpoints.isEmpty && targets.runtime.isNone then t
      else
        let room := targets.options.maxInFlight - t.deliveries.countP (·.slot = slot)
        let (leases, queue) := (t.slots slot).queue.lease Push.HOLDER room now
        { t.modify slot fun s => { s with queue } with
          deliveries := t.deliveries ++ leases.map fun lease => { slot, lease } }
  | .send i endpoint =>
    match t.deliveries[i]? with
    | none => t
    | some d =>
      match runtimeAt (t.slots d.slot).consumer endpoint with
      | none => t
      | some runtime => { t with sent := t.sent ++ [(runtime, d.lease.item)] }
  | .settle i acked =>
    match t.deliveries[i]? with
    | none => t
    | some d =>
      let op := if acked then .ackSeq Push.HOLDER d.lease.seq else .releaseSeq Push.HOLDER d.lease.seq
      { t.modify d.slot (Slot.consume op) with deliveries := t.deliveries.eraseIdx i }

def run (t : Traffic m) (events : List Event) : Traffic m := events.foldl step t

/-- Whatever a bot got was admitted for it. -/
def Own (t : Traffic m) : Prop := (∀ x ∈ t.handed, x.2.source = x.1) ∧ ∀ x ∈ t.sent, x.2.source = x.1.source

end Traffic

/-! ### Whose an instance is -/

/-- The targets that an update of the bot `source` may still be queued to. -/
def Pc.ahead (slots : Nat → Slot) (source : SourceId) : Pc m → List Target
  | .load | .cancel _ _ | .done _ => []
  | .route state => state.targets.filter fun t => state.feeds source (slots t.slot).name
  | .visit left permits => left ++ permits.map (·.1)
  | .reserve target left permits | .reserving _ target left permits => target :: (left ++ permits.map (·.1))
  | .commit permits | .committed _ permits => permits.map (·.1)

namespace Traffic

/-- The bots whose updates an instance holds, delivers or is about to be given, and those that poll it. -/
def bots (t : Traffic m) (slot : Nat) : List SourceId :=
  (t.slots slot).queue.inner.entries.toList.map (·.2.item.source) ++
    (t.sys.admissions.filter fun a => (a.pc.ahead t.slots a.update.source).any (·.slot = slot)).map (·.update.source) ++
    (t.polls.filter (·.slot = slot)).map (·.source) ++
    (t.deliveries.filter (·.slot = slot)).map (·.lease.item.source)

/-- A reload hands no instance on, for a consumer that serves one bot, to another bot than the one that everything at it is
    for; and its rules fit into a route table. -/
def Clean (t : Traffic m) : Event → Prop
  | .act (.control (.apply new)) => ∀ generation, (t.shared.apply new).1 = .ok generation →
    new.nodes < 2 ^ 32 ∧ ∀ c ∈ new.consumers, c.kind.servesOneBot = true → ∀ bot ∈ new.bots, botTargets bot c.id = true →
      ∀ slot ∈ t.shared.inherited c, ∀ source ∈ t.bots slot, t.shared.sourceId bot.name = some source
  | _ => True

end Traffic

end Tgin.Engine
