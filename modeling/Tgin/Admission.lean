import Tgin.Reload

/-! Admission, `tgin-core/src/admission.rs`: routing one update and queueing it in every target consumer.

    An admission holds one queue lock at a time, so it is a sequence of steps, and other parties act between them.
    Routing is one step. What is only logged, and the time under backpressure, are left out. -/

namespace Tgin.Engine
open Queue Rules

variable {m : Matchers}

/-- The result of offering one update to a sink. -/
inductive Admit where
  /-- Queued for at least one consumer. -/
  | admitted
  /-- A target queue is full; the source should slow down and retry. -/
  | backpressure
  /-- No rule matched the update. -/
  | unroutable
  deriving DecidableEq, Repr

/-- An update that a source offers. -/
structure Update where
  source : SourceId
  updateId : Int
  payload : List UInt8
  facts : Facts
  deriving DecidableEq, Repr

def Update.size (update : Update) : Nat := update.payload.length

def Update.envelope (update : Update) (receivedAt : Instant) : Envelope where
  source := update.source
  updateId := update.updateId
  updateType := update.facts.updateType
  key := update.facts.orderingKey
  payload := update.payload
  receivedAt

/-- The targets of the routed consumers, in the order of the two passes over them. -/
def visits (targets : List Target) (ids : List ConsumerId) : List Target :=
  [OnFull.backpressure, OnFull.dropOldest].flatMap fun pass =>
    (ids.filterMap fun id => targets[id.toNat]?).filter (·.onFull = pass)

variable (m) in
/-- Where an admission is. -/
inductive Pc where
  | load
  | route (state : EngineState m)
  /-- Comes to the next target. -/
  | visit (left : List Target) (permits : List (Target × Permit))
  /-- Has found the target open. -/
  | reserve (target : Target) (left : List Target) (permits : List (Target × Permit))
  /-- Has read how many permits of the target's queue are out. -/
  | reserving (items : Nat) (target : Target) (left : List Target) (permits : List (Target × Permit))
  /-- Drops its permits, then gives the answer, or tries again when a target was closed. -/
  | cancel (permits : List (Target × Permit)) (answer : Option Admit)
  | commit (permits : List (Target × Permit))
  /-- Has queued the update to the target. -/
  | committed (target : Target) (permits : List (Target × Permit))
  | done (outcome : Admit)

variable (m) in
/-- One call of `admit`. -/
structure Admission where
  update : Update
  /-- Whether a target was closed on the first try. -/
  again : Bool
  now : Instant
  pc : Pc m

def Admission.start (update : Update) : Admission m := { update, again := false, now := 0, pc := .load }

/-- Drops a permit of the slot's queue. -/
def Slot.dropPermit (slot : Slot) (permit : Permit) : Slot := { slot with queue := slot.queue.dropPermit permit }

variable (m) in
/-- What admissions share. -/
structure World where
  shared : Shared m
  /-- The split cursors of the route tables, by the address of the table. -/
  cursors : Nat → Cursors
  /-- Reused by admissions; grows to the number of threads that admit. -/
  scratch : List (MatchScratch m)

namespace World

def slots (world : World m) : Nat → Slot := world.shared.slots

def modify (world : World m) (slot : Nat) (f : Slot → Slot) : World m :=
  { world with shared := world.shared.modify slot f }

@[simp] theorem modify_slots (world : World m) (slot : Nat) (f : Slot → Slot) :
    (world.modify slot f).slots = Function.update world.slots slot (f (world.slots slot)) := rfl

def dropPermit (world : World m) (slot : Nat) (permit : Permit) : World m := world.modify slot (·.dropPermit permit)

/-- Routes an update on `state`. -/
def route (world : World m) (state : EngineState m) (update : Update) : (Option Nat × List ConsumerId) × World m :=
  let token := state.table.token
  let scratch := world.scratch.getLast?.getD .default
  let (result, cursors, scratch) := state.table.route update.source update.facts (world.cursors token) scratch
  (result, { world with
    cursors := Function.update world.cursors token cursors, scratch := world.scratch.dropLast ++ [scratch] })

end World

/-- What comes of a target whose queue was asked for room. -/
def Slot.reserved (slot : Slot) : Except Full Permit × LeaseQueue Envelope → OnFull → Slot
  | (.ok permit, queue), _ => { slot with queue }.overflowed permit.evicted
  | (.error .tooLarge, queue), _ => { slot with queue }.count .oversized 1
  | (.error _, queue), .backpressure => { slot with queue }
  | (.error _, queue), .dropOldest => { slot with queue }.overflowed 1

/-- The next step of an admission; `clock` is what a clock says. -/
def Admission.step (clock : Instant) (a : Admission m) (world : World m) : Admission m × World m :=
  match a.pc with
  | .load => ({ a with pc := .route world.shared.state }, world)
  | .route state =>
    let ((matched, ids), world) := world.route state a.update
    match matched with
    | none => ({ a with pc := .done .unroutable }, world)
    | some _ => ({ a with now := clock, pc := .visit (visits state.targets ids) [] }, world)
  | .visit [] permits => ({ a with pc := .commit permits }, world)
  | .visit (target :: left) permits =>
    if (world.slots target.slot).closed then ({ a with pc := .cancel permits none }, world)
    else ({ a with pc := .reserve target left permits }, world)
  | .reserve target left permits =>
    ({ a with pc := .reserving (world.slots target.slot).queue.reservations.items target left permits }, world)
  | .reserving items target left permits =>
    let queue := (world.slots target.slot).queue
    let tried := queue.tryReserveSeeing (items, queue.reservations.bytes) a.update.size
    let world := world.modify target.slot (·.reserved tried target.onFull)
    match tried.1, target.onFull with
    | .ok permit, _ => ({ a with pc := .visit left (permits ++ [(target, permit)]) }, world)
    | .error .tooLarge, _ => ({ a with pc := .visit left permits }, world)
    | .error _, .backpressure => ({ a with pc := .cancel permits (some .backpressure) }, world)
    | .error _, .dropOldest => ({ a with pc := .visit left permits }, world)
  | .cancel [] (some outcome) => ({ a with pc := .done outcome }, world)
  | .cancel [] none =>
    if a.again then ({ a with pc := .done .backpressure }, world) else ({ a with again := true, pc := .load }, world)
  | .cancel ((target, permit) :: permits) answer => ({ a with pc := .cancel permits answer }, world.dropPermit target.slot permit)
  | .commit [] => ({ a with pc := .done .admitted }, world)
  | .commit ((target, permit) :: permits) =>
    let pc := .committed target permits
    match (world.slots target.slot).queue.commit permit (a.update.envelope a.now) a.update.facts.orderingKey a.update.updateId with
    | (.ok _, queue) => ({ a with pc }, world.modify target.slot fun s => { s with queue })
    | (.error foreign, _) =>
      ({ a with pc }, (world.dropPermit foreign.permit.reservations foreign.permit).modify target.slot (·.overflowed 1))
  | .committed target permits =>
    if (world.slots target.slot).closed then ({ a with pc := .commit permits }, world.modify target.slot Slot.drainLate)
    else ({ a with pc := .commit permits }, world)
  | .done _ => (a, world)

end Tgin.Engine
