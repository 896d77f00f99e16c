import Std.Data.ExtTreeMap
import Tgin.Time

/-! The supervisor of `tgin-runtime/src/supervisor.rs` and `backoff.rs`: a task is polled by the runtime, a step of `supervise` at a
    time, and each step publishes one state at most; calls of the supervisor come between the steps of its tasks. -/

namespace Tgin
open Std (ExtTreeMap)

/-- Exponential backoff with full jitter and a lower bound. -/
structure Backoff where
  initial : Duration
  max : Duration
  floor : Duration
  attempt : Nat
  deriving DecidableEq, Repr

namespace Backoff

/-- The next delay when the generator draws `drawn`, which is at most the ceiling. -/
def nextDelay (b : Backoff) (drawn : Nat) : Duration × Backoff :=
  let factor := min (2 ^ b.attempt) (2 ^ 32 - 1)
  let ceiling := min (min (b.initial * factor) Duration.MAX) b.max
  let ceilingNanos := min ceiling wordMax
  (Max.max (min drawn ceilingNanos) b.floor, { b with attempt := min (b.attempt + 1) (2 ^ 32 - 1) })

def reset (b : Backoff) : Backoff := { b with attempt := 0 }

end Backoff

/-- How one attempt of a supervised task ended. -/
inductive Exit where
  | done
  | retry (error : String)
  | fatal (reason : String)
  deriving DecidableEq, Repr

inductive TaskState where
  | starting
  | running
  | backoff (retryAt : Instant) (lastError : String)
  | failed (reason : String)
  | stopped
  deriving DecidableEq, Repr

def TaskState.ended : TaskState → Bool
  | .failed _ | .stopped => true
  | _ => false

/-! ### One task -/

/-- What polling an attempt gives. -/
inductive Outcome where
  | pending
  | exit (exit : Exit)
  /-- A panic that `attempt` catches, with its message. -/
  | panicked (message : String)
  /-- A panic that it does not, such as one of a destructor: it unwinds `supervise`. -/
  | unwound
  deriving DecidableEq, Repr

/-- How the runtime sees a task end. -/
inductive Join where
  | finished | panicked | aborted
  deriving DecidableEq, Repr

/-- Where `supervise` stands. -/
inductive Pc where
  /-- Not polled yet. -/
  | starting
  | attempt
  | waiting (retryAt : Instant)
  /-- What it owns is about to be dropped. -/
  | returning (join : Join)
  | joined (join : Join)
  deriving DecidableEq, Repr

/-- A task: its published state, and the token that stops this instance only. -/
structure Instance where
  name : String
  /-- The caller's token. -/
  parent : Nat
  /-- Whether its own token is cancelled. -/
  cancelled : Bool
  aborted : Bool
  backoff : Backoff
  started : Instant
  pc : Pc
  state : TaskState
  /-- The states published so far. -/
  published : List TaskState
  deriving DecidableEq, Repr

namespace Instance

def new (name : String) (parent : Nat) (backoff : Backoff) : Instance :=
  { name, parent, cancelled := false, aborted := false, backoff, started := 0, pc := .starting, state := .starting,
    published := [.starting] }

def set (inst : Instance) (state : TaskState) : Instance := { inst with state, published := inst.published ++ [state] }

/-- `StopOnDrop`: publishes that the task stopped unless it already ended. -/
def dropState (inst : Instance) : Instance := if inst.state.ended then inst else inst.set .stopped

/-- The loop's top: an attempt starts. -/
def attempt (inst : Instance) (now : Instant) : Instance := { inst.set .running with started := now, pc := .attempt }

/-- After an attempt that failed. The addition to the clock may overflow, and panic. -/
def retry (inst : Instance) (now : Instant) (drawn : Nat) (error : String) : Instance :=
  let backoff := if Instant.saturatingDurationSince now inst.started > inst.backoff.max then inst.backoff.reset else inst.backoff
  let (delay, backoff) := backoff.nextDelay drawn
  match Instant.checkedAdd now delay with
  | none => { inst with backoff, pc := .returning .panicked }
  | some retryAt => { inst.set (.backoff retryAt error) with backoff, pc := .waiting retryAt }

/-- A step of `supervise`, given whether a cancellation is seen, the clock, what the generator draws and what the attempt
    gives. -/
def poll (inst : Instance) (cancelled : Bool) (now : Instant) (drawn : Nat) (outcome : Outcome) : Instance :=
  match inst.pc with
  | .starting => inst.attempt now
  | .attempt =>
    if cancelled then { inst with pc := .returning .finished }
    else match outcome with
      | .pending => inst
      | .exit .done => { inst with pc := .returning .finished }
      | .exit (.fatal reason) => { inst.set (.failed reason) with pc := .returning .finished }
      | .exit (.retry error) => inst.retry now drawn error
      | .panicked message => inst.retry now drawn ("panicked: " ++ message)
      | .unwound => { inst with pc := .returning .panicked }
  | .waiting retryAt =>
    if cancelled then { inst with pc := .returning .finished }
    else if now < retryAt then inst
    else inst.attempt now
  | .returning join => { inst.dropState with pc := .joined join }
  | .joined _ => inst

/-- The runtime drops a suspended task that was aborted. -/
def dropAborted (inst : Instance) : Instance :=
  match inst.pc with
  | .starting | .attempt | .waiting _ => if inst.aborted then { inst with pc := .returning .aborted } else inst
  | .returning _ | .joined _ => inst

def isJoined (inst : Instance) : Bool :=
  match inst.pc with
  | .joined _ => true
  | _ => false

end Instance

/-! ### The supervisor -/

structure Supervisor where
  /-- The latest instance of each name listed. -/
  entries : ExtTreeMap String Nat
  /-- The tasks spawned, but for those reaped. -/
  running : List Nat
  /-- Every instance so far. -/
  instances : List Instance
  /-- The callers' tokens that are cancelled. -/
  cancelled : List Nat
  /-- The tasks that each call of `shutdown` took. -/
  shutdowns : List (List Nat)

inductive Action where
  | spawn (name : String) (backoff : Backoff) (cancel : Nat)
  /-- A caller cancels its token. -/
  | cancel (token : Nat)
  | remove (name : String)
  /-- A call of `shutdown` takes the tasks. -/
  | shutdown
  /-- The deadline of a call of `shutdown` has passed. -/
  | abortAll (call : Nat)
  | poll (id : Nat) (now : Instant) (drawn : Nat) (outcome : Outcome)
  | dropAborted (id : Nat)
  deriving DecidableEq, Repr

namespace Supervisor

def new : Supervisor := { entries := ∅, running := [], instances := [], cancelled := [], shutdowns := [] }

/-- An instance's token is a child of its caller's. -/
def isCancelled (s : Supervisor) (inst : Instance) : Bool := inst.cancelled || inst.parent ∈ s.cancelled

def hasJoined (s : Supervisor) (id : Nat) : Bool := s.instances[id]?.any (·.isJoined)

def spawn (s : Supervisor) (name : String) (backoff : Backoff) (cancel : Nat) : Supervisor :=
  let id := s.instances.length
  let instances := match s.entries[name]? with
    | some previous => s.instances.modify previous fun inst => { inst with cancelled := true }
    | none => s.instances
  { s with
    entries := s.entries.insert name id
    running := s.running.filter (!s.hasJoined ·) ++ [id]
    instances := instances ++ [.new name cancel backoff] }

/-- Every task's name and current state, ordered by name. -/
def states (s : Supervisor) : List (String × Option TaskState) :=
  s.entries.toList.map fun (name, id) => (name, s.instances[id]?.map (·.state))

/-- Forgets the task `name` if it has ended. -/
def remove (s : Supervisor) (name : String) : Supervisor :=
  if (s.entries[name]?.bind (s.instances[·]?)).any (·.state.ended) then { s with entries := s.entries.erase name } else s

def step (action : Action) (s : Supervisor) : Supervisor :=
  match action with
  | .spawn name backoff cancel => s.spawn name backoff cancel
  | .cancel token => { s with cancelled := token :: s.cancelled }
  | .remove name => s.remove name
  | .shutdown => { s with running := [], shutdowns := s.shutdowns ++ [s.running] }
  | .abortAll call =>
    match s.shutdowns[call]? with
    | none => s
    | some tasks => { s with instances := s.instances.mapIdx fun id inst => if id ∈ tasks then { inst with aborted := true } else inst }
  | .poll id now drawn outcome =>
    { s with instances := s.instances.modify id fun inst => inst.poll (s.isCancelled inst) now drawn outcome }
  | .dropAborted id => { s with instances := s.instances.modify id (·.dropAborted) }

def run (s : Supervisor) (actions : List Action) : Supervisor := actions.foldl (fun s action => s.step action) s

end Supervisor

end Tgin
