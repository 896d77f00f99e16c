import Mathlib.Data.List.Infix
import Tgin.Time

/-! The long-poll source of a bot (`tgin-botapi/src/longpoll.rs`): one `run` of its poll loop, the calls of `drain` on
    it, and every order of their steps. What comes from outside (the server's answers, the sink's, cancellation, the
    end of a sleep) is an event; how long a wait lasts is left to the event that ends it. -/

namespace Tgin.LongPoll

/-- `i64::MAX`. -/
abbrev idMax : Int := 2 ^ 63 - 1

/-- `update_id.saturating_add(1)`. -/
def nextOffset (updateId : Int) : Int := min (updateId + 1) idMax

/-- The result of offering one update to a sink. -/
inductive Admit where
  | admitted
  | backpressure
  | unroutable
  deriving DecidableEq, Repr

inductive ApiError where
  | network (message : String)
  | http (status : Nat) (description : String) (retryAfter : Option Duration)
  | decode (message : String)
  | config (message : String)
  deriving DecidableEq, Repr

/-- How `run` ended. -/
inductive Exit where
  | done
  | fatal
  deriving DecidableEq, Repr

structure Options where
  deleteWebhookOnStart : Bool
  localUpstream : Bool
  deriving DecidableEq, Repr

/-- A webhook active again this soon after a successful `deleteWebhook` is not deleted again. -/
def WEBHOOK_REDELETE_GUARD : Duration := 60 * 10 ^ 9

def isFatal (err : ApiError) (localUpstream : Bool) : Bool :=
  match err with
  | .http 401 _ _ | .http 404 _ _ => !localUpstream
  | .http 403 _ _ | .config _ => true
  | _ => false

def contains (description part : String) : Bool := decide (part.toList <:+: description.toList)

/-- What the poll loop does after a failed `getUpdates`. -/
inductive Recovery where
  | poll
  | wait
  | deleteWebhook
  | exit (exit : Exit)
  deriving DecidableEq, Repr

def recover (opts : Options) (err : ApiError) (webhookDeleted : Option Instant) (now : Instant) : Recovery :=
  match err with
  | .http 409 description _ =>
    if contains description "webhook is active" then
      if !opts.deleteWebhookOnStart then .wait
      else if webhookDeleted.any fun t => Instant.saturatingDurationSince now t < WEBHOOK_REDELETE_GUARD then .wait
      else .deleteWebhook
    -- The next poll finds the webhook active.
    else if contains description "terminated by setWebhook" then .poll
    -- Another process polls with this token.
    else .wait
  | err => if isFatal err opts.localUpstream then .exit .fatal else .wait

/-! ### The source and its drains -/

/-- The `on` flag of `Drain`, a watch channel: each change has a version of its own. -/
structure Flag where
  on : Bool
  version : Nat
  deriving DecidableEq, Repr

def Flag.send (f : Flag) (on : Bool) : Flag := { on, version := f.version + 1 }

/-- Where `run` is. -/
inductive Phase where
  | identifying
  /-- It waits out a failed `getMe`. -/
  | unidentified
  /-- The `deleteWebhook` before the first poll. -/
  | clearing
  /-- At the head of the loop. -/
  | ready
  /-- `getUpdates` is in flight; it was sent while draining or not. -/
  | polling (draining : Bool)
  /-- The first update of `rest` is to be offered. -/
  | admitting (rest : List Int)
  /-- The sink pushed back on the first update of `rest`. -/
  | refused (rest : List Int)
  /-- A draining poll found nothing. -/
  | reporting
  | holding
  /-- The `deleteWebhook` of `recover`. -/
  | deleting
  | waiting
  | exited (exit : Exit)
  deriving DecidableEq, Repr

/-- The updates of the batch that are not yet taken. -/
def Phase.rest : Phase → List Int
  | .admitting rest | .refused rest => rest
  | _ => []

/-- An update fetched, with what the sink answered each time it was offered. -/
structure Fetched where
  id : Int
  answers : List Admit
  deriving DecidableEq, Repr

def Fetched.taken (f : Fetched) : Bool := f.answers.any (· ≠ .backpressure)

def Fetched.answer (answer : Admit) (f : Fetched) : Fetched := { f with answers := f.answers ++ [answer] }

inductive DrainPhase where
  /-- It subscribed to the empty batches and has not raised the flag yet. -/
  | subscribed
  | raised
  | returned
  | calledOff
  deriving DecidableEq, Repr

/-- A call of `drain`. -/
structure DrainCall where
  /-- The empty batches counted when it subscribed. -/
  seen : Nat
  phase : DrainPhase
  deriving DecidableEq, Repr

structure System where
  phase : Phase
  /-- The first update not yet confirmed. -/
  offset : Int
  webhookDeleted : Option Instant
  on : Flag
  /-- The version of the flag the poll loop has seen. -/
  seen : Nat
  /-- Counts the empty batches polled while draining. -/
  empty : Nat
  drains : List DrainCall
  /-- Every update fetched, in order. -/
  log : List Fetched
  deriving DecidableEq, Repr

/-- A step of `run`. -/
inductive SourceEvent where
  /-- `getMe` answers. -/
  | identified (result : Except ApiError Unit)
  | webhookDeleted (result : Except ApiError Unit) (now : Instant)
  /-- The loop reads the flag and sends the next poll. -/
  | request
  /-- The flag changed: the long poll in flight is given up. -/
  | flagChanged
  /-- The server answers the poll. -/
  | answered (result : Except ApiError (List Int)) (now : Instant)
  /-- The sink answers the update offered. -/
  | offered (answer : Admit)
  /-- The sleep ends. -/
  | slept
  | report
  /-- The hold finds the flag down. -/
  | resume
  /-- `ingest` was cancelled, and the source notices. -/
  | cancel
  deriving Repr

/-- A step of a call of `drain`, the call told by its place. -/
inductive DrainEvent where
  /-- `drain` is called, and subscribes. -/
  | subscribe
  | raise (call : Nat)
  /-- The call finds an empty batch reported. -/
  | finish (call : Nat)
  /-- The call is dropped before it returned. -/
  | callOff (call : Nat)
  deriving Repr

inductive Event where
  | source (e : SourceEvent)
  | drain (e : DrainEvent)
  deriving Repr

namespace System

def new : System where
  phase := .identifying
  offset := 0
  webhookDeleted := none
  on := { on := false, version := 0 }
  seen := 0
  empty := 0
  drains := []
  log := []

/-- Into the poll loop, whose receiver starts at the flag's present version. -/
def enter (s : System) : System := { s with phase := .ready, seen := s.on.version }

def admitNext (s : System) (rest : List Int) (answer : Admit) : System :=
  let log := s.log.modify (s.log.length - rest.length) (·.answer answer)
  match answer, rest with
  | .backpressure, rest => { s with log, phase := .refused rest }
  | _, [] => s
  | _, updateId :: rest =>
    { s with log, offset := nextOffset updateId, phase := if rest.isEmpty then .ready else .admitting rest }

/-- A step that is not due does not happen. -/
def stepSource (opts : Options) (s : System) (e : SourceEvent) : System :=
  match e, s.phase with
  | .identified (.ok ()), .identifying => if opts.deleteWebhookOnStart then { s with phase := .clearing } else s.enter
  | .identified (.error err), .identifying =>
    { s with phase := if isFatal err opts.localUpstream then .exited .fatal else .unidentified }
  | .slept, .unidentified => { s with phase := .identifying }
  | .webhookDeleted (.ok ()) now, .clearing => { s with webhookDeleted := some now }.enter
  -- A failed `deleteWebhook` does not keep it from polling.
  | .webhookDeleted (.error _) _, .clearing => s.enter
  | .request, .ready => { s with phase := .polling s.on.on, seen := s.on.version }
  | .flagChanged, .polling false => if s.seen = s.on.version then s else { s with phase := .ready, seen := s.on.version }
  | .answered (.ok ids) _, .polling draining =>
    { s with
      phase := if !ids.isEmpty then .admitting ids else if draining then .reporting else .ready
      log := s.log ++ ids.map fun id => { id, answers := [] } }
  | .answered (.error err) now, .polling _ =>
    match recover opts err s.webhookDeleted now with
    | .poll => { s with phase := .ready }
    | .wait => { s with phase := .waiting }
    | .deleteWebhook => { s with phase := .deleting }
    | .exit exit => { s with phase := .exited exit }
  | .offered answer, .admitting rest => s.admitNext rest answer
  | .slept, .refused rest => { s with phase := .admitting rest }
  | .report, .reporting => { s with phase := .holding, empty := s.empty + 1 }
  | .resume, .holding => if s.on.on then s else { s with phase := .ready, seen := s.on.version }
  | .webhookDeleted (.ok ()) now, .deleting => { s with phase := .ready, webhookDeleted := some now }
  | .webhookDeleted (.error _) _, .deleting => { s with phase := .waiting }
  | .slept, .waiting => { s with phase := .ready }
  -- What runs between two awaits is not cancelled.
  | .cancel, .ready | .cancel, .admitting _ | .cancel, .reporting | .cancel, .exited _ => s
  | .cancel, _ => { s with phase := .exited .done }
  | _, _ => s

def stepDrain (s : System) (e : DrainEvent) : System :=
  match e with
  | .subscribe => { s with drains := s.drains ++ [{ seen := s.empty, phase := .subscribed }] }
  | .raise i =>
    match s.drains[i]? with
    | some ⟨seen, .subscribed⟩ => { s with on := s.on.send true, drains := s.drains.set i ⟨seen, .raised⟩ }
    | _ => s
  | .finish i =>
    match s.drains[i]? with
    | some ⟨seen, .raised⟩ => if s.empty = seen then s else { s with drains := s.drains.set i ⟨seen, .returned⟩ }
    | _ => s
  | .callOff i =>
    match s.drains[i]? with
    | some ⟨seen, .raised⟩ => { s with on := s.on.send false, drains := s.drains.set i ⟨seen, .calledOff⟩ }
    | _ => s

def step (opts : Options) (s : System) (e : Event) : System :=
  match e with
  | .source e => s.stepSource opts e
  | .drain e => s.stepDrain e

def run (opts : Options) (events : List Event) : System := events.foldl (step opts) new

end System
end Tgin.LongPoll
