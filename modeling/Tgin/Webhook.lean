import Tgin.Admission.Dealt
import Tgin.ClientIp
import Tgin.UpdateFacts.Extract

/-! Webhook ingress, `tgin-botapi/src/webhook.rs`: a posted update is answered once the engine was offered it. Ingest stops for a bot or,
    at the shutdown of `tgin/src/app.rs`, for all. What is only logged is left out. -/

namespace Tgin.Webhook
open Engine Rules

/-- The crates, as far as ingress relies on them: what `serde_json` reads, and which addresses a network has. -/
structure Crates (IpNet : Type) where
  doc : Str → Option JsonDoc
  serde : UpdateFacts.Serde
  contains : IpNet → IpAddr → Bool

/-! ### One request -/

/-- Which client addresses may post updates. -/
inductive IpAllowlist (IpNet : Type) where
  /-- Any address. -/
  | none
  /-- Telegram's webhook networks. -/
  | telegram
  /-- These networks; an empty list admits no one. -/
  | cidrs (nets : List IpNet)

/-- 149.154.160.0/20 and 91.108.4.0/22. -/
def TELEGRAM_NETS : List (BitVec 32 × Nat) := [(0x959AA000, 20), (0x5B6C0400, 22)]

/-- `IpNet::contains` for an IPv4 network. -/
def inNet (addr : BitVec 32) (net : BitVec 32 × Nat) : Bool := addr >>> (32 - net.2) = net.1 >>> (32 - net.2)

/-- A posted body arrives in frames. -/
inductive Frame where
  | data (bytes : List UInt8)
  | trailers
  | error

structure Body where
  /-- The length that is declared, if one is. -/
  lower : Nat
  frames : List Frame

structure Request where
  /-- The method is `POST`. -/
  post : Bool
  /-- The TCP peer's address, if it is known. -/
  peer : Option IpAddr
  /-- The lines of `X-Forwarded-For`. -/
  forwardedFor : List HeaderValue
  /-- The first `X-Telegram-Bot-Api-Secret-Token`. -/
  secretToken : Option Str
  body : Body

/-- One webhook route. -/
structure Ingress (IpNet : Type) where
  id : SourceId
  secret : Option Str
  allowlist : IpAllowlist IpNet
  trustedProxies : List IpNet
  bodyLimit : Nat
  /-- The address of its ingest token. -/
  ingest : Nat

inductive Answer where
  | ok | badRequest | unauthorized | forbidden | methodNotAllowed | payloadTooLarge
  /-- 503 with `Retry-After: 5`. -/
  | retryLater
  deriving DecidableEq, Repr

/-- Errors of a source, those of webhooks. -/
inductive SourceErrorReason where
  | network | unauthorized | decode
  deriving DecidableEq, Repr

/-- Compares in constant time, over the expected length. -/
def secretEq (provided expected : Str) : Bool :=
  let padded := provided.take expected.length ++ List.replicate (expected.length - provided.length) 0
  provided.length = expected.length && padded = expected

theorem secretEq_iff {provided expected : Str} : secretEq provided expected = true ↔ provided = expected := by
  rw [secretEq, Bool.and_eq_true, decide_eq_true_eq, decide_eq_true_eq]
  constructor
  · rintro ⟨length, same⟩
    rwa [← length, List.take_length, Nat.sub_self, List.replicate_zero, List.append_nil] at same
  · rintro rfl
    rw [List.take_length, Nat.sub_self, List.replicate_zero, List.append_nil]
    exact ⟨rfl, rfl⟩

inductive BodyError where
  | tooLarge
  /-- The client failed to send the body. -/
  | read
  deriving DecidableEq, Repr

/-- The largest `usize`. -/
abbrev USIZE_MAX : Nat := wordSize - 1

/-- The loop over the frames: a first frame with nothing after it is kept apart. -/
def readFrames (limit : Nat) : List Frame → (first : Option (List UInt8)) → (rest : List UInt8) → (len : Nat) → Except BodyError (List UInt8)
  | [], first, rest, _ => .ok (first.getD rest)
  | .error :: _, _, _, _ => .error .read
  | .trailers :: frames, first, rest, len => readFrames limit frames first rest len
  | .data data :: frames, first, rest, len =>
    let len := min (len + data.length) USIZE_MAX
    if limit < len then .error .tooLarge
    else
      match first with
      | none => if rest.isEmpty then readFrames limit frames (some data) rest len else readFrames limit frames none (rest ++ data) len
      | some earlier => readFrames limit frames none (rest ++ earlier ++ data) len

/-- Reads a body whole, refusing it as soon as it is known to exceed `limit`. -/
def readBody (body : Body) (limit : Nat) : Except BodyError (List UInt8) :=
  if limit < body.lower then .error .tooLarge else readFrames limit body.frames none [] 0

section
variable {IpNet : Type} (c : Crates IpNet)

/-- Whether an address may post. -/
def IpAllowlist.allows (allowlist : IpAllowlist IpNet) (addr : IpAddr) : Bool :=
  match allowlist with
  | .none => true
  | .telegram => match addr.toCanonical with
    | .v4 addr => TELEGRAM_NETS.any (inNet addr)
    | .v6 _ => false
  | .cidrs nets => nets.any (c.contains · addr.toCanonical)

namespace Ingress
variable (ingress : Ingress IpNet)

def addressAllowed (req : Request) : Bool :=
  match ingress.allowlist with
  | .none => true
  | allowlist =>
    (req.peer.bind fun peer => ClientIp.clientIp c.contains peer req.forwardedFor ingress.trustedProxies).any (allowlist.allows c)

/-- A missing header never matches, even an empty secret. -/
def secretMatches (req : Request) : Bool :=
  match ingress.secret with
  | none => true
  | some expected => req.secretToken.any (secretEq · expected)

/-- The answer to a head that is refused, whether ingest runs or not. -/
def refusal (req : Request) : Option Answer :=
  if !req.post then some .methodNotAllowed
  else if !ingress.addressAllowed c req then some .forbidden
  else if !ingress.secretMatches req then some .unauthorized
  else none

/-- The update in a body, or the answer to the body and what it counts as. -/
def readUpdate (body : Body) : Except (Answer × SourceErrorReason) Update :=
  match readBody body ingress.bodyLimit with
  | .error .tooLarge => .error (.payloadTooLarge, .decode)
  | .error .read => .error (.badRequest, .network)
  | .ok payload =>
    match (c.doc payload).elim (.error .json) (UpdateFacts.extract c.serde) with
    | .error _ => .error (.badRequest, .decode)
    | .ok (updateId, facts) => .ok { source := ingress.id, updateId := updateId.toInt, payload, facts }

end Ingress

end

/-! ### Requests, the engine and the shutdown -/

inductive Phase where
  | head
  | body
  /-- An update was read. -/
  | decoded (update : Update)
  | ready (update : Update)
  /-- The engine was offered the update, in this admission. -/
  | admitting (admission : Nat)
  | admitted
  | answered (answer : Answer)
  /-- The client went away, or had not sent the body in time. -/
  | abandoned

structure Post (IpNet : Type) where
  ingress : Ingress IpNet
  request : Request
  phase : Phase
  /-- The admission of its update. -/
  admission : Option Nat

/-- What is counted of a source. -/
structure Metrics where
  updates : Nat
  errors : SourceErrorReason → Nat

namespace Metrics

def error (metrics : Metrics) (reason : SourceErrorReason) : Metrics :=
  { metrics with errors := Function.update metrics.errors reason (metrics.errors reason + 1) }

def update (metrics : Metrics) : Metrics := { metrics with updates := metrics.updates + 1 }

end Metrics

structure Hooks (m : Matchers) (IpNet : Type) where
  sys : System m
  posts : List (Post IpNet)
  /-- The ingest tokens that are cancelled. -/
  stopped : Nat → Bool
  metrics : SourceId → Metrics

inductive Action (IpNet : Type) where
  | arrive (ingress : Ingress IpNet) (request : Request)
  /-- A request takes its next step. -/
  | step (post : Nat)
  | abandon (post : Nat)
  /-- A bot's ingest stops. -/
  | stop (token : Nat)
  /-- All ingest stops. -/
  | shutdown
  | engine (action : Engine.Action)

namespace Hooks
variable {m : Matchers} {IpNet : Type} (c : Crates IpNet)

def new (engine : Shared m) : Hooks m IpNet where
  sys := .new engine
  posts := []
  stopped _ := false
  metrics _ := { updates := 0, errors := fun _ => 0 }

/-- The request `i` comes to a phase. -/
def goto (h : Hooks m IpNet) (i : Nat) (post : Post IpNet) (phase : Phase) : Hooks m IpNet :=
  { h with posts := h.posts.set i { post with phase } }

def error (h : Hooks m IpNet) (source : SourceId) (reason : SourceErrorReason) : Hooks m IpNet :=
  { h with metrics := Function.update h.metrics source ((h.metrics source).error reason) }

def update (h : Hooks m IpNet) (source : SourceId) : Hooks m IpNet :=
  { h with metrics := Function.update h.metrics source (h.metrics source).update }

/-- `handle`, from one point where others may act to the next. -/
def handle (h : Hooks m IpNet) (i : Nat) (post : Post IpNet) : Hooks m IpNet :=
  let ingress := post.ingress
  let cancelled := h.stopped ingress.ingest
  match post.phase with
  | .head =>
    match ingress.refusal c post.request with
    | some .methodNotAllowed => h.goto i post (.answered .methodNotAllowed)
    | some answer => (h.error ingress.id .unauthorized).goto i post (.answered answer)
    | none => h.goto i post (if cancelled then .answered .retryLater else .body)
  | .body =>
    match ingress.readUpdate c post.request.body with
    | .error (answer, reason) => (h.error ingress.id reason).goto i post (.answered answer)
    | .ok update => h.goto i post (.decoded update)
  | .decoded update => h.goto i post (if cancelled then .answered .retryLater else .ready update)
  | .ready update =>
    let admission := h.sys.admissions.length
    { h with sys := h.sys.step (.begin update), posts := h.posts.set i { post with phase := .admitting admission, admission } }
  | .admitting admission =>
    match h.sys.outcome admission with
    | some .admitted => (h.update ingress.id).goto i post .admitted
    | some .unroutable => (h.update ingress.id).goto i post (.answered .ok)
    | some .backpressure => h.goto i post (.answered .retryLater)
    | none => h
  -- Ingest may have stopped while the engine committed.
  | .admitted => h.goto i post (.answered (if cancelled then .retryLater else .ok))
  | .answered _ | .abandoned => h

def step (h : Hooks m IpNet) : Action IpNet → Hooks m IpNet
  | .arrive ingress request => { h with posts := h.posts ++ [{ ingress, request, phase := .head, admission := none }] }
  | .step i =>
    match h.posts[i]? with
    | none => h
    | some post => h.handle c i post
  | .abandon i =>
    match h.posts[i]? with
    | some post => match post.phase with
      | .body => h.goto i post .abandoned
      | _ => h
    | none => h
  | .stop token => { h with stopped := Function.update h.stopped token true }
  | .shutdown => { h with stopped := fun _ => true }
  | .engine action => { h with sys := h.sys.step action }

def run (h : Hooks m IpNet) (actions : List (Action IpNet)) : Hooks m IpNet := actions.foldl (step c) h

end Hooks

end Tgin.Webhook
