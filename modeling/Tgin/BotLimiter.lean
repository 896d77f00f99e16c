import Tgin.Limit

/-! One bot's rate limiter, `tgin-botapi/src/gateway/limit.rs`: the bot-wide quota is a slot calendar, those per
    chat and per group are keyed. `acquire` is given as the steps it takes, each with one operation of one quota
    at most, so that calls can be interleaved. -/

namespace Tgin
open Limit

/-- Telegram's `chat_id`: an integer, or an `@username` without its `@`, lowercased. -/
inductive ChatKey where
  | id (id : Int64)
  | username (username : String)
  deriving DecidableEq, Repr

namespace ChatKey

/-- Only groups, supergroups and channels have negative ids, and only they (and bots) have usernames. -/
def isGroup : ChatKey → Bool
  | .id n => n < 0
  | .username _ => true

/-- A key as its username, if it is one, and its id, for the order of the maps. -/
def parts : ChatKey → Option String × Int64
  | .id n => (none, n)
  | .username name => (some name, 0)

instance : Ord ChatKey := ⟨compareLex (compareOn fun key => key.parts.1) (compareOn fun key => key.parts.2)⟩

instance : Std.TransOrd ChatKey :=
  inferInstanceAs (Std.TransCmp (compareLex (compareOn fun key : ChatKey => key.parts.1) (compareOn fun key => key.parts.2)))

instance : Std.LawfulEqOrd ChatKey where
  eq_of_compare {a b} h := by
    obtain ⟨hname, hid⟩ := Ordering.then_eq_eq.mp h
    replace hname : a.parts.1 = b.parts.1 := Std.LawfulEqOrd.eq_of_compare hname
    replace hid : a.parts.2 = b.parts.2 := Std.LawfulEqOrd.eq_of_compare hid
    cases a <;> cases b <;> simp_all [parts]

end ChatKey

/-! ### The limiter -/

inductive RateMode where
  | shape | reject | off
  deriving DecidableEq, Repr

/-- `count` requests per `per`, after a burst of `burst`. -/
structure Rate where
  count : NonZeroU32
  per : Duration
  burst : NonZeroU32
  deriving DecidableEq, Repr

structure RateLimit where
  mode : RateMode
  maxDelay : Duration
  global : Rate
  perChat : Rate
  perGroup : Rate
  deriving DecidableEq, Repr

/-- The quota that refused or delayed a request. -/
inductive Scope where
  | global | chat | group
  deriving DecidableEq, Repr

structure Limited where
  scope : Scope
  /-- How long until that quota has a slot. -/
  retryAfter : Duration
  deriving DecidableEq, Repr

structure Admitted where
  /-- How long the request waits before it goes. -/
  delay : Duration
  /-- The quota whose booking set `delay`. -/
  scope : Scope
  deriving DecidableEq, Repr

/-- Takes `delay` of `scope` when it is longer than the current one. -/
def Admitted.raise (admitted : Admitted) (scope : Scope) (delay : Duration) : Admitted :=
  if delay > admitted.delay then { delay, scope } else admitted

/-- One quota a request books, with its key. -/
inductive Bucket where
  | global
  | chat (key : ChatKey)
  | group (key : ChatKey)
  deriving DecidableEq, Repr

def Bucket.scope : Bucket → Scope
  | .global => .global
  | .chat _ => .chat
  | .group _ => .group

/-- What undoes a booking. -/
inductive Hold where
  | global (booking : Booking)
  | chat (key : ChatKey) (admission : Admit)
  | group (key : ChatKey) (admission : Admit)
  deriving DecidableEq, Repr

def Hold.bucket : Hold → Bucket
  | .global _ => .global
  | .chat key _ => .chat key
  | .group key _ => .group key

/-- A request's booking on one quota. -/
structure Booked where
  hold : Hold
  /-- When the booked slot starts, from the request's `now`. -/
  delay : Duration
  deriving DecidableEq, Repr

structure BotLimiter where
  mode : RateMode
  /-- Zero in `reject` mode. -/
  maxDelay : Duration
  global : SlotCalendar
  chat : KeyedLimiter ChatKey
  group : KeyedLimiter ChatKey

namespace BotLimiter

/-- The limiter `cfg` describes. Each keyed quota hashes with a seed of its own. -/
def new (cfg : RateLimit) (chatHasher groupHasher : ChatKey → Nat) : Except QuotaError BotLimiter := do
  return {
    mode := cfg.mode
    maxDelay := match cfg.mode with
      | .shape => cfg.maxDelay
      | .reject | .off => 0
    global := ← SlotCalendar.new cfg.global.count cfg.global.per cfg.global.burst
    chat := .new (← Quota.new cfg.perChat.count cfg.perChat.per cfg.perChat.burst) chatHasher
    group := .new (← Quota.new cfg.perGroup.count cfg.perGroup.per cfg.perGroup.burst) groupHasher }

/-- Books one slot of a keyed quota at `source` after `now` or later. -/
def bookKeyed (limiter : KeyedLimiter ChatKey) (scope : Scope) (key : ChatKey) (hold : ChatKey → Admit → Hold)
    (now : Instant) (source maxDelay : Duration) : Except Limited Booked × KeyedLimiter ChatKey :=
  match Instant.checkedAdd now source with
  | none => (.error { scope, retryAfter := Duration.MAX }, limiter)
  | some «at» =>
    match limiter.acquire key «at» (maxDelay - source) with
    | (.ok admission, limiter) =>
      (.ok { delay := Duration.saturatingAdd source admission.delay, hold := hold key admission }, limiter)
    | (.error denied, limiter) =>
      (.error { scope, retryAfter := Duration.saturatingAdd source denied.retryAfter }, limiter)

/-- Books one slot of `bucket` at `source` after `now` or later; the booking's delay counts from `now`. -/
def book (l : BotLimiter) (bucket : Bucket) (now : Instant) (source : Duration) : Except Limited Booked × BotLimiter :=
  match bucket with
  | .global =>
    match l.global.acquire now source l.maxDelay with
    | (.ok booking, global) => (.ok { delay := booking.delay, hold := .global booking }, { l with global })
    | (.error denied, global) => (.error { scope := .global, retryAfter := denied.retryAfter }, { l with global })
  | .chat key =>
    let (result, chat) := bookKeyed l.chat .chat key .chat now source l.maxDelay
    (result, { l with chat })
  | .group key =>
    let (result, group) := bookKeyed l.group .group key .group now source l.maxDelay
    (result, { l with group })

/-- Cancels `booked`. -/
def unbook (l : BotLimiter) (booked : Booked) : BotLimiter :=
  match booked.hold with
  | .global booking => { l with global := l.global.cancel booking }
  | .chat key admission => { l with chat := l.chat.cancel key admission }
  | .group key admission => { l with group := l.group.cancel key admission }

/-! ### A call of `acquire` -/

/-- Where a call stands. -/
inductive Pc where
  /-- Looks at the buckets of `rest` in turn; with none left it has finished a pass. -/
  | visit (rest : List Scope)
  /-- Books `bucket`, then goes on with `rest`. -/
  | book (bucket : Bucket) (rest : List Scope)
  /-- Cancels the bookings of `rest`, then refuses. -/
  | undo (rest : List Scope) (limited : Limited)
  | returned (result : Except Limited Admitted)

structure Call where
  chat : Option ChatKey
  now : Instant
  booked : Scope → Option Booked
  admitted : Admitted
  start : Duration
  pc : Pc

/-- What a step of a call did to a quota: a booking for an instant, made or cancelled. -/
inductive Action where
  | granted (bucket : Bucket) («at» : Instant)
  | cancelled (bucket : Bucket) («at» : Instant)
  deriving DecidableEq, Repr

def scopes : List Scope := [.global, .chat, .group]

/-- The bucket of each scope that applies to a chat. -/
def bucket (chat : Option ChatKey) : Scope → Option Bucket
  | .global => some .global
  | .chat => chat.map .chat
  | .group => (chat.filter (·.isGroup)).map .group

namespace Call

def new (chat : Option ChatKey) (now : Instant) : Call :=
  { chat, now, booked := fun _ => none, admitted := { delay := 0, scope := .global }, start := 0, pc := .visit scopes }

/-- One step of the call: what becomes of it and of the limiter, and the booking made or cancelled. -/
def step (call : Call) (l : BotLimiter) : Call × BotLimiter × Option Action :=
  match call.pc with
  | .visit [] =>
    if call.admitted.delay = call.start then ({ call with pc := .returned (.ok call.admitted) }, l, none)
    else ({ call with start := call.admitted.delay, pc := .visit scopes }, l, none)
  | .visit (scope :: rest) =>
    match BotLimiter.bucket call.chat scope, call.booked scope with
    | none, _ => ({ call with pc := .visit rest }, l, none)
    | some bucket, none => ({ call with pc := .book bucket rest }, l, none)
    | some bucket, some early =>
      if early.delay ≥ call.start then ({ call with pc := .visit rest }, l, none)
      else
        ({ call with booked := Function.update call.booked scope none, pc := .book bucket rest }, l.unbook early,
          some (.cancelled early.hold.bucket (call.now + early.delay)))
  | .book bucket rest =>
    match l.book bucket call.now call.start with
    | (.ok booking, l) =>
      ({ call with
          admitted := call.admitted.raise bucket.scope booking.delay
          booked := Function.update call.booked bucket.scope (some booking)
          pc := .visit rest },
        l, some (.granted bucket (call.now + booking.delay)))
    | (.error limited, l) => ({ call with pc := .undo scopes.reverse limited }, l, none)
  | .undo [] limited => ({ call with pc := .returned (.error limited) }, l, none)
  | .undo (scope :: rest) limited =>
    match call.booked scope with
    | none => ({ call with pc := .undo rest limited }, l, none)
    | some booked =>
      ({ call with booked := Function.update call.booked scope none, pc := .undo rest limited }, l.unbook booked,
        some (.cancelled booked.hold.bucket (call.now + booked.delay)))
  | .returned _ => (call, l, none)

end Call

/-! ### Any number of calls -/

/-- The limiter, the calls of it so far by the order of their arrival, and what each did. -/
structure System where
  limiter : BotLimiter
  calls : List Call
  log : List (Nat × Action)

inductive Step where
  /-- A call starts, and reads its clock. -/
  | arrive (chat : Option ChatKey) (now : Instant)
  /-- The call of that number takes a step. -/
  | advance (call : Nat)
  deriving DecidableEq, Repr

namespace System

def new (limiter : BotLimiter) : System := { limiter, calls := [], log := [] }

def step (step : Step) (s : System) : System :=
  match step with
  | .arrive chat now => { s with calls := s.calls ++ [.new chat now] }
  | .advance id =>
    match s.calls[id]? with
    | none => s
    | some call =>
      let (call, limiter, action) := call.step s.limiter
      { limiter, calls := s.calls.set id call, log := s.log ++ (action.map (id, ·)).toList }

def run (s : System) (steps : List Step) : System := steps.foldl (fun s step => s.step step) s

end System

end BotLimiter

end Tgin
