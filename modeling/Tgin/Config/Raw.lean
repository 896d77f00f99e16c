import Tgin.Gateway.Bots
import Tgin.IpAddr
import Tgin.Lib.Split
import Tgin.Lib.Whitespace

/-! `tgin.yaml` as it is written, `tgin-core/src/config/model.rs`, with the defaults of `defaults.rs` filled in by the reader. A text
    is its UTF-8 bytes, but for a duration's, whose characters are asked for. -/

namespace Tgin.Config.Raw
open Rules
open Gateway (Urls)
open Parking (UpstreamKind)

/-- Where something was written. -/
structure Location where
  line : Nat
  column : Nat
  deriving DecidableEq, Repr

/-- The place of a value that was not written in the document. -/
def Location.UNKNOWN : Location := { line := 0, column := 0 }

/-- A value and where it was written. -/
structure At (α : Type) where
  value : α
  location : Location
  deriving DecidableEq, Repr

/-- A value that was not written in the document, such as a default. -/
def At.new {α : Type} (value : α) : At α := { value, location := .UNKNOWN }

/-- A secret as written, before `${env:…}` and `${file:…}` are expanded. -/
abbrev SecretText := At Str

/-- A URL or path as written. -/
abbrev Template := At Str

/-- A map that keeps the order of the document. -/
structure IndexMap (α : Type) where
  entries : List (Str × α)
  keys : (entries.map (·.1)).Nodup

namespace IndexMap
variable {α : Type}

def get (map : IndexMap α) (key : Str) : Option α := (map.entries.find? (·.1 = key)).map (·.2)

def getIndexOf (map : IndexMap α) (key : Str) : Option Nat := map.entries.findIdx? (·.1 = key)

theorem isSome_get {map : IndexMap α} {key : Str} : (map.get key).isSome ↔ key ∈ map.entries.map (·.1) := by
  simp [get]

end IndexMap

/-! ### Durations -/

/-- A duration such as `30s`, `5m` or `1h 30m`, with its text. -/
structure HumanDuration where
  value : Duration
  text : List Char
  deriving DecidableEq, Repr

/-- The month and year units. -/
def CALENDAR_UNITS : List (List Char) :=
  ["M", "month", "months", "y", "year", "years", "yr", "yrs"].map (·.toList)

namespace HumanDuration

/-- The month or year unit the text uses, if any. -/
def calendarUnit (duration : HumanDuration) : Option (List Char) :=
  (duration.text.splitOnP fun c => c.isDigit || Utf8.isWhitespace c).find? (CALENDAR_UNITS.contains ·)

def asStr (duration : HumanDuration) : Str := Utf8.encode duration.text

end HumanDuration

/-! ### Sections -/

/-- An address to listen on. -/
structure SocketAddr where
  ip : IpAddr
  port : Nat
  /-- Of an IPv6 address. -/
  scopeId : Nat := 0
  deriving DecidableEq, Repr

/-- A number in decimal. -/
def number (n : Nat) : Str := Utf8.encode (toString n).toList

/-- `IpAddr::is_loopback`. -/
def isLoopback : IpAddr → Bool
  | .v4 addr => addr >>> 24 = 127
  | .v6 addr => addr = 1

/-- The longest run of zeros, the first of them, as where it starts and its length. -/
def longestZeros (segments : List Nat) : Nat × Nat :=
  (segments.zipIdx.foldl (fun (state : (Nat × Nat) × (Nat × Nat)) (segment, i) =>
    let (longest, current) := state
    if segment = 0 then
      let current := (if current.2 = 0 then i else current.1, current.2 + 1)
      (if longest.2 < current.2 then current else longest, current)
    else (longest, (0, 0))) ((0, 0), (0, 0))).1

def displayV4 (addr : BitVec 32) : Str :=
  List.intercalate [46] ([24, 16, 8, 0].map fun shift => number ((addr >>> shift).toNat % 256))

/-- `Display` of an address. -/
def display : IpAddr → Str
  | .v4 addr => displayV4 addr
  | .v6 addr =>
    if addr >>> 32 = 0xffff then Utf8.encode "::ffff:".toList ++ displayV4 (addr.setWidth 32)
    else
      let segments := [112, 96, 80, 64, 48, 32, 16, 0].map fun shift => (addr >>> shift).toNat % 65536
      let (start, length) := longestZeros segments
      let shown (part : List Nat) : Str := List.intercalate [58] (part.map fun segment => Utf8.encode (Nat.toDigits 16 segment))
      if 1 < length then shown (segments.take start) ++ [58, 58] ++ shown (segments.drop (start + length)) else shown segments

/-- `Display` of a socket address. -/
def SocketAddr.display (addr : SocketAddr) : Str :=
  match addr.ip with
  | .v4 _ => Raw.display addr.ip ++ 58 :: number addr.port
  | .v6 _ => 91 :: Raw.display addr.ip ++ (if addr.scopeId = 0 then [] else 37 :: number addr.scopeId) ++ [93, 58] ++ number addr.port

inductive WorkerThreads where
  /-- One per CPU. -/
  | auto
  | count (n : Nat) (positive : 0 < n)
  deriving DecidableEq, Repr

structure Runtime where
  workerThreads : WorkerThreads
  lameDuck : At HumanDuration
  shutdownGrace : At HumanDuration

inductive LogLevel where
  | trace | debug | info | warn | error
  deriving DecidableEq, Repr

inductive LogFormat where
  | text | json
  deriving DecidableEq, Repr

structure Log where
  level : LogLevel
  format : LogFormat
  deriving DecidableEq, Repr

structure Tls where
  certFile : Template
  keyFile : Template

section
variable (IpNet : Type)

structure Server where
  listen : List (At SocketAddr)
  tls : Option Tls
  trustedProxies : List IpNet
  maxConnections : At Nat
  headerReadTimeout : At HumanDuration

structure Admin where
  listen : List (At SocketAddr)
  token : Option SecretText
  publicMetrics : Bool

structure Reload where
  watch : Bool
  debounce : At HumanDuration
  drainTimeout : At HumanDuration

/-- Where a local server's files are: `dir` with `serverDir`, or `url`. -/
structure Files where
  dir : Option Template
  serverDir : Option Template
  url : Option Template

structure Upstream where
  kind : At UpstreamKind
  url : Template
  localMode : At Bool
  files : Option (At Files)
  responseTimeout : Option (At HumanDuration)

structure LongPoll where
  timeout : At HumanDuration
  limit : At UInt32
  allowedUpdates : Option (List Str)
  deleteWebhookOnStart : Bool

inductive WebhookSecret where
  /-- Derived from the bot token. -/
  | auto
  /-- Telegram sends no secret and none is checked. -/
  | none
  | secret (secret : SecretText)

inductive IpAllowlist where
  /-- Any client may post. -/
  | none
  /-- Telegram's published webhook networks. -/
  | telegram
  | networks (networks : List IpNet)
  deriving DecidableEq

/-- Whether it is `telegram`. -/
def IpAllowlist.isTelegram {IpNet : Type} : IpAllowlist IpNet → Bool
  | .telegram => true
  | _ => false

structure Webhook where
  path : Option Template
  publicUrl : Option Template
  register : At Bool
  secretToken : WebhookSecret
  allowedUpdates : Option (List Str)
  maxConnections : Option (At UInt32)
  dropPendingUpdates : Bool
  ipAddress : Option IpAddr
  certificateFile : Option Template
  ipAllowlist : At (IpAllowlist IpNet)

inductive Ingress where
  | longPoll (poll : LongPoll)
  | webhook (hook : Webhook IpNet)

/-- The fields of any rate block. -/
structure Rate where
  count : At UInt32
  per : At HumanDuration
  burst : At UInt32

structure RateLimit where
  mode : RateMode
  maxDelay : At HumanDuration
  methods : At (List (At Str))
  global : Rate
  perChat : Rate
  perGroup : Rate

structure Retry429 where
  maxWait : At HumanDuration

structure Gateway where
  upstreamIdleTimeout : At HumanDuration
  rateLimit : RateLimit
  retry429 : Retry429

inductive ChatType where
  | privateChat | group | supergroup | channel
  deriving DecidableEq, Repr

/-- Rule predicates. -/
structure Match where
  updateTypes : List Str := []
  chatIds : List Int64 := []
  chatTypes : List ChatType := []
  userIds : List Int64 := []
  commands : List (At Str) := []
  text : Option TextMatch := none
  callbackData : Option TextMatch := none

/-- Whether every update satisfies these predicates. -/
def Match.isEmpty (m : Match) : Bool :=
  m.updateTypes.isEmpty && m.chatIds.isEmpty && m.chatTypes.isEmpty && m.userIds.isEmpty && m.commands.isEmpty &&
    m.text.isNone && m.callbackData.isNone

/-- A route target. -/
inductive Target where
  | consumer (name : Str)
  /-- Exactly one child of `among` receives the update. -/
  | split (strategy : At SplitStrategy) (among : List (At Target)) (weights : Option (At (List (At UInt32))))
  /-- Every child receives the update. -/
  | all (children : List (At Target))

structure Route where
  /-- Omitted, the rule matches every update. -/
  match' : Option Match
  to' : List (At Target)

structure Bot where
  name : At Str
  token : SecretText
  apiUrl : Option Template
  upstream : Option (At Str)
  allowLocalFiles : Bool
  ingress : Option (At (Ingress IpNet))
  gateway : Gateway
  routes : List (At Route)

structure Pull where
  capacity : At Nat
  capacityBytes : At Nat
  onFull : Queue.OnFull
  leaseTimeout : At HumanDuration
  ordering : Queue.Ordering
  authToken : Option SecretText
  aliases : List Template
  honorDropPending : Bool

structure Endpoint where
  url : Template
  secretToken : Option SecretText
  timeout : At HumanDuration

structure Retry where
  initial : At HumanDuration
  max : At HumanDuration
  maxAttempts : At UInt32
  maxAge : At HumanDuration

structure Breaker where
  failureThreshold : At UInt32
  openFor : At HumanDuration

structure Push where
  endpoints : At (List Endpoint)
  balance : Balance
  maxInFlight : At Nat
  ordering : Queue.Ordering
  capacity : At Nat
  capacityBytes : At Nat
  onFull : Queue.OnFull
  retry : Retry
  breaker : Breaker
  acceptSetWebhook : Bool
  webhookReply : WebhookReply
  honorDropPending : Bool

inductive Consumer where
  | pull (pull : Pull)
  | push (push : Push)

/-- The configuration file, version 1. -/
structure RawConfig where
  version : At UInt32
  runtime : Runtime
  log : Log
  server : Option (Server IpNet)
  admin : Admin
  reload : Reload
  upstreams : IndexMap (At Upstream)
  bots : List (Bot IpNet)
  consumers : IndexMap (At Consumer)

end

end Tgin.Config.Raw
