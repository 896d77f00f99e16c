import Tgin.BotLimiter
import Tgin.Gateway.Gate
import Tgin.LocalFiles.Params
import Tgin.Parking

/-! The bots the gateway serves (`tgin-botapi/src/gateway/mod.rs`): their entries, and how a reload replaces them while calls in
    flight keep the old ones. What entries share is in numbered cells. The metrics of a bot are their labels. -/

namespace Tgin.Gateway
open Rules
open LocalFiles (fromUtf8)
open Parking (UpstreamKind)

/-! ### What the entries are made of -/

/-- The `url` crate. A URL is its serialization. -/
structure Urls where
  Url : Type
  decEq : DecidableEq Url
  scheme : Url → Str
  hostStr : Url → Option Str
  cannotBeABase : Url → Bool
  setQuery : Url → Option Str → Url
  setFragment : Url → Option Str → Url
  path : Url → Str
  setPath : Url → Str → Url
  /-- Takes an empty last segment off the path. -/
  popIfEmpty : Url → Url
  /-- Appends a segment to the path. -/
  push : Url → Str → Url

instance (u : Urls) : DecidableEq u.Url := u.decEq

variable {u : Urls}

abbrev slash : UInt8 := 47
abbrev dot : UInt8 := 46

/-- A path on Unix. -/
structure Path where
  bytes : Str
  deriving DecidableEq, Repr

inductive Component where
  | rootDir
  /-- A `.` that the path starts with. -/
  | curDir
  | parentDir
  | normal (name : Str)
  deriving DecidableEq, Repr

namespace Path

/-- The components: repeated and trailing separators are left out, and so is every `.` that does not start the path. -/
def components (path : Path) : List Component :=
  let parts := path.bytes.splitOn slash
  let rest := parts.filterMap fun part =>
    if part = [] ∨ part = [dot] then none else if part = [dot, dot] then some .parentDir else some (.normal part)
  if path.bytes.head? = some slash then .rootDir :: rest else if parts.head? = some [dot] then .curDir :: rest else rest

/-- How the standard library compares paths. -/
def beq (path other : Path) : Bool := path.components = other.components

/-- The path as text; `none` if it is not UTF-8. -/
def toStr (path : Path) : Option Str := fromUtf8 path.bytes

end Path

variable (u) in
/-- Where a local server's files are. -/
inductive Files where
  | dir (dir serverDir : Path)
  | url (url : u.Url)

def Files.beq : Files u → Files u → Bool
  | .dir root serverDir, .dir root' serverDir' => root.beq root' && serverDir.beq serverDir'
  | .url base, .url base' => base = base'
  | _, _ => false

variable (u) in
/-- A Bot API server. -/
structure Upstream where
  name : Str
  kind : UpstreamKind
  url : u.Url
  localMode : Bool
  files : Option (Files u)
  responseTimeout : Duration

namespace Upstream

/-- The name of a bot's `api_url` shorthand: `api_url`. -/
def SHORTHAND : Str := [97, 112, 105, 95, 117, 114, 108]

/-- `api.telegram.org`. -/
def TELEGRAM_CLOUD_HOST : Str := [97, 112, 105, 46, 116, 101, 108, 101, 103, 114, 97, 109, 46, 111, 114, 103]

def beq (upstream other : Upstream u) : Bool :=
  upstream.name = other.name && upstream.kind = other.kind && upstream.url = other.url && upstream.localMode = other.localMode &&
    (match upstream.files, other.files with
      | none, none => true
      | some files, some files' => files.beq files'
      | _, _ => false) &&
    upstream.responseTimeout = other.responseTimeout

/-- Whether this is Telegram's own Bot API, over `https`. -/
def isTelegramCloud (upstream : Upstream u) : Bool :=
  u.scheme upstream.url = [104, 116, 116, 112, 115] && (u.hostStr upstream.url).any (Str.eqIgnoreAsciiCase · TELEGRAM_CLOUD_HOST)

/-- Whether a bot's `file:` references are refused. -/
def refusesLocalFiles (upstream : Upstream u) (allowLocalFiles : Bool) : Bool :=
  !allowLocalFiles && (upstream.kind = .local || !upstream.isTelegramCloud)

/-- Whether `other` is the same Bot API server. -/
def sameServer (upstream other : Upstream u) : Bool := upstream.name = other.name && upstream.url = other.url

end Upstream

/-- A bot's `rate_limit` section. -/
structure Limits where
  /-- ASCII-lowercased method names and `prefix*` globs. -/
  methods : List Str
  rates : RateLimit
  deriving DecidableEq, Repr

/-- A bot's `gateway` section. -/
structure Settings where
  upstreamIdleTimeout : Duration
  rateLimit : Limits
  retry429MaxWait : Duration
  deriving DecidableEq, Repr

variable (u) in
/-- A configured bot as the gateway serves it. -/
structure GatewayBot where
  name : Str
  source : SourceId
  token : Str
  upstream : Upstream u
  allowLocalFiles : Bool
  gateway : Settings

/-- A set of methods: their names, and prefixes. -/
structure MethodSet where
  exact : List Str
  prefixes : List Str
  deriving DecidableEq, Repr

def MethodSet.new (patterns : List Str) : MethodSet :=
  patterns.foldl (fun set pattern =>
    let pattern := pattern.toAsciiLowercase
    if pattern.getLast? = some 42 then { set with prefixes := set.prefixes ++ [pattern.dropLast] }
    else { set with exact := set.exact ++ [pattern] }) { exact := [], prefixes := [] }

/-- A bot's limiter. -/
structure Limiter where
  methods : MethodSet
  quotas : BotLimiter

/-- The limiter `cfg` describes. Its keyed quotas hash with the two seeds. -/
def Limiter.new (cfg : Limits) (seeds : (ChatKey → Nat) × (ChatKey → Nat)) : Except Limit.QuotaError Limiter := do
  return { methods := .new cfg.methods, quotas := ← BotLimiter.new cfg.rates seeds.1 seeds.2 }

/-- What `getMe` returned for a bot. -/
structure Identity where
  id : Int64
  username : Option Str
  raw : Str
  deriving DecidableEq, Repr

/-! ### The entries -/

/-- `apiUrl` with `segments` and a trailing slash appended to its path; query and fragment dropped. -/
def base (apiUrl : u.Url) (segments : List Str) : Option u.Url :=
  let url := u.setFragment (u.setQuery apiUrl none) none
  if u.cannotBeABase url then none else some (u.push (segments.foldl u.push (u.popIfEmpty url)) [])

/-- Whether a byte of a token in a URL path is percent-encoded: all but letters, digits, `-`, `_`, `.` and `~`. -/
def TOKEN_SEGMENT (b : UInt8) : Bool :=
  !(48 ≤ b && b ≤ 57 || 65 ≤ b && b ≤ 90 || 97 ≤ b && b ≤ 122 || b = 45 || b = 95 || b = 46 || b = 126)

def hexDigit (n : UInt8) : UInt8 := if n < 10 then 48 + n else 55 + n

def percentEncode (text : Str) (set : UInt8 → Bool) : Str :=
  text.flatMap fun b => if set b then [37, hexDigit (b >>> 4), hexDigit (b &&& 15)] else [b]

/-- `{files.url}/{token}/`, the token percent-encoded; query and fragment dropped. -/
def originBase (filesUrl : u.Url) (token : Str) : Option u.Url :=
  if u.cannotBeABase filesUrl then none
  else
    let url := u.setFragment (u.setQuery filesUrl none) none
    let path := u.path url
    let path := if path.getLast? = some slash then path else path ++ [slash]
    some (u.setPath url (path ++ percentEncode token TOKEN_SEGMENT ++ [slash]))

variable (u) in
/-- Where a bot's `/file/bot<token>/<rel>` route goes. -/
inductive FileTarget where
  | proxy (url : u.Url)
  | origin (url : u.Url)
  | disk (root : Path)
  | notServed

/-- `bot{token}`. -/
def botSegment (token : Str) : Str := [98, 111, 116] ++ token

/-- The file route of a bot with `token` on `upstream`; `none` for a URL that cannot be a base. -/
def FileTarget.new (upstream : Upstream u) (token : Str) : Option (FileTarget u) :=
  match upstream.files with
  | none => if upstream.kind = .cloud then (base upstream.url [[102, 105, 108, 101], botSegment token]).map .proxy else some .notServed
  | some (.dir dir _) => some (.disk dir)
  | some (.url url) => (originBase url token).map .origin

def FileTarget.beq : FileTarget u → FileTarget u → Bool
  | .proxy url, .proxy url' => url = url'
  | .origin url, .origin url' => url = url'
  | .disk root, .disk root' => root.beq root'
  | .notServed, .notServed => true
  | _, _ => false

/-- Which local-mode `getFile` paths are the bot's own. -/
inductive Rewrite where
  | off
  /-- Those under the server's directory, by its text. -/
  | under (root : Str)
  | atBotDir
  deriving DecidableEq, Repr

/-- The rewrite of local-mode `getFile` answers from `upstream`. -/
def Rewrite.new (upstream : Upstream u) : Rewrite :=
  if !upstream.localMode then .off
  else
    match upstream.files with
    | none => .off
    | some (.url _) => .atBotDir
    | some (.dir _ serverDir) =>
      match serverDir.toStr with
      | some root => .under root
      | none => .off

variable (u) in
/-- One bot's entry. `limiter`, `identity` and `gate` are cells that it shares with other entries. -/
structure Bot where
  name : Str
  source : SourceId
  token : Str
  upstream : Upstream u
  gateway : Settings
  methodBase : u.Url
  files : FileTarget u
  rewrite : Rewrite
  refusesLocalFiles : Bool
  responseTimeout : Duration
  via : Str
  /-- The bot its metrics are of. -/
  metrics : Str
  /-- The bot and the upstream that the metrics of its upstream are of. -/
  upstreamMetrics : Str × Str
  limiter : Nat
  identity : Nat
  gate : Nat

namespace Bot

def new (bot : GatewayBot u) (via metrics : Str) (upstreamMetrics : Str × Str) (identity limiter gate : Nat) : Option (Bot u) := do
  let methodBase ← base bot.upstream.url [botSegment bot.token]
  let files ← FileTarget.new bot.upstream bot.token
  return {
    name := bot.name
    source := bot.source
    token := bot.token
    upstream := bot.upstream
    gateway := bot.gateway
    methodBase
    files
    rewrite := .new bot.upstream
    refusesLocalFiles := bot.upstream.refusesLocalFiles bot.allowLocalFiles
    responseTimeout :=
      if bot.upstream.name = Upstream.SHORTHAND then bot.gateway.upstreamIdleTimeout else bot.upstream.responseTimeout
    via
    metrics
    upstreamMetrics
    limiter
    identity
    gate }

/-- Whether `bot` describes this entry unchanged. -/
def same (entry : Bot u) (bot : GatewayBot u) : Bool :=
  entry.token = bot.token && entry.upstream.beq bot.upstream &&
    entry.refusesLocalFiles = bot.upstream.refusesLocalFiles bot.allowLocalFiles && entry.gateway = bot.gateway &&
    entry.source = bot.source

end Bot

/-! ### The table -/

/-- What the entries share, each cell by its number. -/
structure Cells where
  gates : Nat → Gate
  limiters : Nat → Option Limiter
  identities : Nat → Option Identity
  /-- The numbers below it are in use. -/
  allocated : Nat
  /-- The seeds of the limiters made. -/
  seeds : Nat → (ChatKey → Nat) × (ChatKey → Nat)

/-- Where a call is in `Gate::enter`, or after it. -/
inductive Phase where
  /-- It is not being sent. -/
  | outside
  /-- It has counted itself and not read the flag yet. -/
  | announced
  /-- It read that the bot is parked and still counts. -/
  | refused
  /-- It holds its `Sending`. -/
  | sending
  deriving DecidableEq, Repr

variable (u) in
/-- A call in flight holds the entry that its bot had when it came. -/
structure Call where
  bot : Bot u
  phase : Phase

variable (u) in
structure System where
  via : Str
  table : List (Bot u)
  cells : Cells
  calls : List (Call u)

variable (u) in
inductive Event where
  | setBots (bots : List (GatewayBot u))
  | setParked (name : Str) (parked : Bool)
  | setIdentity (name : Str) (identity : Identity)
  /-- A call comes for a bot. -/
  | arrive (name : Str)
  /-- A call counts itself, to be sent. -/
  | announce (call : Nat)
  | readParked (call : Nat)
  /-- A refused call, or one whose answer has begun or that failed, takes itself off the count. It may be sent again. -/
  | leave (call : Nat)
  /-- Bookings of a call on the limiter it holds, or a sweep. -/
  | limit (limiter : Nat) (change : Limiter → Limiter)
  /-- A call that was answered by `getMe` stores the identity. -/
  | identify (cell : Nat) (identity : Identity)

namespace System

/-- A gateway serving no bot. -/
def new (u : Urls) (via : Str) (seeds : Nat → (ChatKey → Nat) × (ChatKey → Nat)) : System u where
  via := via
  table := []
  cells := { gates := fun _ => .new, limiters := fun _ => none, identities := fun _ => none, allocated := 0, seeds }
  calls := []

def named (s : System u) (name : Str) : Option (Bot u) := s.table.find? (·.name = name)

/-- The identity a bot keeps: the previous entry's, if that had the bot's token. -/
def keptIdentity (previous : Option (Bot u)) (bot : GatewayBot u) : Option Nat :=
  (previous.filter (·.token = bot.token)).map (·.identity)

/-- The limiter it keeps, if the rate limits are the same too. -/
def keptLimiter (previous : Option (Bot u)) (bot : GatewayBot u) : Option Nat :=
  ((previous.filter (·.token = bot.token)).filter (·.gateway.rateLimit = bot.gateway.rateLimit)).map (·.limiter)

/-- That limiter or a new one, with the limiters there are then; `none` for invalid rates. -/
def limiterOf (cells : Cells) (previous : Option (Bot u)) (bot : GatewayBot u) : Option (Nat × (Nat → Option Limiter)) :=
  match keptLimiter previous bot with
  | some limiter => some (limiter, cells.limiters)
  | none =>
    match Limiter.new bot.gateway.rateLimit (cells.seeds cells.allocated) with
    | .ok limiter => some (cells.allocated, Function.update cells.limiters cells.allocated (some limiter))
    | .error _ => none

/-- A bot's new entry, after its previous one; `none` where the gateway does not serve it. -/
def rebuild (via : Str) (cells : Cells) (previous : Option (Bot u)) (bot : GatewayBot u) : Option (Bot u) × Cells :=
  let fresh := cells.allocated
  let metrics := (previous.map (·.metrics)).getD bot.name
  let identity := (keptIdentity previous bot).getD fresh
  let gate := (previous.map (·.gate)).getD fresh
  match limiterOf cells previous bot with
  | none => (none, cells)
  | some (limiter, limiters) =>
    let upstreamMetrics :=
      ((previous.filter (·.upstream.sameServer bot.upstream)).map (·.upstreamMetrics)).getD (bot.name, bot.upstream.name)
    (Bot.new bot via metrics upstreamMetrics identity limiter gate,
      { cells with
        gates := Function.update cells.gates fresh .new
        limiters
        identities := Function.update cells.identities fresh none
        allocated := fresh + 1 })

/-- Adds a bot's entry to those of the bots before it. -/
def addBot (s : System u) (draft : List (Bot u) × Cells) (bot : GatewayBot u) : List (Bot u) × Cells :=
  match (s.named bot.name).filter (·.same bot) with
  | some previous => (draft.1 ++ [previous], draft.2)
  | none =>
    let (entry, cells) := rebuild s.via draft.2 (s.named bot.name) bot
    (draft.1 ++ entry.toList, cells)

/-- Replaces the table. -/
def setBots (s : System u) (bots : List (GatewayBot u)) : System u :=
  let (table, cells) := bots.foldl s.addBot ([], s.cells)
  { s with table, cells }

def modifyGate (s : System u) (gate : Nat) (change : Gate → Gate) : System u :=
  { s with cells := { s.cells with gates := Function.update s.cells.gates gate (change (s.cells.gates gate)) } }

/-- Parks a bot, or ends its parking. -/
def setParked (s : System u) (name : Str) (parked : Bool) : System u :=
  match s.named name with
  | none => s
  | some entry => s.modifyGate entry.gate (·.setParked parked)

/-- How many calls of a bot are being sent. -/
def sending (s : System u) (name : Str) : Nat :=
  match s.named name with
  | none => 0
  | some entry => (s.cells.gates entry.gate).sending

def identify (s : System u) (cell : Nat) (identity : Identity) : System u :=
  { s with cells := { s.cells with identities := Function.update s.cells.identities cell (some identity) } }

/-- Records the identity `getMe` returned for a bot. -/
def setIdentity (s : System u) (name : Str) (identity : Identity) : System u :=
  match s.named name with
  | none => s
  | some entry => s.identify entry.identity identity

/-- A step that is not due does not happen. -/
def step (s : System u) : Event u → System u
  | .setBots bots => s.setBots bots
  | .setParked name parked => s.setParked name parked
  | .setIdentity name identity => s.setIdentity name identity
  | .arrive name =>
    match s.named name with
    | none => s
    | some bot => { s with calls := s.calls ++ [{ bot, phase := .outside }] }
  | .announce i =>
    match s.calls[i]? with
    | some ⟨bot, .outside⟩ => { s.modifyGate bot.gate (·.announce) with calls := s.calls.set i ⟨bot, .announced⟩ }
    | _ => s
  | .readParked i =>
    match s.calls[i]? with
    | some ⟨bot, .announced⟩ =>
      { s with calls := s.calls.set i ⟨bot, if (s.cells.gates bot.gate).isParked then .refused else .sending⟩ }
    | _ => s
  | .leave i =>
    match s.calls[i]? with
    | some ⟨bot, .refused⟩ | some ⟨bot, .sending⟩ =>
      { s.modifyGate bot.gate (·.leave) with calls := s.calls.set i ⟨bot, .outside⟩ }
    | _ => s
  | .limit limiter change =>
    { s with cells := { s.cells with
      limiters := Function.update s.cells.limiters limiter ((s.cells.limiters limiter).map change) } }
  | .identify cell identity => s.identify cell identity

def run (s : System u) (events : List (Event u)) : System u := events.foldl step s

end System

end Tgin.Gateway
