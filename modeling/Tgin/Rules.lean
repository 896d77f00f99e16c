import Tgin.Time

/-! The rules engine of `tgin-core/src/rules/`: rule specs compile into a route table, which routes the facts of
    an update to consumers.

    A `str` is the list of its UTF-8 bytes. A hash set is a list, of which only membership and emptiness are
    asked. The split cursors, atomics inside the nodes, are kept by node index and passed along, as the scratch
    is; a `fetch_add` gives the value it finds. The crates `aho-corasick` and `regex-automata` are a parameter. -/

namespace Tgin.Rules

abbrev Str := List UInt8

namespace Str

/-- `str::strip_prefix` of one ASCII character, or the `str` itself. -/
def stripPrefix (c : UInt8) : Str → Str
  | [] => []
  | b :: rest => if b = c then rest else b :: rest

def toAsciiLowercase (s : Str) : Str := s.map fun b => if 65 ≤ b ∧ b ≤ 90 then b + 32 else b

def eqIgnoreAsciiCase (a b : Str) : Bool := a.toAsciiLowercase = b.toAsciiLowercase

end Str

/-- `@`. -/
abbrev atSign : UInt8 := 64

/-- `/`. -/
abbrev slash : UInt8 := 47

/-- The engine's id of a bot's source. -/
abbrev SourceId := UInt16

/-- Index of a downstream consumer within one config generation. -/
abbrev ConsumerId := UInt16

/-! ### Facts and specs -/

inductive ChatType where
  | privateChat | group | supergroup | channel | other
  deriving DecidableEq, Repr

/-- One bit per variant, for compiled chat-type sets. -/
def ChatType.bit (t : ChatType) : UInt8 := 1 <<< UInt8.ofNat t.ctorIdx

/-- The routing-relevant facts extracted from one update. -/
structure Facts where
  updateType : Str
  chatId : Option Int64
  chatType : Option ChatType
  userId : Option Int64
  text : Option Str
  callbackData : Option Str
  /-- A leading bot command: the name without `/`, and the `@bot` suffix without `@` if present. -/
  command : Option (Str × Option Str)
  deriving DecidableEq, Repr

instance : Inhabited Facts where
  default := {
    updateType := [], chatId := none, chatType := none, userId := none, text := none, callbackData := none,
    command := none }

/-- The ordering key: `chatId`, else `userId`, as a `u64`. -/
def Facts.orderingKey (facts : Facts) : Option Nat := (facts.chatId.or facts.userId).map (·.toUInt64.toNat)

/-- How a text field is matched. -/
inductive TextMatch where
  /-- Starts with any of these (case-sensitive). -/
  | prefixes (list : List Str)
  /-- Any of these regexes matches somewhere in the text. -/
  | regex (list : List Str)
  /-- Equals any of these exactly. -/
  | equals (list : List Str)
  deriving DecidableEq, Repr

def TextMatch.list : TextMatch → List Str
  | .prefixes list | .regex list | .equals list => list

/-- Rule predicates. Values within a list are ORed, fields are ANDed; an empty list (or `none`) matches
    anything. -/
structure Predicates where
  updateTypes : List Str := []
  chatIds : List Int64 := []
  chatTypes : List ChatType := []
  userIds : List Int64 := []
  commands : List Str := []
  text : Option TextMatch := none
  callbackData : Option TextMatch := none
  deriving DecidableEq, Repr

inductive SplitStrategy where
  | roundRobin
  /-- Sticky by `Facts.orderingKey`; round robin without a key. -/
  | hashChat
  /-- Smooth weighted round robin. -/
  | weighted
  deriving DecidableEq, Repr

/-- Where a matching update goes. -/
inductive TargetSpec where
  | consumer (id : ConsumerId)
  /-- Every child receives the update. -/
  | all (children : List TargetSpec)
  /-- Exactly one child receives the update. -/
  | split (strategy : SplitStrategy) (among : List TargetSpec) (weights : List UInt32)

structure RuleSpec where
  predicates : Predicates
  targets : List TargetSpec

/-! ### Matching crates -/

/-- `regex_automata::PatternSet`. -/
structure PatternSet where
  which : List Bool
  deriving DecidableEq, Repr

namespace PatternSet

def new (capacity : Nat) : PatternSet := { which := List.replicate capacity false }

def clear (set : PatternSet) : PatternSet := { which := set.which.map fun _ => false }

def contains (set : PatternSet) (id : Nat) : Bool := set.which[id]?.getD false

end PatternSet

/-- The largest `PatternID`. -/
abbrev PatternID.MAX : Nat := 2 ^ 31 - 2

/-- What the rules use of `aho-corasick` and `regex-automata`. -/
structure Matchers where
  AhoCorasick : Type
  AutomatonError : Type
  Regex : Type
  RegexError : Type
  Cache : Type
  /-- An automaton that looks for the longest pattern at the start of a text; the flag ignores ASCII case. -/
  anchoredAutomaton : List Str → Bool → Except AutomatonError AhoCorasick
  /-- The end of the match found. -/
  find : AhoCorasick → Str → Option Nat
  /-- `Regex::new`. -/
  newRegex : Str → Except RegexError Regex
  /-- `build_many` with `MatchKind::All`. -/
  buildMany : List Str → Except RegexError Regex
  patternLen : Regex → Nat
  createCache : Regex → Cache
  /-- Adds the patterns that match in the text to the set, which it does not clear. -/
  whichOverlappingMatches : Regex → Cache → Str → PatternSet → Cache × PatternSet

variable (m : Matchers)

/-- What is wrong with one rule. -/
inductive InvalidRule where
  | noTargets
  | emptyGroup
  | invalidCommand (command : Str)
  | emptyTextMatch
  | regex (pattern : Str) (error : m.RegexError)
  | automaton (error : m.AutomatonError)
  | weightCount (weights children : Nat)
  | unexpectedWeights
  | zeroTotalWeight
  | weightPeriodTooLarge (period : Nat)

/-- Why a rule set failed to compile. -/
inductive RuleError where
  | duplicateSource (id : SourceId)
  | invalid (sourceId : SourceId) (rule : Nat) (reason : InvalidRule m)
  | regexSet (error : m.RegexError)

/-! ### Compiled tables -/

/-- A `Range<u32>`. -/
structure Range where
  start : Nat
  stop : Nat
  deriving DecidableEq, Repr

/-- The elements of `list` in the range, or none where it does not lie inside. -/
def Range.slice {α : Type} (range : Range) (list : List α) : List α :=
  if range.start ≤ range.stop ∧ range.stop ≤ list.length then (list.drop range.start).take (range.stop - range.start)
  else []

inductive TextMatcher where
  | prefixes (automaton : m.AhoCorasick)
  /-- Pattern ids in the field's combined regex. -/
  | regex (ids : Range)
  | equals (set : List Str)

inductive Node where
  | consumer (id : ConsumerId)
  | all (children : Range)
  /-- For `weighted`, `schedule` is one period of the smooth weighted round robin sequence, as child positions;
      else it is empty. -/
  | split (strategy : SplitStrategy) (children : Range) (schedule : List Nat)
  deriving DecidableEq, Repr

structure CompiledRule where
  updateTypes : List Str
  chatIds : List Int64
  /-- Bitmask of `ChatType.bit`; 0 = any. -/
  chatTypes : UInt8
  userIds : List Int64
  commands : Option m.AhoCorasick
  text : Option (TextMatcher m)
  callbackData : Option (TextMatcher m)
  root : Nat

structure SourceRules where
  rules : List (CompiledRule m)
  /-- The bot username without `@`, for `/cmd@bot` commands. -/
  username : Option Str

/-- Compiled routing rules for one config generation. -/
structure RouteTable where
  /-- Indexed by the source id. -/
  sources : List (Option (SourceRules m))
  nodes : List Node
  /-- Child node indices of `all` and `split` nodes, as contiguous ranges. -/
  children : List Nat
  textRegex : Option m.Regex
  callbackRegex : Option m.Regex
  /-- Identity of this table, the address of its token. -/
  token : Nat

/-! ### Compiling -/

variable {m}

/-- The longest weighted-split schedule (sum of weights divided by their gcd). -/
abbrev MAX_WEIGHT_PERIOD : Nat := 2 ^ 16

/-- Converts a length to a `u32` index. -/
def index (len : Nat) : Nat := min len (2 ^ 32 - 1)

/-- The loop over the weights in one round: raises the current values, then picks the first of the largest. -/
def raiseAndPick (reduced current : List Int) : Nat × List Int :=
  (List.range reduced.length).foldl
    (fun (pick, current) i =>
      let current := current.modify i (· + reduced.getD i 0)
      (if current.getD i 0 > current.getD pick 0 then i else pick, current))
    (0, current)

/-- The rounds of `smoothWrrSchedule`. -/
def wrrRounds (reduced : List Int) (total : Int) : Nat → List Int → List Nat → List Nat
  | 0, _, schedule => schedule
  | rounds + 1, current, schedule =>
    let (pick, current) := raiseAndPick reduced current
    wrrRounds reduced total rounds (current.modify pick (· - total)) (schedule ++ [index pick])

/-- One period of smooth weighted round robin. Weights are reduced by their gcd first. -/
def smoothWrrSchedule (weights : List UInt32) : Except (InvalidRule m) (List Nat) :=
  let g := weights.foldl (fun g w => g.gcd w.toNat) 0
  if g = 0 then .error .zeroTotalWeight
  else
    let reduced := weights.map fun w => ((w.toNat / g : Nat) : Int)
    -- An `i64` sum that wraps, then read as a `u64`.
    let period := (reduced.sum % (wordSize : Int)).toNat
    if period > MAX_WEIGHT_PERIOD then .error (.weightPeriodTooLarge period)
    else .ok (wrrRounds reduced period period (List.replicate reduced.length 0) [])

/-- Which text field a matcher belongs to. -/
inductive Field where
  | text | callback
  deriving DecidableEq, Repr

structure Builder where
  nodes : List Node
  children : List Nat
  textPatterns : List Str
  callbackPatterns : List Str
  deriving DecidableEq, Repr

namespace Builder

def empty : Builder := { nodes := [], children := [], textPatterns := [], callbackPatterns := [] }

def patterns (b : Builder) : Field → List Str
  | .text => b.textPatterns
  | .callback => b.callbackPatterns

def extendPatterns (b : Builder) (field : Field) (list : List Str) : Builder :=
  match field with
  | .text => { b with textPatterns := b.textPatterns ++ list }
  | .callback => { b with callbackPatterns := b.callbackPatterns ++ list }

def push (b : Builder) (node : Node) : Nat × Builder :=
  let b := { b with nodes := b.nodes ++ [node] }
  (index (b.nodes.length - 1), b)

/-- Stores the indices of compiled children contiguously. -/
def extendChildren (b : Builder) (ids : List Nat) : Range × Builder :=
  let start := index b.children.length
  let b := { b with children := b.children ++ ids }
  ({ start, stop := index b.children.length }, b)

/-- The schedule of a split over `children` children. -/
def splitSchedule (strategy : SplitStrategy) (children : Nat) (weights : List UInt32) :
    Except (InvalidRule m) (List Nat) :=
  match strategy with
  | .weighted =>
    if weights.length ≠ children then .error (.weightCount weights.length children) else smoothWrrSchedule weights
  | .roundRobin | .hashChat => if weights.isEmpty then .ok [] else .error .unexpectedWeights

mutual

def target : TargetSpec → Builder → Except (InvalidRule m) (Nat × Builder)
  | .consumer id, b => .ok (b.push (.consumer id))
  | .all children, b => do
    if children.isEmpty then throw .emptyGroup
    let (ids, b) ← targets children b
    let (range, b) := b.extendChildren ids
    .ok (b.push (.all range))
  | .split strategy among weights, b => do
    if among.isEmpty then throw .emptyGroup
    let schedule ← splitSchedule strategy among.length weights
    let (ids, b) ← targets among b
    let (range, b) := b.extendChildren ids
    .ok (b.push (.split strategy range schedule))

/-- The children of a group, compiled first. -/
def targets : List TargetSpec → Builder → Except (InvalidRule m) (List Nat × Builder)
  | [], b => .ok ([], b)
  | spec :: specs, b => do
    let (id, b) ← target spec b
    let (ids, b) ← targets specs b
    .ok (id :: ids, b)

end

def automaton (patterns : List Str) (caseInsensitive : Bool) : Except (InvalidRule m) m.AhoCorasick :=
  (m.anchoredAutomaton patterns caseInsensitive).mapError .automaton

/-- The names of a rule's commands. -/
def commandNames : List Str → Except (InvalidRule m) (List Str)
  | [] => .ok []
  | cmd :: cmds => do
    let name := cmd.stripPrefix slash
    if name.isEmpty || name.contains atSign then throw (.invalidCommand cmd)
    let names ← commandNames cmds
    .ok (name :: names)

def commands (cmds : List Str) : Except (InvalidRule m) (Option m.AhoCorasick) :=
  if cmds.isEmpty then .ok none
  else do
    let names ← commandNames cmds
    let ac ← automaton names true
    .ok (some ac)

/-- Validates each pattern alone. -/
def validatePatterns : List Str → Except (InvalidRule m) Unit
  | [] => .ok ()
  | pattern :: list => do
    let _ ← (m.newRegex pattern).mapError (.regex pattern)
    validatePatterns list

def textMatcher (b : Builder) (field : Field) (tm : TextMatch) : Except (InvalidRule m) (TextMatcher m × Builder) := do
  if tm.list.isEmpty then throw .emptyTextMatch
  match tm with
  | .prefixes list =>
    let ac ← automaton list false
    .ok (.prefixes ac, b)
  | .equals list => .ok (.equals list, b)
  | .regex list =>
    validatePatterns list
    let start := index (b.patterns field).length
    let b := b.extendPatterns field list
    .ok (.regex { start, stop := index (b.patterns field).length }, b)

/-- `Option::map` by `textMatcher`, then `transpose`. -/
def optTextMatcher (b : Builder) (field : Field) :
    Option TextMatch → Except (InvalidRule m) (Option (TextMatcher m) × Builder)
  | none => .ok (none, b)
  | some tm => do
    let (matcher, b) ← b.textMatcher field tm
    .ok (some matcher, b)

/-- The root of a rule's targets. -/
def root (specs : List TargetSpec) (b : Builder) : Except (InvalidRule m) (Nat × Builder) :=
  match specs with
  | [] => .error .noTargets
  | [single] => target single b
  | many => do
    let (ids, b) ← targets many b
    let (range, b) := b.extendChildren ids
    .ok (b.push (.all range))

def rule (b : Builder) (spec : RuleSpec) : Except (InvalidRule m) (CompiledRule m × Builder) := do
  let p := spec.predicates
  let commands ← commands p.commands
  let (text, b) ← b.optTextMatcher .text p.text
  let (callbackData, b) ← b.optTextMatcher .callback p.callbackData
  let (root, b) ← root spec.targets b
  .ok ({
    updateTypes := p.updateTypes, chatIds := p.chatIds, chatTypes := p.chatTypes.foldl (· ||| ·.bit) 0,
    userIds := p.userIds, commands, text, callbackData, root }, b)

/-- The rules of one source, from number `i` on. -/
def rules (id : SourceId) : Nat → List RuleSpec → Builder → Except (RuleError m) (List (CompiledRule m) × Builder)
  | _, [], b => .ok ([], b)
  | i, spec :: specs, b => do
    let (compiled, b) ← (b.rule spec).mapError (.invalid id i)
    let (rest, b) ← rules id (i + 1) specs b
    .ok (compiled :: rest, b)

/-- The loop of `compile` over the sources. -/
def sources (botUsernames : List (SourceId × Option Str)) :
    List (SourceId × List RuleSpec) → List (Option (SourceRules m)) → Builder →
      Except (RuleError m) (List (Option (SourceRules m)) × Builder)
  | [], sources, b => .ok (sources, b)
  | (id, specs) :: rest, compiled, b => do
    let idx := id.toNat
    let compiled := compiled ++ List.replicate (idx + 1 - compiled.length) none
    if (compiled[idx]?.getD none).isSome then throw (.duplicateSource id)
    let username := (botUsernames.find? (·.1 = id)).bind (·.2) |>.map (·.stripPrefix atSign)
    let (rules, b) ← rules id 0 specs b
    sources botUsernames rest (compiled.set idx (some { rules, username })) b

end Builder

/-- One regex over every pattern of a field. -/
def combined (patterns : List Str) : Except (RuleError m) (Option m.Regex) :=
  if patterns.isEmpty then .ok none
  else ((m.buildMany patterns).map some).mapError .regexSet

/-- Compiles the rules of every source. `botUsernames` gives each source's bot username, with or without `@`. -/
def RouteTable.compile (token : Nat) (rules : List (SourceId × List RuleSpec))
    (botUsernames : List (SourceId × Option Str)) : Except (RuleError m) (RouteTable m) := do
  let (sources, b) ← Builder.sources botUsernames rules [] Builder.empty
  let textRegex ← combined b.textPatterns
  let callbackRegex ← combined b.callbackPatterns
  .ok { sources, nodes := b.nodes, children := b.children, textRegex, callbackRegex, token }

/-! ### Routing -/

/-- What the split cursors hold, by node index. -/
abbrev Cursors := Nat → Nat

variable (m) in
structure RegexScratch where
  cache : m.Cache
  set : PatternSet
  /-- Whether `set` holds the result for the current update. -/
  done : Bool

def RegexScratch.new (re : m.Regex) : RegexScratch m :=
  { cache := m.createCache re, set := .new (m.patternLen re), done := false }

variable (m) in
/-- Reusable state for regex matching. -/
structure MatchScratch where
  owner : Option Nat
  text : Option (RegexScratch m)
  callback : Option (RegexScratch m)

namespace MatchScratch

def default : MatchScratch m := { owner := none, text := none, callback := none }

def prepare (scratch : MatchScratch m) (table : RouteTable m) : MatchScratch m :=
  let scratch :=
    if scratch.owner = some table.token then scratch
    else {
      owner := some table.token, text := table.textRegex.map .new, callback := table.callbackRegex.map .new }
  { scratch with
    text := scratch.text.map ({ · with done := false }), callback := scratch.callback.map ({ · with done := false }) }

end MatchScratch

/-- A command matches when its name equals one of the rule's and any `@bot` suffix names the source's bot. -/
def commandMatches (ac : m.AhoCorasick) (username : Option Str) (command : Option (Str × Option Str)) : Bool :=
  match command with
  | none => false
  | some (name, bot) =>
    if bot.any fun bot => !(username.any (·.eqIgnoreAsciiCase bot)) then false
    else (m.find ac name).any (· = name.length)

/-- One overlapping search per field and update, shared by all rules. -/
def RegexScratch.search (s : RegexScratch m) (re : m.Regex) (text : Str) : RegexScratch m :=
  if s.done then s
  else
    let (cache, set) := m.whichOverlappingMatches re s.cache text s.set.clear
    { cache, set, done := true }

def textMatches (tm : TextMatcher m) (text : Option Str) (regex : Option m.Regex) (scratch : Option (RegexScratch m)) :
    Bool × Option (RegexScratch m) :=
  match text with
  | none => (false, scratch)
  | some text =>
    match tm with
    | .prefixes ac => ((m.find ac text).isSome, scratch)
    | .equals set => (set.contains text, scratch)
    | .regex ids =>
      match regex, scratch with
      | some re, some s =>
        let s := s.search re text
        ((List.range' ids.start (ids.stop - ids.start)).any fun id => id ≤ PatternID.MAX && s.set.contains id, some s)
      | _, _ => (false, scratch)

/-- `Option::is_none_or` by `textMatches`. -/
def optTextMatches (tm : Option (TextMatcher m)) (text : Option Str) (regex : Option m.Regex)
    (scratch : Option (RegexScratch m)) : Bool × Option (RegexScratch m) :=
  match tm with
  | none => (true, scratch)
  | some tm => textMatches tm text regex scratch

/-- What a split picks among `len` children when its cursor is at `cursor`: the position, the key for the child,
    and where the cursor is then. A hash split consumes the key in mixed radix. -/
def pickChild (strategy : SplitStrategy) (schedule : List Nat) (len : Nat) (key : Option Nat) (cursor : Nat) :
    Nat × Option Nat × Nat :=
  match strategy, key with
  | .hashChat, some key => (key % len, some (key / len), cursor)
  | .weighted, _ =>
    (if schedule.isEmpty then cursor % len else schedule.getD (cursor % schedule.length) 0, key, wrappingAdd cursor 1)
  | _, _ => (cursor % len, key, wrappingAdd cursor 1)

namespace RouteTable
variable (table : RouteTable m)

def matchesRule (source : SourceRules m) (rule : CompiledRule m) (facts : Facts) (scratch : MatchScratch m) :
    Bool × MatchScratch m :=
  if (rule.updateTypes.isEmpty || rule.updateTypes.contains facts.updateType)
      && (rule.chatIds.isEmpty || facts.chatId.any rule.chatIds.contains)
      && (rule.chatTypes = 0 || facts.chatType.any fun t => rule.chatTypes &&& t.bit ≠ 0)
      && (rule.userIds.isEmpty || facts.userId.any rule.userIds.contains)
      && rule.commands.all fun ac => commandMatches ac source.username facts.command then
    let (text, scratchText) := optTextMatches rule.text facts.text table.textRegex scratch.text
    let scratch := { scratch with text := scratchText }
    if text then
      let (callback, scratchCallback) :=
        optTextMatches rule.callbackData facts.callbackData table.callbackRegex scratch.callback
      (callback, { scratch with callback := scratchCallback })
    else (false, scratch)
  else (false, scratch)

/-- The position of the first rule that matches. -/
def position (source : SourceRules m) (facts : Facts) : List (CompiledRule m) → MatchScratch m → Option Nat × MatchScratch m
  | [], scratch => (none, scratch)
  | rule :: rules, scratch =>
    let (hit, scratch) := table.matchesRule source rule facts scratch
    if hit then (some 0, scratch)
    else
      let (rest, scratch) := position source facts rules scratch
      (rest.map (· + 1), scratch)

def childSlice (range : Range) : List Nat := range.slice table.children

/-- Writes the consumers a node gives to `out`, each once. The fuel bounds the depth of the node. -/
def walk : Nat → Nat → Option Nat → List ConsumerId × Cursors → List ConsumerId × Cursors
  | 0, _, _, state => state
  | fuel + 1, node, key, (out, cursors) =>
    match table.nodes[node]? with
    | none => (out, cursors)
    | some (.consumer id) => (if out.contains id then out else out ++ [id], cursors)
    | some (.all children) => (table.childSlice children).foldl (fun state child => walk fuel child key state) (out, cursors)
    | some (.split strategy children schedule) =>
      let children := table.childSlice children
      if children.isEmpty then (out, cursors)
      else
        let (pick, childKey, cursor) := pickChild strategy schedule children.length key (cursors node)
        let cursors := Function.update cursors node cursor
        match children[pick]? with
        | none => (out, cursors)
        | some child => walk fuel child childKey (out, cursors)

/-- Routes one update: the index of the first matching rule of `source`, or `none` when no rule matches, and the
    deduplicated consumers of its targets. -/
def route (source : SourceId) (facts : Facts) (cursors : Cursors) (scratch : MatchScratch m) :
    (Option Nat × List ConsumerId) × Cursors × MatchScratch m :=
  match table.sources[source.toNat]?.getD none with
  | none => ((none, []), cursors, scratch)
  | some rules =>
    match table.position rules facts rules.rules (scratch.prepare table) with
    | (none, scratch) => ((none, []), cursors, scratch)
    | (some index, scratch) =>
      match rules.rules[index]? with
      | none => ((none, []), cursors, scratch)
      | some rule =>
        let (out, cursors) := table.walk table.nodes.length rule.root facts.orderingKey ([], cursors)
        ((some index, out), cursors, scratch)

end RouteTable

end Tgin.Rules
