import Tgin.Config.Engine

/-! What the routes of a file mean, by the names of their consumers; the rules of a file that loads, compiled for the engine, mean the
    same. -/

namespace Tgin.Config
open Checked Check Raw Rules
open Gateway (Urls)
open Gateway.GatewayPath (standardUrls)

/-! ### What routes mean -/

namespace Raw

def Match.conditions (m : Match) : Predicates where
  updateTypes := m.updateTypes
  chatIds := m.chatIds
  chatTypes := m.chatTypes.map chatType
  userIds := m.userIds
  commands := m.commands.map (·.value)
  text := m.text
  callbackData := m.callbackData

/-- The conditions of a route; without any it is for every update. -/
def Route.conditions (route : Route) : Predicates := route.match'.elim {} Match.conditions

/-- The weights as they are written. -/
def written (weights : Option (At (List (At UInt32)))) : List UInt32 := (weights.map fun ws => ws.value.map (·.value)).getD []

namespace Target

mutual

/-- The consumers a target denotes, with repetitions, and the tickets given out then. -/
def denote : Target → Option Nat → Tickets → List Str × Tickets
  | .consumer name, _, tickets => ([name], tickets)
  | .all children, key, tickets => denoteAll 0 children key tickets
  | .split strategy among weights, key, tickets =>
    let (i, childKey, ticket) := strategy.value.select (written weights) among.length key (tickets [])
    let (names, sub) := denoteNth among i childKey (tickets.child i)
    (names, (tickets.setHead ticket).setChild i sub)

def denoteAll : Nat → List (At Target) → Option Nat → Tickets → List Str × Tickets
  | _, [], _, tickets => ([], tickets)
  | i, { value, .. } :: rest, key, tickets =>
    let (names, sub) := denote value key (tickets.child i)
    let (more, tickets) := denoteAll (i + 1) rest key (tickets.setChild i sub)
    (names ++ more, tickets)

def denoteNth : List (At Target) → Nat → Option Nat → Tickets → List Str × Tickets
  | [], _, _, tickets => ([], tickets)
  | { value, .. } :: _, 0, key, tickets => denote value key tickets
  | _ :: rest, i + 1, key, tickets => denoteNth rest i key tickets

end

end Target

/-- A route's one target, or all of them. -/
def Route.target (route : Route) : Target :=
  match route.to' with
  | [single] => single.value
  | many => .all many

end Raw

section
variable {IpNet : Type}

/-- What is placed with the sources, by its number. -/
def placed {α : Type} (l : List α) (places : List (SourceId × Nat)) : List (SourceId × α) :=
  places.filterMap fun (source, n) => l[n]?.map (Prod.mk source)

/-- The first route of the source's bot whose conditions hold, by its number, and the names of the consumers it goes to, each once. -/
def fileRoute (isMatch : Str → Str → Bool) (raw : RawConfig IpNet) (places : List (SourceId × Nat)) (botUsernames : List (SourceId × Option Str))
    (source : SourceId) (facts : Facts) (tickets : AllTickets) : (Option Nat × List Str) × AllTickets :=
  match (placed raw.bots places).find? (·.1 = source) with
  | none => ((none, []), tickets)
  | some (_, bot) =>
    let hold := fun route : At Route => route.value.conditions.hold isMatch (usernameOf botUsernames source) facts
    match bot.routes.findIdx? hold, bot.routes.find? hold with
    | some i, some route =>
      let (names, sub) := route.value.target.denote facts.orderingKey (tickets source i)
      ((some i, names.eraseDups), Function.update tickets source (Function.update (tickets source) i sub))
    | _, _ => ((none, []), tickets)

end

/-! ### Numbers for names -/

section
variable {consumers : IndexMap (At Raw.Consumer)}

theorem select_splitWeights {strategy : SplitStrategy} {among : Nat} {weights : Option (At (List (At UInt32)))}
    (valid : Weighted strategy among weights) (key : Option Nat) (ticket : Nat) :
    strategy.select (splitWeights strategy among weights) among key ticket = strategy.select (written weights) among key ticket := by
  cases strategy with
  | roundRobin => rfl
  | hashChat => cases key <;> rfl
  | weighted =>
    cases weights with
    | none => exact absurd rfl valid
    | some weights =>
      obtain ⟨-, many, positive⟩ := valid
      have none : ¬(weights.value.map (·.value)).contains 0 = true := by
        rw [List.contains_iff_mem, List.mem_map]
        rintro ⟨weight, mem, zero⟩
        exact positive weight mem zero
      rw [splitWeights]
      dsimp only [Option.map_some, Option.getD_some]
      rw [if_pos ⟨by rw [List.length_map, many], none⟩]
      rfl

/-- A target's specification denotes the numbers of the consumers that the target names. -/
theorem denote_targetSpec (target : Target) : target.Weights → ∀ {key : Option Nat} {tickets : Tickets},
    (targetSpec consumers target).denote key tickets =
      ((target.denote key tickets).1.map (idOf consumers), (target.denote key tickets).2) := by
  induction target using Target.induction with
  | consumer name =>
    intro _ key tickets
    rw [targetSpec_consumer, TargetSpec.denote, Target.denote]
    rfl
  | all children ih =>
    intro valid key tickets
    cases valid with
    | all below =>
      rw [targetSpec, TargetSpec.denote, Target.denote, targetSpecs_eq]
      generalize 0 = i
      induction children generalizing i tickets with
      | nil => rfl
      | cons child children ih' =>
        obtain ⟨ihHere, ihRest⟩ := List.forall_mem_cons.mp ih
        obtain ⟨here, rest⟩ := List.forall_mem_cons.mp below
        rw [List.map_cons, TargetSpec.denoteAll, Target.denoteAll]
        dsimp only
        rw [ihHere here, ih' ihRest rest, List.map_append]
  | split strategy among weights ih =>
    intro valid key tickets
    cases valid with
    | split own below =>
      rw [targetSpec, TargetSpec.denote, Target.denote, targetSpecs_eq, List.length_map, select_splitWeights own]
      generalize strategy.value.select (written weights) among.length key (tickets []) = picked
      obtain ⟨i, childKey, ticket⟩ := picked
      dsimp only
      suffices nth : ∀ n sub, TargetSpec.denoteNth (among.map fun target => targetSpec consumers target.value) n childKey sub =
          ((Target.denoteNth among n childKey sub).1.map (idOf consumers), (Target.denoteNth among n childKey sub).2) by rw [nth]
      clear own
      induction among with
      | nil => exact fun _ _ => rfl
      | cons child among ih' =>
        obtain ⟨ihHere, ihRest⟩ := List.forall_mem_cons.mp ih
        obtain ⟨here, rest⟩ := List.forall_mem_cons.mp below
        intro n sub
        cases n with
        | zero => exact ihHere here
        | succ n => exact ih' ihRest rest n sub

/-- Only what a target names is denoted. -/
theorem denote_names (target : Target) : ∀ {key : Option Nat} {tickets : Tickets}, ∀ name ∈ (target.denote key tickets).1, target.Names name := by
  induction target using Target.induction with
  | consumer name =>
    intro key tickets name' mem
    rw [Target.denote, List.mem_singleton] at mem
    exact mem ▸ .consumer name
  | all children ih =>
    intro key tickets name mem
    rw [Target.denote] at mem
    suffices below : ∀ i tickets, name ∈ (Target.denoteAll i children key tickets).1 → ∃ c ∈ children, c.value.Names name by
      obtain ⟨c, child, names⟩ := below 0 tickets mem
      exact .all child names
    clear mem
    induction children with
    | nil => exact fun i tickets mem => absurd mem List.not_mem_nil
    | cons child children ih' =>
      obtain ⟨ihHere, ihRest⟩ := List.forall_mem_cons.mp ih
      intro i tickets mem
      rw [Target.denoteAll] at mem
      rcases List.mem_append.mp mem with mem | mem
      · exact ⟨child, List.mem_cons_self, ihHere name mem⟩
      · obtain ⟨c, later, names⟩ := ih' ihRest _ _ mem
        exact ⟨c, List.mem_cons_of_mem _ later, names⟩
  | split strategy among weights ih =>
    intro key tickets name mem
    rw [Target.denote] at mem
    generalize strategy.value.select (written weights) among.length key (tickets []) = picked at mem
    obtain ⟨i, childKey, ticket⟩ := picked
    dsimp only at mem
    suffices below : ∀ n sub, name ∈ (Target.denoteNth among n childKey sub).1 → ∃ c ∈ among, c.value.Names name by
      obtain ⟨c, child, names⟩ := below _ _ mem
      exact .split child names
    clear mem
    induction among with
    | nil => exact fun n sub mem => absurd mem List.not_mem_nil
    | cons child among ih' =>
      obtain ⟨ihHere, ihRest⟩ := List.forall_mem_cons.mp ih
      intro n sub mem
      cases n with
      | zero => exact ⟨child, List.mem_cons_self, ihHere name mem⟩
      | succ n =>
        obtain ⟨c, later, names⟩ := ih' ihRest n sub mem
        exact ⟨c, List.mem_cons_of_mem _ later, names⟩

theorem eraseDups_map {α β : Type} [BEq α] [LawfulBEq α] [BEq β] [LawfulBEq β] {f : α → β} :
    ∀ {l : List α}, (∀ a ∈ l, ∀ b ∈ l, f a = f b → a = b) → (l.map f).eraseDups = l.eraseDups.map f
  | [], _ => rfl
  | a :: l, apart => by
    have keeps : (l.map f).filter (fun b => !b == f a) = (l.filter fun b => !b == a).map f := by
      rw [List.filter_map]
      congr 1
      refine List.filter_congr fun b mem => ?_
      have same : (f b == f a) = (b == a) := by
        rw [Bool.eq_iff_iff, beq_iff_eq, beq_iff_eq]
        exact ⟨apart b (List.mem_cons_of_mem _ mem) a List.mem_cons_self, congrArg f⟩
      exact congrArg (!·) same
    have inside {b : α} (mem : b ∈ l.filter fun b => !b == a) : b ∈ a :: l := List.mem_cons_of_mem _ (List.mem_of_mem_filter mem)
    rw [List.map_cons, List.eraseDups_cons, List.eraseDups_cons, keeps, List.map_cons,
      eraseDups_map fun b mem c mem' => apart b (inside mem) c (inside mem')]
  termination_by l => l.length
  decreasing_by exact Nat.lt_succ_of_le (List.length_filter_le ..)

end

/-! ### A loaded file -/

section
variable {u : Urls} {m : Matchers} {IpNet : Type} {w : World u} {raw : RawConfig IpNet} {config : Loaded u IpNet}

/-- The rules of the bots that are placed with the sources. -/
def placedRules (bots : List (Loaded.Bot u IpNet)) (places : List (SourceId × Nat)) : List (SourceId × List RuleSpec) :=
  (placed bots places).map fun (source, bot) => (source, bot.rules)

theorem placed_map {α β : Type} (f : α → β) (l : List α) (places : List (SourceId × Nat)) :
    (placed l places).map (fun (source, a) => (source, f a)) = placed (l.map f) places := by
  unfold placed
  rw [List.map_filterMap]
  refine List.filterMap_congr fun place _ => ?_
  dsimp only
  rw [List.getElem?_map, Option.map_map, Option.map_map]
  rfl

/-- The rule of a valid route: its conditions, and the numbers of what it names. -/
theorem specs_eq {bot : Raw.Bot IpNet} (valid : bot.Valid raw) : specs raw bot =
    bot.routes.map fun route => { predicates := route.value.conditions, targets := targetSpecs raw.consumers route.value.to' } := by
  refine List.map_congr_left fun route mem => ?_
  rw [ruleSpec, RuleSpec.mk.injEq, and_iff_left rfl, Route.conditions]
  have commands := (valid.routes route mem).commands
  cases given : route.value.match' with
  | none => rfl
  | some conditions =>
    rw [Option.elim_some, Option.elim_some, Match.conditions, List.filter_eq_self.mpr (commands conditions given)]

theorem target_eq (route : Route) (conditions : Predicates) :
    ({ predicates := conditions, targets := targetSpecs raw.consumers route.to' } : RuleSpec).target = targetSpec raw.consumers route.target := by
  rw [RuleSpec.target, Route.target, targetSpecs_eq]
  match route.to' with
  | [] => rw [List.map_nil, targetSpec, targetSpecs]
  | [single] => rfl
  | first :: second :: rest => rw [targetSpec, targetSpecs_eq, List.map_cons, List.map_cons]

/-- A route's target is valid as its targets are. -/
theorem target_valid {route : Route} (valid : route.Valid raw.consumers) : route.target.Valid raw.consumers := by
  rw [Route.target]
  split
  · rename_i single only
    exact valid.targets single (only ▸ List.mem_singleton_self single)
  · rename_i many
    refine ⟨?_, .all fun c mem => (valid.targets c mem).weights⟩
    intro name names
    obtain ⟨c, mem, names⟩ := Target.names_all.mp names
    exact (valid.targets c mem).known name names

/-- The answer with the consumers' names for their numbers. -/
def named (config : Loaded u IpNet) (answer : Option Nat × List ConsumerId) : Option Nat × List (Option Str) :=
  (answer.1, answer.2.map fun id => (config.consumers[id.toNat]?).map (·.name))

namespace Loads
variable (h : Loads m w raw config)
include h

theorem placedRules_eq (places : List (SourceId × Nat)) :
    placedRules config.bots places = (placed raw.bots places).map fun (source, bot) => (source, specs raw bot) := by
  rw [placedRules, placed_map (fun bot : Loaded.Bot u IpNet => bot.rules), placed_map (specs raw)]
  congr 1
  refine List.ext_getElem? fun n => ?_
  rw [List.getElem?_map, List.getElem?_map]
  cases at' : config.bots[n]? with
  | none =>
    rw [List.getElem?_eq_none_iff, h.bots_length] at at'
    rw [List.getElem?_eq_none at']
    rfl
  | some bot =>
    obtain ⟨written, there, -, rules⟩ := h.bot_at at'
    rw [there, Option.map_some, Option.map_some, rules]

theorem name_idOf {name : Str} (known : (raw.consumers.getIndexOf name).isSome) :
    (config.consumers[(idOf raw.consumers name).toNat]?).map (·.name) = some name := by
  obtain ⟨n, at'⟩ := Option.isSome_iff_exists.mp known
  obtain ⟨value, there⟩ := IndexMap.getIndexOf_eq_some.mp at'
  rw [idOf_toNat h.few at', ← List.getElem?_map, h.consumer_names, List.getElem?_map, there]
  rfl

/-- The specifications of a file that loads answer with the names that its routes do. -/
theorem interpret_named (isMatch : Str → Str → Bool) (places : List (SourceId × Nat)) (botUsernames : List (SourceId × Option Str))
    (source : SourceId) (facts : Facts) (tickets : AllTickets) :
    let answer := interpret isMatch (placedRules config.bots places) botUsernames source facts tickets
    let meant := fileRoute isMatch raw places botUsernames source facts tickets
    named config answer.1 = (meant.1.1, meant.1.2.map some) ∧ answer.2 = meant.2 := by
  dsimp only
  unfold interpret fileRoute
  rw [h.placedRules_eq, List.find?_map]
  cases found : (placed raw.bots places).find? (·.1 = source) with
  | none =>
    rw [show (placed raw.bots places).find? ((fun entry : SourceId × List RuleSpec => decide (entry.1 = source)) ∘
      fun (source, bot) => (source, specs raw bot)) = none from found]
    exact ⟨rfl, rfl⟩
  | some entry =>
    rw [show (placed raw.bots places).find? ((fun entry : SourceId × List RuleSpec => decide (entry.1 = source)) ∘
      fun (source, bot) => (source, specs raw bot)) = some entry from found]
    obtain ⟨source', bot⟩ := entry
    obtain ⟨place, -, at'⟩ := List.mem_filterMap.mp (List.mem_of_find?_eq_some found)
    obtain ⟨there, at', eq⟩ := Option.map_eq_some_iff.mp at'
    cases eq
    have valid := h.valid.bots bot (List.mem_of_getElem? at')
    dsimp only [Option.map_some]
    rw [specs_eq valid, List.findIdx?_map, List.find?_map]
    dsimp only [Function.comp_def]
    cases index : bot.routes.findIdx? fun route => route.value.conditions.hold isMatch (usernameOf botUsernames source) facts with
    | none => exact ⟨rfl, rfl⟩
    | some i =>
      cases first : bot.routes.find? fun route => route.value.conditions.hold isMatch (usernameOf botUsernames source) facts with
      | none => exact ⟨rfl, rfl⟩
      | some route =>
        have mem := List.mem_of_find?_eq_some first
        have fits := target_valid (valid.routes route mem)
        dsimp only [Option.map_some]
        rw [target_eq, denote_targetSpec _ fits.weights]
        refine ⟨?_, rfl⟩
        have known {name : Str} (denoted : name ∈ (route.value.target.denote facts.orderingKey (tickets source i)).1) :=
          h.name_idOf (fits.known name (denote_names _ name denoted))
        rw [named, eraseDups_map, Prod.mk.injEq, and_iff_right rfl, List.map_map]
        · exact List.map_congr_left fun name mem => known (List.mem_eraseDups.mp mem)
        · intro a memA b memB same
          rw [← Option.some_inj, ← known memA, ← known memB, same]

end Loads

/-- Routes one update through the compiled rules, and names where it goes. -/
def namedStep {tables : RouteTable m → Prop} (config : Loaded u IpNet) (table : RouteTable m) (request : Request tables) (cursors : Cursors) :
    (Option Nat × List (Option Str)) × Cursors :=
  let (answer, cursors) := routeStep table request cursors
  (named config answer, cursors)

/-- Where the file's routes send one update. -/
def fileStep {tables : RouteTable m → Prop} (isMatch : Str → Str → Bool) (raw : RawConfig IpNet) (places : List (SourceId × Nat))
    (botUsernames : List (SourceId × Option Str)) (request : Request tables) (tickets : AllTickets) :
    (Option Nat × List (Option Str)) × AllTickets :=
  let (meant, tickets) := fileRoute isMatch raw places botUsernames request.source request.facts tickets
  ((meant.1, meant.2.map some), tickets)

/-- Over any run of updates, the compiled rules of a file that loads send each to the consumers that the file's routes name, whatever
    numbers the bots are given. -/
theorem load_routes {isMatch : Str → Str → Bool} {owns : m.Regex → m.Cache → Prop} {ruleMessage : RuleError m → Str} {out : Accepted u IpNet}
    (loaded : load w ruleMessage raw = .ok out) (lawful : m.Lawful isMatch owns) {tables : RouteTable m → Prop}
    (token : ∀ t t', tables t → tables t' → t.token = t'.token → t = t') {places : List (SourceId × Nat)}
    {botUsernames : List (SourceId × Option Str)} {address : Nat} {table : RouteTable m}
    (compiled : RouteTable.compile address (placedRules out.config.bots places) botUsernames = .ok table)
    (small : table.nodes.length < 2 ^ 32) (mem : tables table) (requests : List (Request tables)) :
    (Run.run (namedStep out.config table) requests fun _ => 0).1 =
      (Run.run (fileStep isMatch raw places botUsernames) requests AllTickets.zero).1 := by
  obtain ⟨b, compiled⟩ := compile_compiles compiled
  refine (Run.run_simulates (R := Agrees (placedRules out.config.bots places)) (fun request cursors tickets agrees => ?_) requests
    (agrees_zero _)).1
  obtain ⟨answer, after⟩ :=
    route_interpret lawful compiled small (used_fits lawful token request.used mem) agrees request.source request.facts
  obtain ⟨meant, tickets⟩ := (loads_of_ok loaded).1.interpret_named isMatch places botUsernames request.source request.facts
    tickets
  refine ⟨?_, tickets ▸ after⟩
  rw [← answer] at meant
  exact meant

/-- Bot `b` is source 3, bot `a` source 5. -/
def twoPlaces : List (SourceId × Nat) := [(3, 1), (5, 0)]

def twoBotsTable : RouteTable literal where
  sources := [none, none, none, some { rules := [], username := none }, none, some {
    rules := [{ updateTypes := [], chatIds := [], chatTypes := 0, userIds := [], commands := none, text := none, callbackData := none, root := 2 }]
    username := none }]
  nodes := [.consumer 0, .consumer 1, .split .weighted { start := 0, stop := 2 } [1, 0, 1]]
  children := [0, 1]
  textRegex := none
  callbackRegex := none
  token := 0

def anUpdate (source : SourceId) : Request (· = twoBotsTable) where
  source
  facts := default
  scratch := .default
  used := .default

theorem load_routes_twoBots : ∃ out, load hereWorld (fun _ : RuleError literal => []) twoBots = .ok out ∧
    (Run.run (namedStep out.config twoBotsTable) ([5, 3, 5, 5].map anUpdate) fun _ => 0).1 =
      [(some 0, [some (utf8 "jobs")]), (none, []), (some 0, [some (utf8 "hooks")]), (some 0, [some (utf8 "jobs")])] := by
  obtain ⟨out, loaded⟩ := twoBots_loads
  have compiled : RouteTable.compile 0 (placedRules out.config.bots twoPlaces) [] = .ok twoBotsTable := by
    rw [(loads_of_ok loaded).1.placedRules_eq]
    rfl
  have token : ∀ t t' : RouteTable literal, t = twoBotsTable → t' = twoBotsTable → t.token = t'.token → t = t' :=
    fun _ _ h h' _ => h.trans h'.symm
  exact ⟨out, loaded, (load_routes loaded literal_lawful token compiled (by decide) rfl _).trans (by decide +kernel)⟩

end

end Tgin.Config
