import Tgin.Admission.System
import Tgin.Rules.Shares

/-! What a split gives its children in a run: their shares of the attempts that come to it, admitted or refused. -/

namespace Tgin.Engine
open Queue Rules

variable {m : Matchers}

/-- What an attempt of an admission picks as it is routed, on the table with the address `token`. -/
structure Routing where
  admission : Nat
  token : Nat
  picks : List Pick

/-- The child that the split at a table's node gives the update to, if the attempt comes to that split. -/
def Routing.child (token node : Nat) (r : Routing) : Option Nat :=
  if r.token = token then (r.picks.find? (·.node = node)).map (·.child) else none

/-- The table an admission is about to route on. -/
def Pc.table : Pc m → Option (RouteTable m)
  | .route state => some state.table
  | _ => none

namespace System

/-- The attempt that an action routes. -/
def routing (sys : System m) : Action → Option Routing
  | .step i _ =>
    match sys.admissions[i]? with
    | none => none
    | some a =>
      match a.pc with
      | .route state =>
        let token := state.table.token
        let scratch := sys.world.scratch.getLast?.getD .default
        let picks := state.table.picks a.update.source a.update.facts (sys.world.cursors token) scratch
        some { admission := i, token, picks }
      | _ => none
  | _ => none

/-- The attempts of a run, in the order in which they are routed. -/
def routings (sys : System m) : List Action → List Routing
  | [] => []
  | action :: actions => (sys.routing action).toList ++ (sys.step action).routings actions

/-! ### The tables in use -/

/-- The tables that updates are or will be routed on. -/
def tables (sys : System m) : List (RouteTable m) :=
  sys.world.shared.state.table :: sys.admissions.filterMap fun a => a.pc.table

/-- Tables in use, and some others, are told apart by their addresses. -/
structure Tokens (known : List (RouteTable m)) (sys : System m) : Prop where
  below : ∀ t ∈ known ++ sys.tables, t.token < sys.world.shared.tables
  one : ∀ t ∈ known ++ sys.tables, ∀ t' ∈ known ++ sys.tables, t.token = t'.token → t = t'

end System

theorem compile_token {token : Nat} {rules : List (SourceId × List RuleSpec)} {botUsernames : List (SourceId × Option Str)}
    {table : RouteTable m} (h : RouteTable.compile token rules botUsernames = .ok table) : table.token = token := by
  rw [RouteTable.compile] at h
  obtain ⟨_, -, h⟩ := bind_eq_ok.mp h
  obtain ⟨_, -, h⟩ := bind_eq_ok.mp h
  obtain ⟨_, -, h⟩ := bind_eq_ok.mp h
  cases h
  rfl

theorem Plan.build_token {cfg : Config} {old : Option (EngineState m)} {retired : List Nat} {slots slots' : Nat → Slot}
    {allocated allocated' token : Nat} {state : EngineState m} {changes : Changes}
    (h : Plan.build cfg old retired slots allocated token = .ok (state, changes, slots', allocated')) :
    state.table.token = token := by
  unfold Plan.build at h
  obtain ⟨_, -, h⟩ := bind_eq_ok.mp h
  obtain ⟨table, compiled, h⟩ := bind_eq_ok.mp h
  cases h
  exact compile_token (mapError_eq_ok.mp compiled)

theorem Shared.new_table {cfg : Config} {tokenKeys : Str → Nat} {engine : Shared m}
    (made : Shared.new cfg tokenKeys = .ok engine) : engine.state.table.token = 0 ∧ engine.tables = 1 := by
  unfold Shared.new at made
  obtain ⟨⟨state, changes, slots, allocated⟩, hbuild, made⟩ := bind_eq_ok.mp made
  cases made
  refine ⟨?_, (Shared.keeps_commit _ none changes).tables⟩
  rw [Shared.commit, Shared.changeInstances_state]
  exact Plan.build_token hbuild

/-- An engine that goes on with its table, or with a new one. -/
inductive Shared.Retables (shared shared' : Shared m) : Prop
  | kept (table : shared'.state.table = shared.state.table) (tables : shared'.tables = shared.tables)
  | compiled (token : shared'.state.table.token = shared.tables) (tables : shared'.tables = shared.tables + 1)

namespace Shared

theorem apply_retables (shared : Shared m) (new : Config) : shared.Retables (shared.control (.apply new)) := by
  rcases shared.apply_cases new with ⟨error, happly⟩ | ⟨state, changes, slots, allocated, hbuild, happly⟩ <;>
    simp only [control, happly]
  · exact .kept rfl rfl
  · exact .compiled (Plan.build_token hbuild) (keeps_commit _ (some state) changes).tables

theorem setUsername_retables (shared : Shared m) (source : SourceId) (username : Option Str) :
    shared.Retables (shared.setUsername source username) := by
  unfold setUsername
  dsimp only
  split
  · exact .kept rfl rfl
  · split
    · exact .kept rfl rfl
    · split
      · exact .kept rfl rfl
      · rename_i compiled
        exact .compiled (compile_token compiled) rfl

theorem setRuntimeEndpoint_retables (shared : Shared m) (consumer : Str) (source : SourceId) (token : Str)
    (endpoint : Option (Str × Option Str)) : shared.Retables (shared.setRuntimeEndpoint consumer source token endpoint).2 := by
  rcases shared.setRuntimeEndpoint_cases consumer source token endpoint with h | ⟨target, -, -, -, -, h⟩ <;> rw [h] <;>
    exact .kept rfl rfl

end Shared

namespace System

theorem control_retables (sys : System m) (control : Control) :
    sys.world.shared.Retables (sys.control control).world.shared ∧ (sys.control control).admissions = sys.admissions ∧
      (sys.control control).world.cursors = sys.world.cursors := by
  cases control with
  | apply new => exact ⟨Shared.apply_retables .., rfl, rfl⟩
  | setRuntimeEndpoint consumer source token endpoint => exact ⟨Shared.setRuntimeEndpoint_retables .., rfl, rfl⟩
  | setUsername source username => exact ⟨Shared.setUsername_retables .., rfl, rfl⟩
  | retire slot drain =>
    simp only [control]
    split
    · split
      · exact ⟨.kept rfl rfl, rfl, rfl⟩
      · rename_i closed hclose
        obtain ⟨-, -, rfl⟩ := Shared.close_eq_some hclose
        exact ⟨.kept rfl rfl, rfl, rfl⟩
    · exact ⟨.kept rfl rfl, rfl, rfl⟩

end System

/-- An admission takes the current table, and moves no counter except by routing. -/
theorem Admission.step_table (a : Admission m) (clock : Instant) (world : World m) :
    (∀ t ∈ (a.step clock world).1.pc.table, t = world.shared.state.table) ∧
      (a.pc.table = none → (a.step clock world).2.cursors = world.cursors) ∧
      (a.step clock world).2.shared.state = world.shared.state ∧ (a.step clock world).2.shared.tables = world.shared.tables := by
  obtain ⟨slots, hs⟩ := a.step_shared clock world
  rw [hs]
  refine ⟨?_, ?_, rfl, rfl⟩
  · intro t ht
    have next := a.step_next clock world
    generalize a.pc = pc, (a.step clock world).1.pc = pc' at next ht
    cases next with
    | load => exact (Option.some.inj ht).symm
    | _ => cases ht
  · intro none
    have next := a.step_world clock world
    generalize (a.step clock world).2 = world' at next ⊢
    cases next with
    | routed update route =>
      rw [route] at none
      cases none
    | _ => rfl

namespace System

theorem Tokens.subset {known : List (RouteTable m)} {sys sys' : System m} (h : Tokens known sys)
    (sub : ∀ t ∈ sys'.tables, t ∈ sys.tables) (tables : sys'.world.shared.tables = sys.world.shared.tables) : Tokens known sys' := by
  have mem (t : RouteTable m) (ht : t ∈ known ++ sys'.tables) : t ∈ known ++ sys.tables :=
    List.mem_append.mpr ((List.mem_append.mp ht).imp_right (sub t))
  exact ⟨fun t ht => tables ▸ h.below t (mem t ht), fun t ht t' ht' => h.one t (mem t ht) t' (mem t' ht')⟩

/-- A table that was just compiled has an address of its own. -/
theorem Tokens.add {known : List (RouteTable m)} {sys sys' : System m} (h : Tokens known sys) {table : RouteTable m}
    (sub : ∀ t ∈ sys'.tables, t = table ∨ t ∈ sys.tables) (token : table.token = sys.world.shared.tables)
    (tables : sys'.world.shared.tables = sys.world.shared.tables + 1) : Tokens known sys' := by
  have mem (t : RouteTable m) (ht : t ∈ known ++ sys'.tables) : t = table ∨ t ∈ known ++ sys.tables := by
    rcases List.mem_append.mp ht with ht | ht
    · exact .inr (List.mem_append_left _ ht)
    · exact (sub t ht).imp_right (List.mem_append_right _)
  refine ⟨fun t ht => ?_, fun t ht t' ht' same => ?_⟩
  · rw [tables]
    rcases mem t ht with rfl | ht
    · exact Nat.lt_succ_of_le (Nat.le_of_eq token)
    · exact Nat.lt_succ_of_lt (h.below t ht)
  · rcases mem t ht with rfl | ht <;> rcases mem t' ht' with rfl | ht'
    · rfl
    · exact absurd (same.symm.trans token) (Nat.ne_of_lt (h.below t' ht'))
    · exact absurd (same.trans token) (Nat.ne_of_lt (h.below t ht))
    · exact h.one t ht t' ht' same

theorem tokens_act {known : List (RouteTable m)} {sys : System m} (h : Tokens known sys) (action : Action) :
    Tokens known (sys.act action) := by
  have same {sys' : System m} (admissions : sys'.admissions = sys.admissions) (table : sys'.world.shared.state.table = sys.world.shared.state.table) :
      ∀ t ∈ sys'.tables, t ∈ sys.tables := fun t ht => by rwa [tables, admissions, table] at ht
  cases action with
  | begin update =>
    refine h.subset (fun t ht => ?_) rfl
    rcases List.mem_cons.mp ht with rfl | ht
    · exact List.mem_cons_self
    · obtain ⟨a, ha, hat⟩ := List.mem_filterMap.mp ht
      rcases List.mem_append.mp ha with ha | ha
      · exact List.mem_cons_of_mem _ (List.mem_filterMap.mpr ⟨a, ha, hat⟩)
      · obtain rfl := List.mem_singleton.mp ha
        cases hat
  | step i clock =>
    simp only [act]
    split
    · exact h
    · rename_i a _
      obtain ⟨loaded, -, state, tables⟩ := a.step_table clock sys.world
      refine h.subset (fun t ht => ?_) tables
      rcases List.mem_cons.mp ht with rfl | ht
      · exact state ▸ List.mem_cons_self
      · obtain ⟨b, hb, hbt⟩ := List.mem_filterMap.mp ht
        rcases List.mem_or_eq_of_mem_set hb with hb | rfl
        · exact List.mem_cons_of_mem _ (List.mem_filterMap.mpr ⟨b, hb, hbt⟩)
        · exact loaded t hbt ▸ List.mem_cons_self
  | control control =>
    obtain ⟨retables, admissions, -⟩ := sys.control_retables control
    cases retables with
    | kept table tables => exact h.subset (same admissions table) tables
    | compiled token tables =>
      refine h.add (fun t ht => ?_) token tables
      rcases List.mem_cons.mp ht with rfl | ht
      · exact .inl rfl
      · exact .inr (List.mem_cons_of_mem _ (admissions ▸ ht))
  | drain slot =>
    simp only [act]
    split
    · exact h.subset (same rfl rfl) rfl
    · exact h
  | consume slot op =>
    simp only [act]
    split
    · exact h.subset (same rfl rfl) rfl
    · exact h

theorem tokens_step {known : List (RouteTable m)} {sys : System m} (h : Tokens known sys) (action : Action) :
    Tokens known (sys.step action) :=
  have h := tokens_act h action
  ⟨h.below, h.one⟩

theorem tokens_run {known : List (RouteTable m)} {sys : System m} (h : Tokens known sys) (actions : List Action) :
    Tokens known (sys.run actions) := by
  induction actions generalizing sys with
  | nil => exact h
  | cons action actions ih => exact ih (tokens_step h action)

theorem tokens_new {cfg : Config} {tokenKeys : Str → Nat} {engine : Shared m}
    (made : Shared.new cfg tokenKeys = .ok engine) : Tokens [] (new engine) := by
  obtain ⟨token, tables⟩ := Shared.new_table made
  refine ⟨fun t ht => ?_, fun t ht t' ht' _ => ?_⟩
  · obtain rfl := List.mem_singleton.mp ht
    exact Nat.lt_of_lt_of_eq (token ▸ Nat.zero_lt_one) tables.symm
  · exact (List.mem_singleton.mp ht).trans (List.mem_singleton.mp ht').symm

/-! ### Shares -/

section
variable {isMatch : Str → Str → Bool} {owns : m.Regex → m.Cache → Prop} (lawful : m.Lawful isMatch owns)
  {rules : List (SourceId × List RuleSpec)} {botUsernames : List (SourceId × Option Str)} {b : Builder}
  {table : RouteTable m} (compiled : TableCompiles rules botUsernames b table) (small : table.nodes.length < 2 ^ 32)
  {split : Split} (mem : SplitOf rules split) (turn : split.strategy ≠ .hashChat)

include lawful compiled small mem turn

/-- An attempt that comes to a split moves the split's counter, and nothing else does. -/
theorem step_ticks {sys : System m} (tokens : Tokens [table] sys) (action : Action) :
    Ticks split.next (sys.world.cursors table.token split.node)
      ((sys.routing action).toList.filterMap (·.child table.token split.node))
      ((sys.step action).world.cursors table.token split.node) := by
  cases action with
  | begin update => exact rfl
  | control control => exact congrFun (congrFun (sys.control_retables control).2.2 _) _
  | drain slot =>
    change (sys.act (.drain slot)).world.cursors table.token split.node = _
    simp only [act]
    split <;> rfl
  | consume slot op =>
    change (sys.act (.consume slot op)).world.cursors table.token split.node = _
    simp only [act]
    split <;> rfl
  | step i clock =>
    change Ticks _ _ _ ((sys.act (.step i clock)).world.cursors table.token split.node)
    simp only [act, routing]
    cases ha : sys.admissions[i]? with
    | none => exact rfl
    | some a =>
      obtain ⟨-, still, -⟩ := a.step_table clock sys.world
      cases hpc : a.pc with
      | route state =>
        have here : state.table ∈ [table] ++ sys.tables :=
          List.mem_append_right _ (List.mem_cons_of_mem _
            (List.mem_filterMap.mpr ⟨a, List.mem_of_getElem? ha, by rw [hpc]; rfl⟩))
        have cursors : (a.step clock sys.world).2.cursors = (sys.world.route state a.update).2.cursors := by
          simp only [Admission.step, hpc]
          split <;> rfl
        simp only [hpc, cursors, World.route, Option.toList_some, List.filterMap_cons, List.filterMap_nil]
        by_cases same : state.table.token = table.token
        · obtain rfl := tokens.one _ here _ List.mem_cons_self same
          generalize sys.world.cursors state.table.token = cursors, sys.world.scratch.getLast?.getD .default = scratch
          have ticks := route_ticks (SplitOf.at lawful compiled small mem) turn a.update.source a.update.facts cursors scratch
          rw [← toList_find? (picks_nodup lawful compiled small ..)] at ticks
          simp only [Routing.child, if_true, Function.update_self]
          revert ticks
          cases ((state.table.picks a.update.source a.update.facts cursors scratch).find? (·.node = split.node)).map (·.child) <;>
            exact id
        · simp only [Routing.child, same, if_false, Function.update_of_ne (Ne.symm same)]
          exact rfl
      | _ =>
        rw [hpc] at still
        simp only [hpc, still rfl]
        exact rfl

theorem run_ticks {sys : System m} (tokens : Tokens [table] sys) (actions : List Action) :
    Ticks split.next (sys.world.cursors table.token split.node)
      ((sys.routings actions).filterMap (·.child table.token split.node))
      ((sys.run actions).world.cursors table.token split.node) := by
  induction actions generalizing sys with
  | nil => exact rfl
  | cons action actions ih =>
    rw [routings, List.filterMap_append]
    exact (step_ticks lawful compiled small mem turn tokens action).append (ih (tokens_step tokens action))

end

end System

/-- Whatever else happens: of any attempts that come to a split of the current table, one period of them, each child gets
    its share exactly, whether they are admitted or refused, as long as the split's counter does not wrap meanwhile. -/
theorem run_shares {isMatch : Str → Str → Bool} {owns : m.Regex → m.Cache → Prop} (lawful : m.Lawful isMatch owns)
    {cfg : Config} {tokenKeys : Str → Nat} {engine : Shared m} (made : Shared.new cfg tokenKeys = .ok engine)
    (before after : List Action) {token : Nat} {rules : List (SourceId × List RuleSpec)}
    {botUsernames : List (SourceId × Option Str)} :
    let opened : System m := (System.new engine).run before
    let table := opened.world.shared.state.table
    RouteTable.compile token rules botUsernames = .ok table → table.nodes.length < 2 ^ 32 →
    ∀ split, SplitOf rules split → split.strategy ≠ .hashChat →
    opened.world.cursors token split.node + split.period ≤ wordSize →
    let reached := (opened.routings after).filterMap (·.child token split.node)
    reached.length = split.period → ∀ i, reached.count i = split.share i := by
  intro opened table hcompile small split mem turn fits reached period i
  obtain ⟨b, compiled⟩ := compile_compiles hcompile
  obtain rfl : table.token = token := compile_token hcompile
  have tokens : System.Tokens [] opened := System.tokens_run (System.tokens_new made) before
  have known : System.Tokens [table] opened := by
    have mem (t : RouteTable m) (ht : t ∈ [table] ++ opened.tables) : t ∈ [] ++ opened.tables := by
      rcases List.mem_cons.mp ht with rfl | ht
      · exact List.mem_cons_self
      · exact ht
    exact ⟨fun t ht => tokens.below t (mem t ht), fun t ht t' ht' => tokens.one t (mem t ht) t' (mem t' ht')⟩
  have ticks := System.run_ticks lawful compiled small mem turn known after
  have picked : reached = (List.range' _ reached.length).map split.next := ticks.eq_map (period ▸ fits)
  rw [picked, period]
  exact split.count_next _ i

/-! ### Refused attempts -/

/-- Whether the update was admitted. -/
def Admission.admitted (a : Admission m) : Bool :=
  match a.pc with
  | .done .admitted => true
  | _ => false

/-- The attempts that ended with their update admitted: of an admission that tried again, the second. -/
def System.admitted (sys : System m) : List Routing → List Routing
  | [] => []
  | r :: rest =>
    if sys.admissions[r.admission]?.any Admission.admitted && !rest.any (·.admission = r.admission) then
      r :: sys.admitted rest
    else sys.admitted rest

/-- Takes one update. -/
def oneAtATime : QueueConfig := { roomy with capacity := 1 }

/-- Bot `a`, whose updates go to `p` and `q` in turn. -/
def inTurn : Config where
  bots := [{ name := [97], token := [1], rules := [
    { predicates := {}, targets := [.split .roundRobin [.consumer 0, .consumer 1] []] }] }]
  consumers := [
    { id := 0, name := [112], kind := .pull { queue := oneAtATime, honorDropPending := false } },
    { id := 1, name := [113], kind := .pull { queue := roomy, honorDropPending := false } }]
  botNames := by decide
  tokens := by decide
  consumerNames := by decide
  ids := by decide
  owned := by decide

def inTurnEngine : Shared literal := (Shared.new inTurn List.length).toOption.get rfl

/-- The admission `i` of an update, from beginning to end. -/
def offered (i : Nat) : List Action :=
  .begin { source := 0, updateId := i, payload := [1], facts := default } :: List.replicate 9 (.step i 0)

def inTurnRules : List (SourceId × List RuleSpec) := inTurn.bots.map fun bot => (0, bot.rules)

/-- The one split. -/
def inTurnSplit : Split := { node := 2, strategy := .roundRobin, children := 2, weights := [] }

theorem inTurnSplit_of : SplitOf inTurnRules inTurnSplit :=
  @SplitOf.intro _ _ 0 _ rfl 0 _ rfl List.mem_cons_self

/-- Two attempts, the second refused, as `p` has no room any more. -/
theorem run_shares_refused :
    let opened := (System.new inTurnEngine).run (offered 0)
    let reached := (opened.routings (offered 1 ++ offered 2)).filterMap (·.child 0 2)
    reached.count 0 = 1 ∧ reached.count 1 = 1 := by
  have made : Shared.new inTurn List.length = .ok inTurnEngine := rfl
  have compiled : RouteTable.compile 0 inTurnRules [(0, none)] =
      .ok ((System.new inTurnEngine).run (offered 0)).world.shared.state.table := rfl
  have shares := run_shares literal_lawful made (offered 0) (offered 1 ++ offered 2) compiled (by decide) inTurnSplit
    inTurnSplit_of (by decide) (by decide) (by decide)
  exact ⟨shares 0, shares 1⟩

/-- The admitted updates alone are not divided so: the one whose first attempt was refused goes to `q` as well. -/
theorem admitted_shares_refused : ¬ ∀ (cfg : Config) (engine : Shared literal), Shared.new cfg List.length = .ok engine →
    ∀ (before after : List Action) (token : Nat) (rules : List (SourceId × List RuleSpec))
      (botUsernames : List (SourceId × Option Str)),
    let opened := (System.new engine).run before
    RouteTable.compile token rules botUsernames = .ok opened.world.shared.state.table →
    ∀ split, SplitOf rules split → split.strategy ≠ .hashChat →
    let admitted := ((opened.run after).admitted (opened.routings after)).filterMap (·.child token split.node)
    admitted.length = split.period → ∀ i, admitted.count i = split.share i := by
  intro h
  have once := h inTurn inTurnEngine rfl (offered 0) (offered 1 ++ offered 2 ++ offered 3) 0 inTurnRules [(0, none)] rfl
    inTurnSplit inTurnSplit_of (by decide) (by decide) 1
  exact absurd once (by decide)

end Tgin.Engine
