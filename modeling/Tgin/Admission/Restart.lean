import Tgin.Admission.System
import Tgin.Engine.Settings

/-! A reload is as good as a restart: after any run, the current instances have the settings that an engine started on the
    config in effect gives them. -/

namespace Tgin.Engine
open Queue Rules

variable {m : Matchers}

/-! ### Starting on a config -/

/-- The rules of the config compile. -/
def Compilable (m : Matchers) (cfg : Config) : Prop :=
  ∃ (token : Nat) (rules : List (SourceId × List RuleSpec)) (usernames : List (SourceId × Option Str)) (table : RouteTable m),
    RouteTable.compile token rules usernames = .ok table ∧ rules.map (·.2) = cfg.bots.map (·.rules)

/-- A first plan gives the bots their ids in order. -/
theorem Plan.bots_fresh {bots : List Config.Bot} {names : List Str} (few : names.length + bots.length ≤ 2 ^ 16) :
    ∃ planned, Plan.bots (none : Option (EngineState m)) bots names = .ok (planned, names ++ bots.map (·.name)) := by
  induction bots generalizing names with
  | nil => exact ⟨[], by rw [List.map_nil, List.append_nil]; rfl⟩
  | cons bot rest ih =>
    rw [List.length_cons] at few
    have few' : (names ++ [bot.name]).length + rest.length ≤ 2 ^ 16 := by
      rw [List.length_append, List.length_singleton]
      omega
    obtain ⟨planned, h⟩ := ih few'
    refine ⟨{ id := UInt16.ofNat names.length, config := bot, username := none } :: planned, ?_⟩
    rw [bots]
    dsimp only [Option.bind_none]
    rw [if_pos (by omega), h]
    simp only [bind, Except.bind, List.append_assoc, List.singleton_append, List.map_cons]

/-- An engine starts on a config whose rules compile and whose bots are few enough. -/
theorem Shared.new_exists {cfg : Config} (compiles : Compilable m cfg) (few : cfg.bots.length ≤ 2 ^ 16) (tokenKeys : Str → Nat) :
    ∃ fresh : Shared m, Shared.new cfg tokenKeys = .ok fresh := by
  obtain ⟨token, rules, usernames, table, compiled, same⟩ := compiles
  have few : ([] : List Str).length + cfg.bots.length ≤ 2 ^ 16 := by rwa [List.length_nil, Nat.zero_add]
  obtain ⟨planned, hbots⟩ := Plan.bots_fresh (m := m) few
  have given := Plan.bots_given hbots
  have ids : (planned.map (·.id)).Nodup := by
    refine given.ids_nodup cfg.botNames ?_ ?_ <;>
    · intro
      nofun
  have rules' : (planned.map fun b => (b.id, b.config.rules)).map (·.2) = rules.map (·.2) := by
    rw [same, List.map_map, ← given.configs, List.map_map]
    rfl
  obtain ⟨table', compiled'⟩ := compile_ids compiled rules' (by rwa [List.map_map]) 0 (planned.map fun b => (b.id, b.username))
  refine ⟨_, bind_eq_ok.mpr ⟨_, bind_eq_ok.mpr ⟨_, hbots, bind_eq_ok.mpr ⟨_, mapError_eq_ok.mpr compiled', rfl⟩⟩, rfl⟩⟩

/-- A first plan knows no id yet. -/
theorem Plan.Given.fresh_names {bots : List Config.Bot} {names names' : List Str} {planned : List PlannedBot}
    (h : Given (none : Option (EngineState m)) bots names planned names') : names' = names ++ bots.map (·.name) := by
  induction bots generalizing names planned with
  | nil =>
    cases h
    exact (List.append_nil _).symm
  | cons bot rest ih =>
    cases h with
    | kept _ hk _ => cases hk
    | fresh _ _ tail => rw [ih tail, List.append_assoc, List.singleton_append, List.map_cons]

/-- A new engine has the settings of its config, and the names of its bots in order. -/
theorem Shared.new_configured {cfg : Config} {tokenKeys : Str → Nat} {engine : Shared m}
    (made : Shared.new cfg tokenKeys = .ok engine) :
    engine.Configured ∧ engine.state.config = cfg ∧ engine.state.sourceNames = cfg.bots.map (·.name) := by
  obtain ⟨shared, slots, changes, hbuild, hretired, rfl, -⟩ := Shared.new_eq_ok made
  have state : (shared.commit none changes).state = shared.state := shared.changeInstances_state changes
  obtain ⟨hconfig, ⟨planned, hbots, -⟩, -⟩ := Plan.build_steps hbuild
  refine ⟨?_, by rw [state, hconfig], by rw [state]; exact (Plan.bots_given hbots).fresh_names⟩
  refine configured_commit shared none ?_ ?_ hbuild hretired state
  · exact ⟨List.nodup_nil, .nil, nofun, nofun, List.nodup_nil, nofun, nofun, nofun, nofun⟩
  · exact nofun

/-! ### The route table -/

/-- The bots of a state with their ids and usernames, by id. -/
def EngineState.bound (state : EngineState m) : List (SourceInfo × Config.Bot) :=
  state.sources.reduceOption.filterMap fun info =>
    (state.config.bots.find? (·.name = info.name)).map fun bot => (info, bot)

/-- The route table is compiled from the config's rules under the current ids and usernames. -/
def EngineState.Compiled (state : EngineState m) : Prop :=
  ∃ (token : Nat) (bots : List (SourceInfo × Config.Bot)), bots.Perm state.bound ∧
    RouteTable.compile token (bots.map fun (info, bot) => (info.id, bot.rules))
      (bots.map fun (info, _) => (info.id, info.username)) = .ok state.table

theorem mem_bound {state : EngineState m} (h : Sourced state) {info : SourceInfo} {bot : Config.Bot} :
    (info, bot) ∈ state.bound ↔
      state.source info.id = some info ∧ bot ∈ state.config.bots ∧ bot.name = info.name := by
  unfold EngineState.bound
  rw [List.mem_filterMap]
  constructor
  · rintro ⟨info', hi, hb⟩
    obtain ⟨bot', found, heq⟩ := Option.map_eq_some_iff.mp hb
    cases heq
    exact ⟨h.mem_sources.mp hi, List.mem_of_find?_eq_some found, by simpa using List.find?_some found⟩
  · rintro ⟨hs, hb, name⟩
    refine ⟨info, h.mem_sources.mpr hs, Option.map_eq_some_iff.mpr ⟨bot, ?_, rfl⟩⟩
    cases found : state.config.bots.find? (·.name = info.name) with
    | none => exact absurd (List.find?_eq_none.mp found bot hb) (by simp [name])
    | some other =>
      have name' : other.name = info.name := by simpa using List.find?_some found
      rw [List.inj_on_of_nodup_map state.config.botNames (List.mem_of_find?_eq_some found) hb (name'.trans name.symm)]

theorem bound_nodup {state : EngineState m} (h : Sourced state) : state.bound.Nodup := by
  have id {i : Nat} {info : SourceInfo} (lt : i < state.sources.length) (hi : state.sources[i] = some info) :
      info.id.toNat = i := by
    have small : i < 2 ^ 16 := Nat.lt_of_lt_of_le lt (h.length ▸ h.few)
    have source : state.source (UInt16.ofNat i) = some info := by
      rw [source_eq_some, UInt16.toNat_ofNat_of_lt' small, List.getElem?_eq_getElem lt, hi]
    rw [(h.id source).1, UInt16.toNat_ofNat_of_lt' small]
  have sources : state.sources.reduceOption.Nodup := by
    rw [List.reduceOption, List.Nodup, List.pairwise_filterMap, List.pairwise_iff_getElem]
    rintro i j hi hj lt info hinfo _ hinfo' rfl
    exact Nat.ne_of_lt lt ((id hi hinfo).symm.trans (id hj hinfo'))
  refine sources.filterMap fun info info' entry h h' => ?_
  obtain ⟨_, -, rfl⟩ := Option.map_eq_some_iff.mp h
  obtain ⟨_, -, heq⟩ := Option.map_eq_some_iff.mp h'
  exact (Prod.mk.inj heq).1.symm

/-- A plan compiles the table of the state it builds. -/
theorem compiled_build {cfg : Config} {old : Option (EngineState m)} {retired : List Nat} {slots slots' : Nat → Slot}
    {allocated allocated' token : Nat} {state : EngineState m} {changes : Changes} (hold : ∀ o ∈ old, Sourced o)
    (h : Plan.build cfg old retired slots allocated token = .ok (state, changes, slots', allocated')) :
    state.Compiled ∧ Compilable m state.config := by
  obtain ⟨hconfig, ⟨planned, hbots, htable, hsources⟩, -⟩ := Plan.build_steps h
  have given := Plan.bots_given hbots
  rw [← hconfig] at given
  have sourced := sourced_build hold given hsources
  have info (b : PlannedBot) (hb : b ∈ planned) : state.source b.id = some b.info :=
    (source_built hold given hsources).mpr ⟨b, hb, rfl, rfl⟩
  refine ⟨⟨token, planned.map fun b => (b.info, b.config), ?_, ?_⟩, token, _, _, _, htable, ?_⟩
  · have nodup : (planned.map fun b => (b.info, b.config)).Nodup := by
      refine List.Nodup.of_map (fun entry => entry.1.id) ?_
      rw [List.map_map]
      exact planned_nodup hold given
    rw [List.perm_ext_iff_of_nodup nodup (bound_nodup sourced)]
    rintro ⟨info', bot⟩
    rw [mem_bound sourced, List.mem_map]
    constructor
    · rintro ⟨b, hb, heq⟩
      cases heq
      exact ⟨info b hb, given.configs ▸ List.mem_map_of_mem hb, rfl⟩
    · rintro ⟨hs, hb, name⟩
      obtain ⟨b, hb', -, rfl⟩ := (source_built hold given hsources).mp hs
      refine ⟨b, hb', ?_⟩
      have mem : b.config ∈ state.config.bots := given.configs ▸ List.mem_map_of_mem hb'
      rw [List.inj_on_of_nodup_map state.config.botNames hb mem name]
  · rw [List.map_map, List.map_map]
    exact htable
  · rw [List.map_map, ← given.configs, List.map_map]
    rfl

/-! ### What a run keeps -/

/-- The state of an engine is the one of its config: ids, settings and rules. -/
structure Shared.Settled (shared : Shared m) : Prop where
  sourced : Sourced shared.state
  configured : shared.Configured
  compiled : shared.state.Compiled
  compilable : Compilable m shared.state.config

namespace Shared
variable {shared shared' : Shared m}

/-- Only the settings and the names of the instances matter. -/
theorem Settled.congr (h : shared.Settled) (state : shared'.state = shared.state)
    (same : ∀ i, (shared.slots i).SameSettings (shared'.slots i) ∧ (shared'.slots i).name = (shared.slots i).name) :
    shared'.Settled := by
  refine ⟨state ▸ h.sourced, fun c hc t ht name => ?_, state ▸ h.compiled, state ▸ h.compilable⟩
  rw [state] at hc ht ⊢
  exact (h.configured c hc t ht ((same t.slot).2 ▸ name)).same (same t.slot).1

theorem Settled.modify (h : shared.Settled) {slot : Nat} {f : Slot → Slot}
    (same : (shared.slots slot).SameSettings (f (shared.slots slot)))
    (name : (f (shared.slots slot)).name = (shared.slots slot).name) : (shared.modify slot f).Settled :=
  h.congr rfl fun i => ⟨same.update i, shared.modify_field Slot.name name i⟩

theorem settled_apply (instances : shared.Instances) (h : shared.Settled) (new : Config) :
    (shared.control (.apply new)).Settled := by
  have sourced := (control_sourced shared (.apply new) h.sourced).1
  rcases shared.apply_cases new with ⟨error, happly⟩ | ⟨state, changes, slots, allocated, hbuild, happly⟩ <;>
    simp only [control, happly] at sourced ⊢
  · exact h
  · have before : Engine.Instances (oldConsumers (some shared.state)) (oldTargets (some shared.state)) _ _ _ := instances
    obtain ⟨compiled, compilable⟩ := compiled_build (by rintro _ ⟨⟩; exact h.sourced) hbuild
    refine ⟨sourced, ?_, compiled, compilable⟩
    exact configured_commit { shared with slots, allocated, tables := shared.tables + 1 } (some state) before h.configured
      hbuild rfl rfl

theorem settled_setUsername (h : shared.Settled) (source : SourceId) (username : Option Str) :
    (shared.setUsername source username).Settled := by
  have sourced : Sourced (shared.setUsername source username).state :=
    (control_sourced shared (.setUsername source username) h.sourced).1
  unfold setUsername at sourced ⊢
  dsimp only at sourced ⊢
  cases hs : shared.state.source source with
  | none => exact h
  | some info =>
    rw [hs] at sourced
    dsimp only at sourced ⊢
    split
    · exact h
    · rename_i changed
      rw [if_neg changed] at sourced
      split
      · exact h
      · rename_i table compiled
        rw [compiled] at sourced
        exact ⟨sourced, h.configured, ⟨_, _, .refl _, compiled⟩, h.compilable⟩

end Shared

theorem Slot.Effect.sameSettings {update : Update} {now : Instant} {commits : Prop} {s s' : Slot} {fate : Fate} {skips : Nat}
    (h : s.Effect update now commits fate skips s') : SameSettings s s' := by
  cases h with
  | reserved _ removed => exact ⟨removed.cfg, rfl⟩
  | committed _ _ _ _ _ _ _ cfg => exact ⟨cfg, rfl⟩
  | _ => exact ⟨rfl, rfl⟩

theorem Slot.consume_sameSettings {s : Slot} (exact : Exact s.queue.inner) (op : Op Envelope) :
    SameSettings s (s.consume op) := by
  rcases Slot.consume_cases exact op with hs | ⟨-, queue, consumed, hs⟩ <;> rw [hs]
  · exact .refl s
  · split <;> exact ⟨consumed.cfg, rfl⟩

namespace System
variable {sys : System m}

theorem act_settled (sound : sys.Sound) (h : sys.world.shared.Settled) (action : Action) :
    (sys.act action).world.shared.Settled := by
  cases action with
  | begin update => exact h
  | step j clock =>
    simp only [act]
    split
    · exact h
    · rename_i a ha
      have effect := a.step_effect clock sound.shared.exact
      obtain ⟨-, -, state⟩ := a.step_sound clock sound.shared (sound.known a (List.mem_of_getElem? ha))
      exact h.congr state fun i => ⟨(effect i).sameSettings, (effect i).same_instance.1⟩
  | control control =>
    cases control with
    | apply new => exact Shared.settled_apply sound.shared.instances h new
    | setUsername source username => exact Shared.settled_setUsername h source username
    | setRuntimeEndpoint consumer source token endpoint =>
      simp only [act, System.control, Shared.control]
      rcases sys.world.shared.setRuntimeEndpoint_cases consumer source token endpoint with
        same | ⟨target, -, -, -, -, same⟩ <;> rw [same]
      · exact h
      · exact h.modify (Slot.sameSettings_clear _ _) rfl
    | retire slot drain =>
      simp only [act, System.control]
      split
      · have h' : Shared.Settled { sys.world.shared with tasks := sys.world.shared.tasks.erase (slot, drain) } :=
          h.congr rfl fun _ => ⟨.refl _, rfl⟩
        split
        · exact h'
        · rename_i closed hc
          obtain ⟨-, -, rfl⟩ := Shared.close_eq_some hc
          have erased : Shared.Settled { sys.world.shared with
              tasks := sys.world.shared.tasks.erase (slot, drain), retired := sys.world.shared.retired.erase slot } :=
            h.congr rfl fun _ => ⟨.refl _, rfl⟩
          exact erased.modify (f := fun s => { s with drain := none, closed := true }) ⟨rfl, rfl⟩ rfl
      · exact h
  | drain slot =>
    simp only [act]
    split
    · exact h.modify ⟨rfl, rfl⟩ rfl
    · exact h
  | consume slot op =>
    simp only [act]
    split
    · exact h.modify (Slot.consume_sameSettings (sound.shared.exact slot) op)
        (Slot.consume_same (sound.shared.exact slot) op).1.1
    · exact h

/-- The state of the system changes only as the control plane changes it. -/
theorem act_state (sound : sys.Sound) (action : Action) :
    (sys.act action).world.shared.state = sys.world.shared.state ∨
      ∃ control, (sys.act action).world.shared.state = (sys.world.shared.control control).state := by
  cases action with
  | begin update => exact .inl rfl
  | step j clock =>
    simp only [act]
    split
    · exact .inl rfl
    · rename_i a ha
      exact .inl (a.step_sound clock sound.shared (sound.known a (List.mem_of_getElem? ha))).2.2
  | control control =>
    cases control with
    | retire slot drain =>
      simp only [act, System.control]
      split
      · split
        · exact .inl rfl
        · rename_i closed hc
          obtain ⟨-, -, rfl⟩ := Shared.close_eq_some hc
          exact .inl rfl
      · exact .inl rfl
    | apply new => exact .inr ⟨.apply new, rfl⟩
    | setRuntimeEndpoint consumer source token endpoint =>
      exact .inr ⟨.setRuntimeEndpoint consumer source token endpoint, rfl⟩
    | setUsername source username => exact .inr ⟨.setUsername source username, rfl⟩
  | drain slot =>
    simp only [act]
    split <;> exact .inl rfl
  | consume slot op =>
    simp only [act]
    split <;> exact .inl rfl

theorem act_continues (sound : sys.Sound) (h : Sourced sys.world.shared.state) (action : Action) :
    Continues sys.world.shared.state (sys.act action).world.shared.state := by
  rcases act_state sound action with same | ⟨control, step⟩
  · rw [same]
    exact .refl _
  · rw [step]
    exact (control_sourced sys.world.shared control h).2

end System

/-! ### The ids in the queues -/

/-- An update is routed only under the id of a bot. -/
theorem World.route_source {world : World m} {state : EngineState m} (h : Sourced state) (compiled : state.Compiled)
    {update : Update} {index : Nat} (matched : (world.route state update).1.1 = some index) :
    update.source.toNat < state.sourceNames.length := by
  obtain ⟨token, bots, perm, table⟩ := compiled
  obtain ⟨b, compiles⟩ := compile_compiles table
  cases found : (bots.map fun (info, bot) => (info.id, bot.rules)).find? (·.1 = update.source) with
  | none =>
    have absent := compiles.absent _ found
    unfold sourceAt at absent
    simp only [World.route, RouteTable.route, absent] at matched
    cases matched
  | some entry =>
    obtain ⟨⟨info, bot⟩, mem, rfl⟩ := List.mem_map.mp (List.mem_of_find?_eq_some found)
    have id : info.id = update.source := by simpa using List.find?_some found
    exact id ▸ h.lt ((mem_bound h).mp (perm.mem_iff.mp mem)).1

/-- What an admission has of its update's source: once the update is routed, a bot has had the id. -/
def Pc.Routed (names : List Str) (source : SourceId) : Pc m → Prop
  | .load | .done _ => True
  | .route state => state.sourceNames <+: names ∧ Sourced state ∧ state.Compiled
  | _ => source.toNat < names.length

theorem Pc.Routed.mono {names names' : List Str} {source : SourceId} {pc : Pc m} (h : pc.Routed names source)
    (le : names <+: names') : pc.Routed names' source := by
  cases pc with
  | load | done => trivial
  | route state => exact ⟨h.1.trans le, h.2⟩
  | _ => exact Nat.lt_of_lt_of_le h le.length_le

theorem Admission.step_routed (a : Admission m) (clock : Instant) {world : World m} (h : world.shared.Settled)
    (routed : a.pc.Routed world.shared.state.sourceNames a.update.source) :
    (a.step clock world).1.pc.Routed world.shared.state.sourceNames a.update.source := by
  have next := a.step_next clock world
  generalize a.pc = pc, (a.step clock world).1.pc = pc' at next routed ⊢
  cases next with
  | load => exact ⟨List.prefix_rfl, h.sourced, h.compiled⟩
  | routed matched =>
    obtain ⟨le, sourced, compiled⟩ := routed
    exact Nat.lt_of_lt_of_le (World.route_source sourced compiled (congrArg Prod.fst matched)) le.length_le
  | visited | closed | reserve | reserving | reserved | skipped | backpressure | dropped | committed | drained => exact routed
  | unroutable | answered | again | admitted | done => trivial

/-- What an admission leaves in a queue was there, or is its own update. -/
theorem Slot.Effect.entries {update : Update} {now : Instant} {commits : Prop} {s s' : Slot} {fate : Fate} {skips : Nat}
    (h : s.Effect update now commits fate skips s') {seq : Nat} {e : Entry Envelope}
    (he : s'.queue.inner.entries[seq]? = some e) :
    s.queue.inner.entries[seq]? = some e ∨ commits ∧ e.item.source = update.source := by
  cases h with
  | @reserved n inner _ removed le =>
    have he : inner.entries[seq]? = some e := he
    rw [removed.entries] at he
    split at he
    · cases he
    · exact .inl he
  | @committed _ h inner _ _ _ size entries _ _ =>
    have he : inner.entries[seq]? = some e := he
    rw [entries, Std.ExtTreeMap.getElem?_insert] at he
    split at he
    · obtain rfl := Option.some.inj he
      exact .inr ⟨h, rfl⟩
    · exact .inl he
  | drained closed =>
    have empty : s.drainLate.queue.inner.entries = ∅ := rfl
    rw [empty] at he
    simp at he
  | _ => exact .inl he

namespace System
variable {sys : System m}

/-- What a queue holds after a step was in it, or an admission commits it. -/
theorem act_stored (sound : sys.Sound) (action : Action) {i seq : Nat} {e : Entry Envelope}
    (he : ((sys.act action).slots i).queue.inner.entries[seq]? = some e) :
    (∃ before, (sys.slots i).queue.inner.entries[seq]? = some before ∧ e.item = before.item) ∨
      ∃ a ∈ sys.admissions, a.pc.Commits i ∧ e.item.source = a.update.source := by
  cases action with
  | begin update => exact .inl ⟨e, he, rfl⟩
  | step j clock =>
    simp only [act] at he
    split at he
    · exact .inl ⟨e, he, rfl⟩
    · rename_i a ha
      rcases (a.step_effect clock sound.shared.exact i).entries he with before | ⟨commits, source⟩
      · exact .inl ⟨e, before, rfl⟩
      · exact .inr ⟨a, List.mem_of_getElem? ha, commits, source⟩
  | control control =>
    obtain ⟨-, closes, leaves, -⟩ := control_leaves sound.shared control
    have he : ((sys.control control).world.shared.slots i).queue.inner.entries[seq]? = some e := he
    rw [(leaves.slots i).entries] at he
    exact .inl ⟨e, he, rfl⟩
  | drain slot =>
    simp only [act] at he
    split at he
    · change ((Function.update sys.slots slot (sys.slots slot).drainLate i).queue.inner.entries)[seq]? = some e at he
      by_cases hi : i = slot
      · subst hi
        rw [Function.update_self] at he
        have empty : (sys.slots i).drainLate.queue.inner.entries = ∅ := rfl
        rw [empty] at he
        simp at he
      · rw [Function.update_of_ne hi] at he
        exact .inl ⟨e, he, rfl⟩
    · exact .inl ⟨e, he, rfl⟩
  | consume slot op =>
    simp only [act] at he
    split at he
    · change ((Function.update sys.slots slot ((sys.slots slot).consume op) i).queue.inner.entries)[seq]? = some e at he
      by_cases hi : i = slot
      · subst hi
        rw [Function.update_self] at he
        rcases Slot.consume_cases (sound.shared.exact i) op with same | ⟨-, queue, consumed, same⟩
        · rw [show (sys.slots i).consume op = _ from same] at he
          exact .inl ⟨e, he, rfl⟩
        · have he : queue.inner.entries[seq]? = some e := by
            rw [show (sys.slots i).consume op = _ from same] at he
            split at he <;> exact he
          obtain ⟨before, stored, -, item⟩ := consumed.getElem? he
          exact .inl ⟨before, stored, item⟩
      · rw [Function.update_of_ne hi] at he
        exact .inl ⟨e, he, rfl⟩
    · exact .inl ⟨e, he, rfl⟩

/-- Every update in a queue, or on its way to one, has the id of a bot. -/
structure Routed (sys : System m) : Prop where
  queued : ∀ i (seq : Nat) e, (sys.slots i).queue.inner.entries[seq]? = some e →
    e.item.source.toNat < sys.world.shared.state.sourceNames.length
  admissions : ∀ a ∈ sys.admissions, a.pc.Routed sys.world.shared.state.sourceNames a.update.source

theorem act_routed (sound : sys.Sound) (settled : sys.world.shared.Settled) (h : sys.Routed) (action : Action) :
    (sys.act action).Routed := by
  have names := (act_continues sound settled.sourced action).names
  refine ⟨fun i seq e he => Nat.lt_of_lt_of_le ?_ names.length_le, fun b hb => ?_⟩
  · rcases act_stored sound action he with ⟨before, stored, item⟩ | ⟨a, ha, commits, source⟩
    · rw [item]
      exact h.queued i seq before stored
    · have routed := h.admissions a ha
      rw [source]
      cases hpc : a.pc with
      | commit permits =>
        rw [hpc] at routed
        exact routed
      | _ =>
        rw [hpc] at commits
        cases commits
  · have kept (hb : b ∈ sys.admissions) := (h.admissions b hb).mono names
    cases action with
    | begin update =>
      rcases List.mem_append.mp hb with hb | hb
      · exact kept hb
      · obtain rfl := List.mem_singleton.mp hb
        trivial
    | step j clock =>
      simp only [act] at hb
      split at hb
      · exact kept hb
      · rename_i a ha
        rcases List.mem_or_eq_of_mem_set hb with hb | rfl
        · exact kept hb
        · rw [a.step_update]
          exact (a.step_routed clock settled (h.admissions a (List.mem_of_getElem? ha))).mono names
    | control control => exact kept ((control_leaves sound.shared control).1 ▸ hb)
    | drain slot =>
      simp only [act] at hb
      split at hb <;> exact kept hb
    | consume slot op =>
      simp only [act] at hb
      split at hb <;> exact kept hb

end System

/-! ### The names of the ids -/

/-- A plan gives a new id to a bot it plans. -/
theorem Plan.Given.new_id {old : Option (EngineState m)} {list : List Config.Bot} {names names' : List Str}
    {planned : List PlannedBot} (h : Given old list names planned names') {i : Nat} (le : names.length ≤ i)
    (lt : i < names'.length) : ∃ b ∈ planned, b.id.toNat = i := by
  induction h with
  | nil => exact absurd lt (Nat.not_lt.mpr le)
  | kept _ _ _ ih =>
    obtain ⟨b, hb, hi⟩ := ih le lt
    exact ⟨b, List.mem_cons_of_mem _ hb, hi⟩
  | @fresh bot _ names _ _ id _ hid _ ih =>
    by_cases here : i = names.length
    · exact ⟨_, List.mem_cons_self, hid.trans here.symm⟩
    · obtain ⟨b, hb, hi⟩ := ih (by rw [List.length_append, List.length_singleton]; omega) lt
      exact ⟨b, List.mem_cons_of_mem _ hb, hi⟩

theorem built_new_id {cfg : Config} {old : Option (EngineState m)} {retired : List Nat} {slots slots' : Nat → Slot}
    {allocated allocated' token : Nat} {state : EngineState m} {changes : Changes} (hold : ∀ o ∈ old, Sourced o)
    (h : Plan.build cfg old retired slots allocated token = .ok (state, changes, slots', allocated')) {i : Nat}
    (le : (givenNames old).length ≤ i) (lt : i < state.sourceNames.length) :
    ∃ id info, id.toNat = i ∧ state.source id = some info := by
  obtain ⟨planned, given, hconfig, hsources, -⟩ := Plan.build_eq_ok h
  rw [← hconfig] at given
  obtain ⟨b, hb, rfl⟩ := given.new_id le lt
  exact ⟨b.id, b.info, rfl, (source_built hold given hsources).mpr ⟨b, hb, rfl, rfl⟩⟩

theorem control_new_id {shared : Shared m} (h : Sourced shared.state) (control : Control) {i : Nat}
    (le : shared.state.sourceNames.length ≤ i) (lt : i < (shared.control control).state.sourceNames.length) :
    ∃ id info, id.toNat = i ∧ (shared.control control).state.source id = some info := by
  have same (names : (shared.control control).state.sourceNames = shared.state.sourceNames) :
      ∃ id info, id.toNat = i ∧ (shared.control control).state.source id = some info :=
    absurd (names ▸ lt) (Nat.not_lt.mpr le)
  cases control with
  | apply new =>
    rcases shared.apply_cases new with ⟨error, happly⟩ | ⟨state, changes, slots, allocated, hbuild, happly⟩
    · exact same (by rw [Shared.control, happly])
    · rw [Shared.control, happly] at lt ⊢
      exact built_new_id (by rintro _ ⟨⟩; exact h) hbuild le lt
  | retire slot drain =>
    refine same ?_
    rcases shared.retire_cases slot drain with ⟨tasks, hr⟩ | ⟨-, hr⟩ <;> rw [hr]
    rfl
  | setRuntimeEndpoint consumer source token endpoint =>
    exact same (congrArg _ (shared.setRuntimeEndpoint_state consumer source token endpoint))
  | setUsername source username => exact same (source_setUsername shared source username 0).2.1

namespace System

/-- The state in effect after the first actions of a run. -/
def stateAfter (engine : Shared m) (actions : List Action) (k : Nat) : EngineState m :=
  ((new engine).run (actions.take k)).world.shared.state

variable {cfg : Config} {tokenKeys : Str → Nat} {engine : Shared m}

theorem new_settled (made : Shared.new cfg tokenKeys = .ok engine) : engine.Settled := by
  have sourced := new_sourced made
  obtain ⟨configured, -, -⟩ := Shared.new_configured made
  obtain ⟨shared, slots, changes, hbuild, -, rfl, -⟩ := Shared.new_eq_ok made
  obtain ⟨compiled, compilable⟩ := compiled_build (by rintro _ ⟨⟩) hbuild
  have state : (shared.commit none changes).state = shared.state := shared.changeInstances_state changes
  rw [← state] at compiled compilable
  exact ⟨sourced, configured, compiled, compilable⟩

/-- What holds in every state of a run. -/
theorem run_keeps (made : Shared.new cfg tokenKeys = .ok engine) (actions : List Action) :
    ((new engine).run actions).Sound ∧ ((new engine).run actions).world.shared.Settled ∧ ((new engine).run actions).Routed := by
  have routed : (new engine).Routed := by
    refine ⟨fun i seq e he => ?_, fun _ ha => (nomatch ha)⟩
    have he : (engine.slots i).queue.inner.entries[seq]? = some e := he
    rw [(unused_new made i).entries] at he
    simp at he
  refine run_induction (P := fun sys => sys.world.shared.Settled ∧ sys.Routed) (sound_new made)
    ⟨new_settled made, routed⟩ ?_ actions
  rintro sys action sound ⟨settled, routed⟩
  obtain ⟨queued, admissions⟩ := act_routed sound settled routed action
  exact ⟨act_settled sound settled action, queued, admissions⟩

/-- The names that ids were given out under stay, in order. -/
theorem names_run {sys : System m} (sound : sys.Sound) (settled : sys.world.shared.Settled) (actions : List Action) :
    sys.world.shared.state.sourceNames <+: (sys.run actions).world.shared.state.sourceNames := by
  induction actions generalizing sys with
  | nil => exact List.prefix_rfl
  | cons action actions ih =>
    have next := ih (step_sound sound action) (act_settled sound settled action)
    exact (act_continues sound settled.sourced action).names.trans next

theorem stateAfter_names (made : Shared.new cfg tokenKeys = .ok engine) (actions : List Action) (k : Nat) :
    (stateAfter engine actions k).sourceNames <+: ((new engine).run actions).world.shared.state.sourceNames := by
  obtain ⟨sound, settled, -⟩ := run_keeps made (actions.take k)
  have later := names_run sound settled (actions.drop k)
  rwa [← run_append, List.take_append_drop] at later

theorem stateAfter_sourced (made : Shared.new cfg tokenKeys = .ok engine) (actions : List Action) (k : Nat) :
    Sourced (stateAfter engine actions k) := (run_keeps made (actions.take k)).2.1.sourced

/-- An id was given out to a bot of the config in effect then. -/
theorem stateAfter_given (made : Shared.new cfg tokenKeys = .ok engine) (actions : List Action) {i : Nat}
    (lt : i < ((new engine).run actions).world.shared.state.sourceNames.length) :
    ∃ k id info, id.toNat = i ∧ (stateAfter engine actions k).source id = some info := by
  induction actions using List.reverseRecOn with
  | nil =>
    obtain ⟨shared, slots, changes, hbuild, -, rfl, -⟩ := Shared.new_eq_ok made
    have state : (shared.commit none changes).state = shared.state := shared.changeInstances_state changes
    have lt : i < (shared.commit none changes).state.sourceNames.length := lt
    rw [state] at lt
    obtain ⟨id, info, hid, hs⟩ := built_new_id (by rintro _ ⟨⟩) hbuild (Nat.zero_le i) lt
    refine ⟨0, id, info, hid, ?_⟩
    change (shared.commit none changes).state.source id = some info
    rwa [state]
  | append_singleton actions action ih =>
    obtain ⟨sound, settled, -⟩ := run_keeps made actions
    have step : (new engine).run (actions ++ [action]) = ((new engine).run actions).step action := List.foldl_append
    rw [step] at lt
    by_cases before : i < ((new engine).run actions).world.shared.state.sourceNames.length
    · obtain ⟨k, id, info, hid, hs⟩ := ih before
      refine ⟨min k actions.length, id, info, hid, ?_⟩
      rwa [stateAfter, List.take_append_of_le_length (Nat.min_le_right ..), ← List.take_eq_take_min]
    · refine ⟨(actions ++ [action]).length, ?_⟩
      rw [stateAfter, List.take_length, step]
      rcases act_state sound action with same | ⟨control, changed⟩
      · have lt : i < (((new engine).run actions).act action).world.shared.state.sourceNames.length := lt
        rw [same] at lt
        exact absurd lt before
      · have lt : i < (((new engine).run actions).act action).world.shared.state.sourceNames.length := lt
        rw [changed] at lt
        change ∃ id info, id.toNat = i ∧ (((new engine).run actions).act action).world.shared.state.source id = some info
        rw [changed]
        exact control_new_id settled.sourced control (Nat.le_of_not_lt before) lt

theorem settings_names {kind : Config.ConsumerKind} {names : List Str} {set : List Endpoint × PushOptions}
    (h : settings kind names = some set) : set.2.sourceNames = names := by
  cases kind with
  | pull pull => cases h
  | push push =>
    cases h
    rfl

/-- Reloading is as good as restarting. After any run of reloads, ends of drains, `setWebhook` calls, admissions and
    deliveries, an engine starts on the config in effect, and each consumer of it has one current instance, of its mode,
    with the settings that the new engine gives it but for the source names; these are the names of all bots so far. The
    route table is the config's under the current ids and usernames, and the id of every update queued in a current
    instance is named, for its push options, after the one bot that ever had it. -/
theorem run_restarts (made : Shared.new cfg tokenKeys = .ok engine) (actions : List Action) :
    let now := ((new engine).run actions).world.shared
    (∃ fresh : Shared m, Shared.new now.state.config now.tokenKeys = .ok fresh ∧
      fresh.state.sourceNames = now.state.config.bots.map (·.name) ∧
      ∀ c ∈ now.state.config.consumers, ∃ t ∈ now.state.targets, ∃ t' ∈ fresh.state.targets,
        ((now.slots t.slot).name = c.name ∧ ∀ u ∈ now.state.targets, (now.slots u.slot).name = c.name → u = t) ∧
        (fresh.slots t'.slot).name = c.name ∧
        (now.slots t.slot).mode = mode c.kind ∧ t.onFull = t'.onFull ∧ t.capacityBytes = t'.capacityBytes ∧
        (now.slots t.slot).queue.inner.cfg = (fresh.slots t'.slot).queue.inner.cfg ∧
        (now.slots t.slot).consumer.settings = ((fresh.slots t'.slot).consumer.settings.map fun (endpoints, options) =>
          (endpoints, { options with sourceNames := now.state.sourceNames })) ∧
        ∀ set ∈ (fresh.slots t'.slot).consumer.settings, set.2.sourceNames = fresh.state.sourceNames) ∧
    (∀ name, name ∈ now.state.sourceNames ↔
      ∃ k, name ∈ (stateAfter engine actions k).config.bots.map (·.name)) ∧
    now.state.Compiled ∧
    ∀ t ∈ now.state.targets, ∀ endpoints options, (now.slots t.slot).consumer.settings = some (endpoints, options) →
      ∀ (seq : Nat) e, (now.slots t.slot).queue.inner.entries[seq]? = some e →
        ∃ name, options.sourceNames[e.item.source.toNat]? = some name ∧
          (∃ k info, (stateAfter engine actions k).source e.item.source = some info ∧ info.name = name) ∧
          ∀ k info, (stateAfter engine actions k).source e.item.source = some info → info.name = name := by
  intro now
  obtain ⟨sound, settled, routed⟩ := run_keeps made actions
  have instances : Instances now.state.config.consumers now.state.targets now.retired now.allocated now.slots :=
    sound.shared.instances
  have named {k : Nat} {id : SourceId} {info : SourceInfo} (hs : (stateAfter engine actions k).source id = some info) :
      now.state.sourceNames[id.toNat]? = some info.name := by
    obtain ⟨rest, hrest⟩ := stateAfter_names made actions k
    have here := ((stateAfter_sourced made actions k).id hs).2
    rw [show now.state.sourceNames = _ from hrest.symm, List.getElem?_append_left (List.getElem?_eq_some_iff.mp here).1, here]
  have given {i : Nat} (lt : i < now.state.sourceNames.length) :
      ∃ k id info, id.toNat = i ∧ (stateAfter engine actions k).source id = some info := stateAfter_given made actions lt
  refine ⟨?_, fun name => ?_, settled.compiled, fun t ht endpoints options hset seq e he => ?_⟩
  · have few : now.state.config.bots.length ≤ 2 ^ 16 := by
      have sub : now.state.config.bots.map (·.name) ⊆ now.state.sourceNames := by
        intro name hn
        obtain ⟨id, info, hs, rfl⟩ := (settled.sourced.configured name).mp hn
        exact List.mem_of_getElem? (settled.sourced.id hs).2
      have le := (now.state.config.botNames.subperm sub).length_le
      rw [List.length_map] at le
      exact le.trans settled.sourced.few
    obtain ⟨fresh, made'⟩ := Shared.new_exists settled.compilable few now.tokenKeys
    obtain ⟨configured', config', names'⟩ := Shared.new_configured made'
    have instances' : Instances fresh.state.config.consumers fresh.state.targets fresh.retired fresh.allocated fresh.slots :=
      run_instances made' []
    refine ⟨fresh, made', names', fun c hc => ?_⟩
    obtain ⟨t, ht, htarget, name, modes⟩ := (forall₂_exists instances.matched).2 c hc
    obtain ⟨t', ht', htarget', name', -⟩ := (forall₂_exists instances'.matched).2 c (config' ▸ hc)
    have has := settled.configured c hc t ht name
    have has' := configured' c (config' ▸ hc) t' ht' name'
    refine ⟨t, ht, t', ht', ⟨name, fun u hu same => instances.target_unique hu ht (same.trans name.symm)⟩, name', modes,
      by rw [htarget, htarget']; rfl, by rw [htarget, htarget']; rfl, has.queue.trans has'.queue.symm, ?_, fun set hset => ?_⟩
    · rw [has.consumer, has'.consumer]
      cases c.kind <;> rfl
    · exact settings_names (has'.consumer ▸ hset)
  · constructor
    · intro hn
      obtain ⟨i, hi⟩ := List.mem_iff_getElem?.mp hn
      obtain ⟨k, id, info, rfl, hs⟩ := given (List.getElem?_eq_some_iff.mp hi).1
      rw [named hs] at hi
      obtain rfl := Option.some.inj hi
      exact ⟨k, ((stateAfter_sourced made actions k).configured _).mpr ⟨id, info, hs, rfl⟩⟩
    · rintro ⟨k, hn⟩
      obtain ⟨id, info, hs, rfl⟩ := ((stateAfter_sourced made actions k).configured _).mp hn
      exact List.mem_of_getElem? (named hs)
  · obtain ⟨c, hc, -, name, -⟩ := (forall₂_exists instances.matched).1 t ht
    rw [(settled.configured c hc t ht name).consumer] at hset
    have names : options.sourceNames = now.state.sourceNames := settings_names hset
    obtain ⟨k, id, info, hid, hs⟩ := given (routed.queued t.slot seq e he)
    obtain rfl := UInt16.toNat_inj.mp hid
    have here := named hs
    refine ⟨info.name, names ▸ here, ⟨k, info, hs, rfl⟩, fun k' info' hs' => ?_⟩
    exact Option.some.inj ((named hs').symm.trans here)

/-- Bots `a` and `b` were configured, and only `a` is left: its consumer, now a push consumer, knows both by name. -/
theorem run_restarts_extended :
    let now := ((new bothEngine).run [.control (.apply pushed)]).world.shared
    now.state.sourceNames = [[97], [98]] ∧
      ∃ fresh : Shared literal, Shared.new pushed now.tokenKeys = .ok fresh ∧ fresh.state.sourceNames = [[97]] ∧
        ∃ t ∈ now.state.targets, ∃ t' ∈ fresh.state.targets,
          (now.slots t.slot).consumer.settings = (fresh.slots t'.slot).consumer.settings.map fun (endpoints, options) =>
            (endpoints, { options with sourceNames := [[97], [98]] }) := by
  intro now
  have made : Shared.new both List.length = .ok bothEngine := rfl
  have names : now.state.sourceNames = [[97], [98]] := by decide
  obtain ⟨⟨fresh, made', names', same⟩, -⟩ := run_restarts made [.control (.apply pushed)]
  obtain ⟨t, ht, t', ht', -, -, -, -, -, -, settings, -⟩ := same _ List.mem_cons_self
  exact ⟨names, fresh, made', names', t, ht, t', ht', names ▸ settings⟩

end System

end Tgin.Engine
