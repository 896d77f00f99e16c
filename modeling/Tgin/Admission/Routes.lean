import Tgin.Admission.Restart
import Tgin.Engine.Feeders

/-! What routing on the state of an engine comes to: consumers that a rule of the update's bot targets. -/

namespace Tgin.Rules
open Config (reaches reachesAny)

namespace TargetSpec
variable {key : Option Nat} {tickets : Tickets} {id : ConsumerId}

theorem reachesAny_iff {specs : List TargetSpec} : reachesAny id specs = true ↔ ∃ spec ∈ specs, reaches id spec = true := by
  induction specs with
  | nil => simp [reachesAny]
  | cons spec specs ih => rw [reachesAny, Bool.or_eq_true, ih, List.exists_mem_cons_iff]

theorem denoteAll_reaches {specs : List TargetSpec}
    (ih : ∀ c ∈ specs, ∀ {tickets : Tickets}, id ∈ (c.denote key tickets).1 → reaches id c = true) {i : Nat} {tickets : Tickets}
    (mem : id ∈ (denoteAll i specs key tickets).1) : ∃ spec ∈ specs, reaches id spec = true := by
  induction specs generalizing i tickets with
  | nil => cases mem
  | cons spec specs ih' =>
    rw [denoteAll] at mem
    rcases List.mem_append.mp mem with mem | mem
    · exact ⟨spec, List.mem_cons_self, ih spec List.mem_cons_self mem⟩
    · obtain ⟨c, hc, reaches⟩ := ih' (fun c hc => ih c (List.mem_cons_of_mem _ hc)) mem
      exact ⟨c, List.mem_cons_of_mem _ hc, reaches⟩

/-- A target expression denotes consumers that it reaches. -/
theorem denote_reaches (spec : TargetSpec) : ∀ {key : Option Nat} {tickets : Tickets}, id ∈ (spec.denote key tickets).1 →
    reaches id spec = true := by
  induction spec using TargetSpec.induction with
  | consumer other =>
    intro key tickets mem
    rw [reaches, decide_eq_true_eq]
    exact (List.mem_singleton.mp mem).symm
  | all specs ih => exact fun mem => reachesAny_iff.mpr (denoteAll_reaches (fun c hc _ => ih c hc) mem)
  | split strategy among weights ih =>
    intro key tickets mem
    rw [denote] at mem
    generalize strategy.select weights among.length key (tickets []) = picked at mem
    obtain ⟨i, childKey, ticket⟩ := picked
    dsimp only at mem
    cases hc : among[i]? with
    | none =>
      rw [denoteNth_none hc] at mem
      cases mem
    | some c =>
      rw [denoteNth_eq hc] at mem
      exact reachesAny_iff.mpr ⟨c, List.mem_of_getElem? hc, ih c (List.mem_of_getElem? hc) mem⟩

end TargetSpec

theorem RuleSpec.reaches_target {spec : RuleSpec} {id : ConsumerId} (h : reaches id spec.target = true) :
    spec.targets.any (reaches id) = true := by
  rw [List.any_eq_true]
  unfold RuleSpec.target at h
  split at h
  · rename_i single targets
    exact ⟨single, targets ▸ List.mem_singleton_self single, h⟩
  · exact TargetSpec.reachesAny_iff.mp h

/-! ### The size of a table -/

variable {m : Matchers}

theorem sources_nodes {botUsernames : List (SourceId × Option Str)} {rest : List (SourceId × List RuleSpec)}
    {compiled compiled' : List (Option (SourceRules m))} {b b' : Builder} (hb : b.children.length ≤ b.nodes.length)
    (h : Builder.sources botUsernames rest compiled b = .ok (compiled', b')) :
    b'.nodes.length = b.nodes.length + (rest.map fun entry => nodeCount entry.2).sum := by
  induction rest generalizing compiled b with
  | nil =>
    cases h
    rfl
  | cons entry rest ih =>
    rw [Builder.sources] at h
    obtain ⟨-, h⟩ := of_throw_if h
    obtain ⟨⟨rules, b₁⟩, h₁, h⟩ := bind_eq_ok.mp h
    obtain ⟨-, nodes, children, -⟩ := rules_compile hb h₁
    rw [ih children h, nodes, List.map_cons, List.sum_cons, Nat.add_assoc]

theorem compile_nodes {token : Nat} {rules : List (SourceId × List RuleSpec)} {botUsernames : List (SourceId × Option Str)}
    {table : RouteTable m} (h : RouteTable.compile token rules botUsernames = .ok table) :
    table.nodes.length = (rules.map fun entry => nodeCount entry.2).sum := by
  rw [RouteTable.compile] at h
  obtain ⟨⟨sources, b⟩, hs, h⟩ := bind_eq_ok.mp h
  obtain ⟨_, -, h⟩ := bind_eq_ok.mp h
  obtain ⟨_, -, h⟩ := bind_eq_ok.mp h
  cases h
  exact (sources_nodes (b := .empty) (Nat.le_refl 0) hs).trans (Nat.zero_add _)

end Tgin.Rules

/-- How many nodes the rules of all bots take up in a route table. -/
def Tgin.Config.nodes (cfg : Config) : Nat := (cfg.bots.map fun bot => Rules.nodeCount bot.rules).sum

namespace Tgin.Engine
open Queue Rules Config

variable {m : Matchers} {isMatch : Str → Str → Bool} {owns : m.Regex → m.Cache → Prop}

/-! ### Where updates go -/

/-- Whatever routing on the state comes to, a rule of the update's bot targets it. -/
def EngineState.Routes (state : EngineState m) (slots : Nat → Slot) : Prop :=
  ∀ source facts cursors scratch i ids, (state.table.route source facts cursors scratch).1 = (some i, ids) →
    ∀ t ∈ visits state.targets ids, state.feeds source (slots t.slot).name = true

/-- What a state's consumers and targets have in common. -/
def EngineState.Matched (state : EngineState m) (slots : Nat → Slot) : Prop :=
  List.Forall₂ (fun c t => (slots t.slot).name = c.name) state.config.consumers state.targets

theorem EngineState.Matched.at {state : EngineState m} {slots : Nat → Slot} (h : state.Matched slots) {i : Nat} {t : Target}
    (at' : state.targets[i]? = some t) : ∃ c ∈ state.config.consumers, c.id.toNat = i ∧ (slots t.slot).name = c.name := by
  obtain ⟨lt, rfl⟩ := List.getElem?_eq_some_iff.mp at'
  have lt' : i < state.config.consumers.length := h.length_eq ▸ lt
  refine ⟨state.config.consumers[i], List.getElem_mem lt', ?_, (List.forall₂_iff_get.mp h).2 i lt' lt⟩
  have ids := congrArg (·[i]?) state.config.ids
  simpa [lt'] using ids

theorem mem_visits {targets : List Target} {ids : List ConsumerId} {t : Target} (mem : t ∈ visits targets ids) :
    ∃ id ∈ ids, targets[id.toNat]? = some t := by
  obtain ⟨pass, -, mem⟩ := List.mem_flatMap.mp mem
  exact List.mem_filterMap.mp (List.mem_filter.mp mem).1

/-- A table compiled from the rules of the bots routes an update to what its bot's rules target. -/
theorem routes_compiled (lawful : m.Lawful isMatch owns) {state : EngineState m} {slots : Nat → Slot} (matched : state.Matched slots)
    {token : Nat} {rules : List (SourceId × List RuleSpec)} {botUsernames : List (SourceId × Option Str)}
    (compiled : RouteTable.compile token rules botUsernames = .ok state.table)
    (small : (rules.map fun entry => nodeCount entry.2).sum < 2 ^ 32)
    (own : ∀ entry ∈ rules, ∃ bot ∈ state.config.bots, entry.2 = bot.rules ∧
      ∃ info, state.source entry.1 = some info ∧ bot.name = info.name) : state.Routes slots := by
  intro source facts cursors scratch i ids routed t visited
  obtain ⟨b, table⟩ := compile_compiles compiled
  obtain ⟨entry, spec, lo, tickets, found, hspec, -, -, rfl⟩ :=
    route_walks lawful table (compile_nodes compiled ▸ small) routed
  obtain ⟨id, hid, at'⟩ := mem_visits visited
  obtain ⟨c, hc, same, name⟩ := matched.at at'
  obtain rfl : c.id = id := UInt16.toNat_inj.mp same
  obtain ⟨bot, hb, rules, info, hs, hname⟩ := own entry (List.mem_of_find?_eq_some found)
  obtain rfl : entry.1 = source := by simpa using List.find?_some found
  have reached := RuleSpec.reaches_target (TargetSpec.denote_reaches spec.target (List.mem_eraseDups.mp hid))
  rw [name]
  refine (feeds_iff hc).mpr ⟨info, hs, bot, hb, hname, List.any_eq_true.mpr ⟨spec, ?_, reached⟩⟩
  exact rules ▸ List.mem_of_getElem? hspec

namespace Sourced
variable {state : EngineState m}

/-- No two sources have one name. -/
theorem names_nodup (h : Sourced state) : (state.sources.reduceOption.map (·.name)).Nodup := by
  rw [List.Nodup, List.pairwise_map]
  refine List.Pairwise.filterMap _ (R := fun a b => ∀ x ∈ a, ∀ y ∈ b, SourceInfo.name x ≠ SourceInfo.name y)
    (fun _ _ ne x hx y hy => ne x hx y hy) (List.pairwise_iff_getElem.mpr fun i j hi hj lt x hx y hy same => ?_)
  have at' (k : Nat) (hk : k < state.sources.length) {z : SourceInfo} (hz : z ∈ state.sources[k]) :
      ∃ id : SourceId, id.toNat = k ∧ state.source id = some z := by
    have few : k < 2 ^ 16 := Nat.lt_of_lt_of_le hk (h.length ▸ h.few)
    refine ⟨UInt16.ofNat k, UInt16.toNat_ofNat_of_lt' few, source_eq_some.mpr ?_⟩
    rw [UInt16.toNat_ofNat_of_lt' few, List.getElem?_eq_getElem hk, Option.mem_def.mp hz]
  obtain ⟨id, rfl, hs⟩ := at' i hi hx
  obtain ⟨id', rfl, hs'⟩ := at' j hj hy
  exact Nat.lt_irrefl _ (h.unique hs hs' same ▸ lt)

/-- The bots of the sources, each once. -/
theorem bots_subperm (h : Sourced state) :
    (state.sources.reduceOption.filterMap fun info => state.config.bots.find? (·.name = info.name)).Subperm state.config.bots := by
  refine List.subperm_of_subset (List.Pairwise.filterMap _ (fun a a' ne b hb b' hb' same => ?_) (List.pairwise_map.mp h.names_nodup))
    fun bot mem => ?_
  · have name : b.name = a.name := by simpa using List.find?_some hb
    have name' : b'.name = a'.name := by simpa using List.find?_some hb'
    exact ne (name.symm.trans (same ▸ name'))
  · obtain ⟨info, -, found⟩ := List.mem_filterMap.mp mem
    exact List.mem_of_find?_eq_some found

end Sourced

/-- A state whose table is compiled from its config routes an update to what its bot's rules target. -/
theorem routes_settled (lawful : m.Lawful isMatch owns) {state : EngineState m} (sourced : Sourced state) (compiled : state.Compiled)
    {slots : Nat → Slot} (matched : state.Matched slots) (small : state.config.nodes < 2 ^ 32) : state.Routes slots := by
  obtain ⟨token, bots, perm, table⟩ := compiled
  refine routes_compiled lawful matched table (Nat.lt_of_le_of_lt ?_ small) fun entry mem => ?_
  · obtain ⟨list, same, sublist⟩ := sourced.bots_subperm
    have le := (sublist.map fun bot => nodeCount bot.rules).sum_le_sum fun _ _ => Nat.zero_le _
    rw [ (same.map _).sum_eq] at le
    rw [List.map_map, (perm.map _).sum_eq]
    refine Nat.le_trans (Nat.le_of_eq (congrArg List.sum ?_)) le
    rw [EngineState.bound, List.map_filterMap, List.map_filterMap]
    simp only [Option.map_map, Function.comp_def]
  · obtain ⟨⟨info, bot⟩, hpair, rfl⟩ := List.mem_map.mp mem
    obtain ⟨hs, hb, name⟩ := (mem_bound sourced).mp (perm.subset hpair)
    exact ⟨bot, hb, rfl, info, hs, name⟩

end Tgin.Engine
