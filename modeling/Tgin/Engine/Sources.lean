import Mathlib.Data.List.ReduceOption
import Tgin.Engine.Control
import Tgin.Rules.Route

/-! Source ids: a bot keeps its id while it is configured, and an id is never given to a second bot. -/

namespace Tgin.Engine
open Queue Rules

variable {m : Matchers}

/-- What holds of the sources of a state: each sits at its id, under the name that was given the id, and there is
    one for every bot configured. -/
structure Sourced (state : EngineState m) : Prop where
  length : state.sources.length = state.sourceNames.length
  few : state.sourceNames.length ≤ 2 ^ 16
  id : ∀ {id info}, state.source id = some info → info.id = id ∧ state.sourceNames[id.toNat]? = some info.name
  unique : ∀ {id id' info info'}, state.source id = some info → state.source id' = some info' →
    info.name = info'.name → id = id'
  configured : ∀ name, name ∈ state.config.bots.map (·.name) ↔ ∃ id info, state.source id = some info ∧ info.name = name

section Lookups
variable {state : EngineState m}

theorem source_eq_some {id : SourceId} {info : SourceInfo} :
    state.source id = some info ↔ state.sources[id.toNat]? = some (some info) := by
  unfold EngineState.source
  cases state.sources[id.toNat]? <;> simp

namespace Sourced

theorem lt (h : Sourced state) {id : SourceId} {info : SourceInfo} (hs : state.source id = some info) :
    id.toNat < state.sourceNames.length := (List.getElem?_eq_some_iff.mp (h.id hs).2).1

theorem mem_sources (h : Sourced state) {info : SourceInfo} :
    info ∈ state.sources.reduceOption ↔ state.source info.id = some info := by
  rw [List.reduceOption_mem_iff, List.mem_iff_getElem?]
  constructor
  · rintro ⟨i, hi⟩
    have lt : i < 2 ^ 16 := by
      have := (List.getElem?_eq_some_iff.mp hi).1
      exact Nat.lt_of_lt_of_le this (h.length ▸ h.few)
    have source : state.source (UInt16.ofNat i) = some info := by
      rw [source_eq_some, UInt16.toNat_ofNat_of_lt' lt, hi]
    rwa [(h.id source).1]
  · exact fun hs => ⟨_, source_eq_some.mp hs⟩

/-- What `sourceNamed` finds is a source of that name. -/
theorem of_sourceNamed (h : Sourced state) {name : Str} {info : SourceInfo} (hn : state.sourceNamed name = some info) :
    state.source info.id = some info ∧ info.name = name := by
  unfold EngineState.sourceNamed at hn
  exact ⟨h.mem_sources.mp (List.mem_of_find?_eq_some hn), by simpa using List.find?_some hn⟩

theorem sourceNamed (h : Sourced state) {name : Str} {info : SourceInfo} :
    state.sourceNamed name = some info ↔ state.source info.id = some info ∧ info.name = name := by
  refine ⟨h.of_sourceNamed, ?_⟩
  rintro ⟨hs, rfl⟩
  cases hn : state.sourceNamed info.name with
  | none =>
    unfold EngineState.sourceNamed at hn
    exact absurd (List.find?_eq_none.mp hn info (h.mem_sources.mpr hs)) (by simp)
  | some other =>
    obtain ⟨hother, hname⟩ := h.of_sourceNamed hn
    rw [h.unique hother hs hname, hs] at hother
    exact hother.symm

theorem sourceNamed_isSome (h : Sourced state) (name : Str) :
    (state.sourceNamed name).isSome ↔ name ∈ state.config.bots.map (·.name) := by
  rw [h.configured, Option.isSome_iff_exists]
  constructor
  · rintro ⟨info, hn⟩
    exact ⟨_, info, h.sourceNamed.mp hn⟩
  · rintro ⟨id, info, hs, hname⟩
    exact ⟨info, h.sourceNamed.mpr ⟨(h.id hs).1 ▸ hs, hname⟩⟩

end Sourced

end Lookups

/-! ### Giving ids out -/

namespace Plan
variable {old : Option (EngineState m)} {list : List Config.Bot} {names names' : List Str} {planned : List PlannedBot}

/-- The id a bot of that name keeps. -/
def known (old : Option (EngineState m)) (name : Str) : Option SourceInfo := old.bind (·.sourceNamed name)

/-- What the loop over the bots answers: each bot keeps its id, or gets the next one with its name appended. -/
inductive Given (old : Option (EngineState m)) : List Config.Bot → List Str → List PlannedBot → List Str → Prop where
  | nil (names : List Str) : Given old [] names [] names
  | kept {bot : Config.Bot} {rest : List Config.Bot} {names names' : List Str} {planned : List PlannedBot}
    {info : SourceInfo} (username : Option Str) (hk : known old bot.name = some info)
    (tail : Given old rest names planned names') :
    Given old (bot :: rest) names ({ id := info.id, config := bot, username } :: planned) names'
  | fresh {bot : Config.Bot} {rest : List Config.Bot} {names names' : List Str} {planned : List PlannedBot} {id : SourceId}
    (hk : known old bot.name = none) (hid : id.toNat = names.length)
    (tail : Given old rest (names ++ [bot.name]) planned names') :
    Given old (bot :: rest) names ({ id, config := bot, username := none } :: planned) names'

theorem bots_given (h : bots old list names = .ok (planned, names')) : Given old list names planned names' := by
  induction list generalizing names planned names' with
  | nil =>
    cases h
    exact .nil _
  | cons bot rest ih =>
    rw [bots] at h
    cases hk : old.bind (·.sourceNamed bot.name) with
    | some info =>
      simp only [hk] at h
      obtain ⟨⟨tail, names''⟩, ht, h⟩ := Rules.bind_eq_ok.mp h
      cases h
      exact .kept _ hk (ih ht)
    | none =>
      simp only [hk] at h
      split at h
      · rename_i lt
        obtain ⟨⟨tail, names''⟩, ht, h⟩ := Rules.bind_eq_ok.mp h
        cases h
        exact .fresh hk (UInt16.toNat_ofNat_of_lt' lt) (ih ht)
      · cases h

/-- With more new bots than ids left, the loop gives up. -/
theorem bots_exhausted (few : names.length ≤ 2 ^ 16)
    (h : 2 ^ 16 < names.length + list.countP fun bot => (known old bot.name).isNone) :
    bots old list names = .error .sourceIdsExhausted := by
  induction list generalizing names with
  | nil => exact absurd h (Nat.not_lt.mpr few)
  | cons bot rest ih =>
    unfold bots
    cases hk : old.bind (·.sourceNamed bot.name) with
    | some info =>
      rw [List.countP_cons_of_neg (by simp [known, hk])] at h
      dsimp only
      rw [ih few h]
      rfl
    | none =>
      rw [List.countP_cons_of_pos (by simp [known, hk])] at h
      dsimp only
      split
      · rename_i lt
        have longer : (names ++ [bot.name]).length = names.length + 1 := by simp
        rw [ih (longer ▸ lt) (by rw [longer]; omega)]
        rfl
      · rfl

namespace Given

theorem configs (h : Given old list names planned names') : planned.map (·.config) = list := by
  induction h with
  | nil => rfl
  | kept _ _ _ ih => rw [List.map_cons, ih]
  | fresh _ _ _ ih => rw [List.map_cons, ih]

theorem grows (h : Given old list names planned names') : names <+: names' := by
  induction h with
  | nil => exact List.prefix_rfl
  | kept _ _ _ ih => exact ih
  | fresh _ _ _ ih => exact (List.prefix_append ..).trans ih

theorem few (h : Given old list names planned names') (le : names.length ≤ 2 ^ 16) : names'.length ≤ 2 ^ 16 := by
  induction h with
  | nil => exact le
  | kept _ _ _ ih => exact ih le
  | @fresh _ _ names _ _ id _ hid _ ih =>
    refine ih ?_
    rw [List.length_append, List.length_singleton]
    exact Nat.succ_le_of_lt (hid ▸ id.toNat_lt)

/-- Where the id of a planned bot comes from. -/
theorem id (h : Given old list names planned names') {b : PlannedBot} (hb : b ∈ planned) :
    (∃ info, known old b.config.name = some info ∧ b.id = info.id) ∨
      known old b.config.name = none ∧ names.length ≤ b.id.toNat ∧ names'[b.id.toNat]? = some b.config.name := by
  induction h with
  | nil => cases hb
  | kept _ hk _ ih =>
    rcases List.mem_cons.mp hb with rfl | hb
    · exact .inl ⟨_, hk, rfl⟩
    · exact ih hb
  | @fresh bot _ names _ _ id hk hid tail ih =>
    rcases List.mem_cons.mp hb with rfl | hb
    · refine .inr ⟨hk, hid.ge, ?_⟩
      obtain ⟨rest, hrest⟩ := tail.grows
      rw [hid, ← hrest, List.append_assoc, List.getElem?_append_right le_rfl, Nat.sub_self]
      rfl
    · refine (ih hb).imp_right fun ⟨hk, le, hn⟩ => ⟨hk, ?_, hn⟩
      rw [List.length_append] at le
      exact Nat.le_of_add_right_le le

/-- Bots of different names get different ids, when the ids kept are different and were given out before. -/
theorem ids_nodup (h : Given old list names planned names') (nodup : (list.map (·.name)).Nodup)
    (before : ∀ {name info}, known old name = some info → info.id.toNat < names.length)
    (unique : ∀ {name name' info info'}, known old name = some info → known old name' = some info' → info.id = info'.id →
      name = name') : (planned.map (·.id)).Nodup := by
  induction h with
  | nil => exact List.nodup_nil
  | @kept bot rest names _ planned info _ hk tail ih =>
    rw [List.map_cons, List.nodup_cons] at nodup ⊢
    refine ⟨fun hmem => ?_, ih nodup.2 before⟩
    obtain ⟨b, hb, hid⟩ := List.mem_map.mp hmem
    rcases tail.id hb with ⟨info', hk', hid'⟩ | ⟨-, le, -⟩
    · refine nodup.1 (List.mem_map.mpr ⟨b.config, ?_, unique hk' hk (hid' ▸ hid)⟩)
      exact tail.configs ▸ List.mem_map_of_mem hb
    · exact absurd (before hk) (Nat.not_lt.mpr (le.trans (congrArg UInt16.toNat hid).le))
  | @fresh bot rest names _ planned id hk hid tail ih =>
    rw [List.map_cons, List.nodup_cons] at nodup ⊢
    have before' {name info} (hk : known old name = some info) : info.id.toNat < (names ++ [bot.name]).length :=
      Nat.lt_of_lt_of_le (before hk) (by simp)
    refine ⟨fun hmem => ?_, ih nodup.2 before'⟩
    obtain ⟨b, hb, hid'⟩ := List.mem_map.mp hmem
    have here : b.id.toNat = names.length := (congrArg UInt16.toNat hid').trans hid
    rcases tail.id hb with ⟨info', hk', hid'⟩ | ⟨-, le, -⟩
    · exact absurd (before hk') (by rw [← hid', here]; exact Nat.lt_irrefl _)
    · rw [here, List.length_append] at le
      exact absurd le (by simp)

end Given

theorem foldl_set_length (planned : List PlannedBot) (acc : List (Option SourceInfo)) :
    (planned.foldl (fun acc b => acc.set b.id.toNat (some b.info)) acc).length = acc.length := by
  induction planned generalizing acc with
  | nil => rfl
  | cons b planned ih => exact (ih _).trans List.length_set

theorem foldl_set_of_mem {planned : List PlannedBot} {acc : List (Option SourceInfo)} {i : Nat} {x : Option SourceInfo}
    (h : (planned.foldl (fun acc b => acc.set b.id.toNat (some b.info)) acc)[i]? = some x) :
    acc[i]? = some x ∨ ∃ b ∈ planned, b.id.toNat = i ∧ x = some b.info := by
  induction planned generalizing acc with
  | nil => exact .inl h
  | cons b planned ih =>
    rcases ih h with h | ⟨b', hb', h⟩
    · by_cases hi : b.id.toNat = i
      · rw [List.getElem?_set, if_pos hi] at h
        split at h <;> cases h
        exact .inr ⟨b, List.mem_cons_self, hi, rfl⟩
      · rw [List.getElem?_set_ne hi] at h
        exact .inl h
    · exact .inr ⟨b', List.mem_cons_of_mem _ hb', h⟩

theorem foldl_set_of_notMem {planned : List PlannedBot} {acc : List (Option SourceInfo)} {i : Nat}
    (h : ∀ b ∈ planned, b.id.toNat ≠ i) :
    (planned.foldl (fun acc b => acc.set b.id.toNat (some b.info)) acc)[i]? = acc[i]? := by
  induction planned generalizing acc with
  | nil => rfl
  | cons b planned ih =>
    rw [List.foldl_cons, ih fun b' hb' => h b' (List.mem_cons_of_mem _ hb')]
    exact List.getElem?_set_ne (h b List.mem_cons_self)

/-- A planned bot sits at its id. -/
theorem foldl_set_self {planned : List PlannedBot} {acc : List (Option SourceInfo)} (nodup : (planned.map (·.id)).Nodup)
    {b : PlannedBot} (hb : b ∈ planned) (lt : b.id.toNat < acc.length) :
    (planned.foldl (fun acc b => acc.set b.id.toNat (some b.info)) acc)[b.id.toNat]? = some (some b.info) := by
  induction planned generalizing acc with
  | nil => cases hb
  | cons b' planned ih =>
    rw [List.map_cons, List.nodup_cons] at nodup
    rcases List.mem_cons.mp hb with rfl | hb
    · rw [List.foldl_cons, foldl_set_of_notMem, List.getElem?_set_self lt]
      intro b' hb' same
      exact nodup.1 (List.mem_map.mpr ⟨b', hb', UInt16.toNat_inj.mp same⟩)
    · exact ih nodup.2 hb (by rwa [List.length_set])

end Plan

/-- The steps of a plan that builds. -/
theorem Plan.build_steps {cfg : Config} {old : Option (EngineState m)} {retired : List Nat} {slots slots' : Nat → Slot}
    {allocated allocated' token : Nat} {state : EngineState m} {changes : Changes}
    (h : Plan.build cfg old retired slots allocated token = .ok (state, changes, slots', allocated')) :
    state.config = cfg ∧
      (∃ planned, Plan.bots old cfg.bots ((old.map (·.sourceNames)).getD []) = .ok (planned, state.sourceNames) ∧
        RouteTable.compile token (planned.map fun b => (b.id, b.config.rules)) (planned.map fun b => (b.id, b.username)) =
          .ok state.table ∧
        state.sources = Plan.sources planned state.sourceNames.length) ∧
      ∃ d, d = cfg.consumers.foldl (Plan.consumer old slots retired
            (old.any fun old => old.sourceNames.length ≠ state.sourceNames.length) state.sourceNames)
          { changes := { live := [], started := [], revived := [], retiring := [] }, targets := [], slots, allocated } ∧
        state.targets = d.targets ∧ slots' = d.slots ∧ allocated' = d.allocated ∧
        changes = { d.changes with retiring := d.changes.retiring ++ Plan.removed cfg old slots } := by
  unfold Plan.build at h
  obtain ⟨⟨planned, names⟩, hbots, h⟩ := bind_eq_ok.mp h
  obtain ⟨table, htable, h⟩ := bind_eq_ok.mp h
  cases h
  exact ⟨rfl, ⟨planned, hbots, mapError_eq_ok.mp htable, rfl⟩, _, rfl, rfl, rfl, rfl, rfl⟩

/-- What a plan that builds consists of. -/
theorem Plan.build_eq_ok {cfg : Config} {old : Option (EngineState m)} {retired : List Nat} {slots slots' : Nat → Slot}
    {allocated allocated' token : Nat} {state : EngineState m} {changes : Changes}
    (h : Plan.build cfg old retired slots allocated token = .ok (state, changes, slots', allocated')) :
    ∃ planned, Plan.Given old cfg.bots ((old.map (·.sourceNames)).getD []) planned state.sourceNames ∧
      state.config = cfg ∧ state.sources = Plan.sources planned state.sourceNames.length ∧
      ∃ namesGrew, ∃ d, d = cfg.consumers.foldl (Plan.consumer old slots retired namesGrew state.sourceNames)
          { changes := { live := [], started := [], revived := [], retiring := [] }, targets := [], slots, allocated } ∧
        state.targets = d.targets ∧ slots' = d.slots ∧ allocated' = d.allocated ∧
        changes = { d.changes with retiring := d.changes.retiring ++ Plan.removed cfg old slots } := by
  obtain ⟨config, ⟨planned, hbots, -, sources⟩, drafted⟩ := build_steps h
  exact ⟨planned, bots_given hbots, config, sources, _, drafted⟩

/-! ### What a step does to the ids -/

/-- The ids given out so far keep their names, a bot still configured keeps its id, and the id of a bot that is
    gone is never used again. -/
structure Continues (state state' : EngineState m) : Prop where
  names : state.sourceNames <+: state'.sourceNames
  kept : ∀ {name info}, state.sourceNamed name = some info → name ∈ state'.config.bots.map (·.name) →
    ∃ info', state'.sourceNamed name = some info' ∧ info'.id = info.id
  gone : ∀ {id : SourceId}, id.toNat < state.sourceNames.length → state.source id = none → state'.source id = none

/-- A source is one of the bots of the plan. -/
theorem source_planned {state : EngineState m} {planned : List PlannedBot}
    (hsources : state.sources = Plan.sources planned state.sourceNames.length) (nodup : (planned.map (·.id)).Nodup)
    (inRange : ∀ b ∈ planned, b.id.toNat < state.sourceNames.length) {id : SourceId} {info : SourceInfo} :
    state.source id = some info ↔ ∃ b ∈ planned, b.id = id ∧ info = b.info := by
  rw [source_eq_some, hsources]
  constructor
  · intro h
    rcases Plan.foldl_set_of_mem h with h | ⟨b, hb, hid, hinfo⟩
    · rw [List.getElem?_replicate] at h
      split at h <;> cases h
    · exact ⟨b, hb, UInt16.toNat_inj.mp hid, Option.some.inj hinfo⟩
  · rintro ⟨b, hb, rfl, rfl⟩
    exact Plan.foldl_set_self nodup hb (by rw [List.length_replicate]; exact inRange b hb)

section Build
variable {old : Option (EngineState m)} {state : EngineState m} {planned : List PlannedBot}

/-- The names of the ids given out before. -/
def givenNames (old : Option (EngineState m)) : List Str := (old.map (·.sourceNames)).getD []

theorem known_spec (hold : ∀ o ∈ old, Sourced o) {name : Str} {info : SourceInfo} (hk : Plan.known old name = some info) :
    (givenNames old)[info.id.toNat]? = some name ∧ ∃ o ∈ old, o.source info.id = some info ∧ info.name = name := by
  obtain ⟨o, rfl, hn⟩ := Option.bind_eq_some_iff.mp hk
  obtain ⟨hs, rfl⟩ := (hold o rfl).of_sourceNamed hn
  exact ⟨((hold o rfl).id hs).2, o, rfl, hs, rfl⟩

variable (hold : ∀ o ∈ old, Sourced o)
  (given : Plan.Given old state.config.bots (givenNames old) planned state.sourceNames)

include hold given

/-- The id of a planned bot is in range, under the bot's name. -/
theorem planned_name {b : PlannedBot} (hb : b ∈ planned) : state.sourceNames[b.id.toNat]? = some b.config.name := by
  rcases given.id hb with ⟨info, hk, hid⟩ | ⟨-, -, hn⟩
  · obtain ⟨rest, hrest⟩ := given.grows
    obtain ⟨hn, -⟩ := known_spec hold hk
    rw [hid, ← hrest, List.getElem?_append_left (List.getElem?_eq_some_iff.mp hn).1, hn]
  · exact hn

theorem planned_nodup : (planned.map (·.id)).Nodup := by
  refine given.ids_nodup state.config.botNames ?_ ?_
  · exact fun hk => (List.getElem?_eq_some_iff.mp (known_spec hold hk).1).1
  · intro name name' info info' hk hk' hid
    obtain ⟨hn, -⟩ := known_spec hold hk
    obtain ⟨hn', -⟩ := known_spec hold hk'
    rw [hid] at hn
    exact Option.some.inj (hn.symm.trans hn')

variable (hsources : state.sources = Plan.sources planned state.sourceNames.length)

include hsources

theorem source_built {id : SourceId} {info : SourceInfo} :
    state.source id = some info ↔ ∃ b ∈ planned, b.id = id ∧ info = b.info :=
  source_planned hsources (planned_nodup hold given) fun _ hb =>
    (List.getElem?_eq_some_iff.mp (planned_name hold given hb)).1

/-- The state built has its sources in order. -/
theorem sourced_build : Sourced state where
  length := by rw [hsources, Plan.sources, Plan.foldl_set_length, List.length_replicate]
  few := by
    refine given.few ?_
    cases old with
    | none => exact Nat.zero_le _
    | some o => exact (hold o rfl).few
  id h := by
    obtain ⟨b, hb, rfl, rfl⟩ := (source_built hold given hsources).mp h
    exact ⟨rfl, planned_name hold given hb⟩
  unique h h' same := by
    obtain ⟨b, hb, rfl, rfl⟩ := (source_built hold given hsources).mp h
    obtain ⟨b', hb', rfl, rfl⟩ := (source_built hold given hsources).mp h'
    have nodup : (planned.map (·.config.name)).Nodup := by
      have := state.config.botNames
      rwa [← given.configs, List.map_map] at this
    rw [List.inj_on_of_nodup_map nodup hb hb' same]
  configured name := by
    rw [← given.configs, List.map_map, List.mem_map]
    constructor
    · rintro ⟨b, hb, rfl⟩
      exact ⟨b.id, b.info, (source_built hold given hsources).mpr ⟨b, hb, rfl, rfl⟩, rfl⟩
    · rintro ⟨id, info, hs, rfl⟩
      obtain ⟨b, hb, -, rfl⟩ := (source_built hold given hsources).mp hs
      exact ⟨b, hb, rfl⟩

end Build

/-- The state a reload builds continues the one before. -/
theorem continues_build {old state : EngineState m} {planned : List PlannedBot} (hold : Sourced old)
    (given : Plan.Given (some old) state.config.bots old.sourceNames planned state.sourceNames)
    (hsources : state.sources = Plan.sources planned state.sourceNames.length) : Continues old state := by
  have hold' : ∀ o ∈ some old, Sourced o := by rintro _ ⟨⟩; exact hold
  have sourced := sourced_build hold' given hsources
  refine ⟨given.grows, ?_, ?_⟩
  · intro name info hn hconf
    obtain ⟨id, info', hs, rfl⟩ := (sourced.configured name).mp hconf
    obtain ⟨b, hb, rfl, rfl⟩ := (source_built hold' given hsources).mp hs
    refine ⟨b.info, sourced.sourceNamed.mpr ⟨hs, rfl⟩, ?_⟩
    rcases given.id hb with ⟨kept, hk, hid⟩ | ⟨hk, -⟩
    · cases hn.symm.trans hk
      exact hid
    · cases hn.symm.trans hk
  · intro id lt hnone
    rw [Option.eq_none_iff_forall_not_mem]
    intro info hs
    obtain ⟨b, hb, rfl, -⟩ := (source_built hold' given hsources).mp hs
    rcases given.id hb with ⟨kept, hk, hid⟩ | ⟨-, le, -⟩
    · obtain ⟨-, o, ⟨⟩, hs, -⟩ := known_spec hold' hk
      rw [hid, hs] at hnone
      cases hnone
    · exact absurd lt (Nat.not_lt.mpr le)

/-- What a new engine consists of. -/
theorem Shared.new_eq_ok {cfg : Config} {tokenKeys : Str → Nat} {engine : Shared m}
    (h : Shared.new cfg tokenKeys = .ok engine) :
    ∃ (shared : Shared m) (slots : Nat → Slot) (changes : Changes),
      Plan.build cfg none [] slots 0 0 = .ok (shared.state, changes, shared.slots, shared.allocated) ∧
      shared.retired = [] ∧ engine = shared.commit none changes ∧ shared.tokenKeys = tokenKeys ∧
      ∃ queue, ∀ i, slots i = .new 0 [] .pull queue := by
  unfold Shared.new at h
  obtain ⟨⟨state, changes, slots, allocated⟩, hbuild, h⟩ := bind_eq_ok.mp h
  cases h
  exact ⟨_, _, changes, hbuild, rfl, rfl, rfl, _, fun _ => rfl⟩

/-- A reload is rejected and changes nothing, or its plan is committed. -/
theorem Shared.apply_cases (shared : Shared m) (new : Config) :
    (∃ error, shared.apply new = (.error error, shared)) ∨
      ∃ state changes slots allocated,
        Plan.build new (some shared.state) shared.retired shared.slots shared.allocated shared.tables =
          .ok (state, changes, slots, allocated) ∧
        shared.apply new = (.ok state.generation,
          { shared with slots, allocated, tables := shared.tables + 1 }.commit (some state) changes) := by
  unfold Shared.apply
  cases h : Plan.build new (some shared.state) shared.retired shared.slots shared.allocated shared.tables with
  | error error => exact .inl ⟨error, rfl⟩
  | ok plan => exact .inr ⟨_, _, _, _, rfl, rfl⟩

theorem Continues.refl (state : EngineState m) : Continues state state :=
  ⟨List.prefix_rfl, fun hn _ => ⟨_, hn, rfl⟩, fun _ hs => hs⟩

/-- Setting a username changes neither ids nor names. -/
theorem source_setUsername (shared : Shared m) (source : SourceId) (username : Option Str) (id : SourceId) :
    let state' := (shared.setUsername source username).state
    state'.sources.length = shared.state.sources.length ∧ state'.sourceNames = shared.state.sourceNames ∧
      state'.config = shared.state.config ∧
      (state'.source id).map (fun info => (info.id, info.name)) =
        (shared.state.source id).map fun info => (info.id, info.name) := by
  unfold Shared.setUsername
  dsimp only
  cases hs : shared.state.source source with
  | none => exact ⟨rfl, rfl, rfl, rfl⟩
  | some info =>
    dsimp only
    split
    · exact ⟨rfl, rfl, rfl, rfl⟩
    · split
      · exact ⟨rfl, rfl, rfl, rfl⟩
      · refine ⟨List.length_set, rfl, rfl, ?_⟩
        by_cases hid : id = source
        · rw [hid, hs]
          simp only [EngineState.source]
          rw [List.getElem?_set_self (List.getElem?_eq_some_iff.mp (source_eq_some.mp hs)).1]
          rfl
        · simp only [EngineState.source]
          rw [List.getElem?_set_ne fun h => hid (UInt16.toNat_inj.mp h).symm]

/-- The sources with their names are all that the invariant is about. -/
theorem Sourced.congr {state state' : EngineState m} (h : Sourced state)
    (length : state'.sources.length = state.sources.length) (names : state'.sourceNames = state.sourceNames)
    (config : state'.config = state.config)
    (source : ∀ id, (state'.source id).map (fun info => (info.id, info.name)) =
      (state.source id).map fun info => (info.id, info.name)) : Sourced state' ∧ Continues state state' := by
  have back {id : SourceId} {info' : SourceInfo} (hs : state'.source id = some info') :
      ∃ info, state.source id = some info ∧ info.id = info'.id ∧ info.name = info'.name := by
    have := source id
    rw [hs, Option.map_some] at this
    obtain ⟨info, hs, he⟩ := Option.map_eq_some_iff.mp this.symm
    exact ⟨info, hs, (Prod.mk.inj he).1, (Prod.mk.inj he).2⟩
  have forth {id : SourceId} {info : SourceInfo} (hs : state.source id = some info) :
      ∃ info', state'.source id = some info' ∧ info'.id = info.id ∧ info'.name = info.name := by
    have := source id
    rw [hs, Option.map_some] at this
    obtain ⟨info', hs, he⟩ := Option.map_eq_some_iff.mp this
    exact ⟨info', hs, (Prod.mk.inj he).1, (Prod.mk.inj he).2⟩
  have sourced : Sourced state' := {
    length := by rw [length, names, h.length]
    few := names ▸ h.few
    id := fun hs => by
      obtain ⟨info, hs, hid, hname⟩ := back hs
      rw [← hid, ← hname, names]
      exact h.id hs
    unique := fun hs hs' same => by
      obtain ⟨info, hs, -, hname⟩ := back hs
      obtain ⟨info', hs', -, hname'⟩ := back hs'
      exact h.unique hs hs' (hname.trans (same.trans hname'.symm))
    configured := fun name => by
      rw [config, h.configured]
      constructor
      · rintro ⟨id, info, hs, hname⟩
        obtain ⟨info', hs', -, hname'⟩ := forth hs
        exact ⟨id, info', hs', hname'.trans hname⟩
      · rintro ⟨id, info', hs', hname⟩
        obtain ⟨info, hs, -, hname'⟩ := back hs'
        exact ⟨id, info, hs, hname'.trans hname⟩ }
  refine ⟨sourced, by rw [names], fun hn _ => ?_, fun {id} _ hs => ?_⟩
  · obtain ⟨hs, rfl⟩ := h.of_sourceNamed hn
    obtain ⟨info', hs', hid, hname⟩ := forth hs
    exact ⟨info', sourced.sourceNamed.mpr ⟨hid ▸ hs', hname⟩, hid⟩
  · have := source id
    rw [hs, Option.map_none] at this
    exact Option.map_eq_none_iff.mp this

/-- Every step keeps the sources in order and continues their ids. -/
theorem control_sourced (shared : Shared m) (control : Control) (h : Sourced shared.state) :
    Sourced (shared.control control).state ∧ Continues shared.state (shared.control control).state := by
  cases control with
  | apply new =>
    rcases shared.apply_cases new with ⟨error, happly⟩ | ⟨state, changes, slots, allocated, hbuild, happly⟩ <;>
      simp only [Shared.control, happly]
    · exact ⟨h, .refl _⟩
    · obtain ⟨planned, given, hconfig, hsources, -⟩ := Plan.build_eq_ok hbuild
      rw [← hconfig] at given
      exact ⟨sourced_build (by rintro _ ⟨⟩; exact h) given hsources, continues_build h given hsources⟩
  | retire slot drain =>
    have same : (shared.control (.retire slot drain)).state = shared.state := by
      rcases shared.retire_cases slot drain with ⟨tasks, h⟩ | ⟨-, h⟩ <;> rw [h]
      rfl
    rw [same]
    exact ⟨h, .refl _⟩
  | setRuntimeEndpoint consumer source token endpoint =>
    have same : (shared.control (.setRuntimeEndpoint consumer source token endpoint)).state = shared.state :=
      shared.setRuntimeEndpoint_state consumer source token endpoint
    rw [same]
    exact ⟨h, .refl _⟩
  | setUsername source username =>
    obtain ⟨length, names, config, -⟩ := source_setUsername shared source username 0
    exact h.congr length names config fun id => (source_setUsername shared source username id).2.2.2

theorem new_sourced {cfg : Config} {tokenKeys : Str → Nat} {engine : Shared m}
    (made : Shared.new cfg tokenKeys = .ok engine) : Sourced engine.state := by
  obtain ⟨shared, slots, changes, hbuild, -, rfl, -⟩ := Shared.new_eq_ok made
  obtain ⟨planned, given, hconfig, hsources, -⟩ := Plan.build_eq_ok hbuild
  rw [← hconfig] at given
  have same : (shared.commit none changes).state = shared.state := shared.changeInstances_state changes
  rw [same]
  exact sourced_build (by rintro _ ⟨⟩) given hsources

theorem run_sourced {engine : Shared m} (h : Sourced engine.state) (controls : List Control) :
    Sourced (engine.run controls).state :=
  Shared.run_induction (P := fun shared => Sourced shared.state) h
    (fun shared control h => (control_sourced shared control h).1) controls

/-- An id that a bot has after a run is that bot's already before it, if it was given out before. -/
theorem run_ids {shared : Shared m} (h : Sourced shared.state) (later : List Control) {id : SourceId} {info' : SourceInfo}
    (given : id.toNat < shared.state.sourceNames.length) (hs : (shared.run later).state.source id = some info') :
    ∃ info, shared.state.source id = some info ∧ info.name = info'.name := by
  induction later generalizing shared with
  | nil => exact ⟨info', hs, rfl⟩
  | cons control later ih =>
    obtain ⟨h', next⟩ := control_sourced shared control h
    obtain ⟨info, hs₁, hname⟩ := ih h' (Nat.lt_of_lt_of_le given next.names.length_le) hs
    cases hs₀ : shared.state.source id with
    | none => rw [next.gone given hs₀] at hs₁; cases hs₁
    | some info₀ =>
      refine ⟨info₀, rfl, Option.some.inj ?_⟩
      obtain ⟨rest, hrest⟩ := next.names
      rw [← hname, ← (h'.id hs₁).2, ← (h.id hs₀).2, ← hrest, List.getElem?_append_left given]

/-- In every state of a run every bot configured has an id of its own, which it keeps for as long as it stays
    configured; an id given out is never another bot's later; and with no ids left, or for any other reason, a
    reload is rejected as a whole. -/
theorem run_sourceIds {cfg : Config} {tokenKeys : Str → Nat} {engine : Shared m}
    (made : Shared.new cfg tokenKeys = .ok engine) (controls : List Control) :
    let now := engine.run controls
    (∀ bot ∈ now.state.config.bots, ∃ id, now.sourceId bot.name = some id ∧ id.toNat < now.state.sourceNames.length) ∧
    (∀ bot ∈ now.state.config.bots, ∀ bot' ∈ now.state.config.bots,
      now.sourceId bot.name = now.sourceId bot'.name → bot = bot') ∧
    (∀ (control : Control), ∀ bot ∈ now.state.config.bots, ∀ bot' ∈ (now.control control).state.config.bots,
      bot'.name = bot.name → (now.control control).sourceId bot.name = now.sourceId bot.name) ∧
    (∀ (later : List Control) (id : SourceId), id.toNat < now.state.sourceNames.length →
      ∀ bot' ∈ (now.run later).state.config.bots, (now.run later).sourceId bot'.name = some id →
        ∃ bot ∈ now.state.config.bots, now.sourceId bot.name = some id ∧ bot.name = bot'.name) ∧
    (∀ new : Config, 2 ^ 16 < now.state.sourceNames.length + new.bots.countP (fun bot => (now.sourceId bot.name).isNone) →
      now.apply new = (.error .sourceIdsExhausted, now)) ∧
    ∀ (new : Config) (error : BuildError m), (now.apply new).1 = .error error → (now.apply new).2 = now := by
  intro now
  have sourced : Sourced now.state := run_sourced (new_sourced made) controls
  have has {shared : Shared m} (h : Sourced shared.state) (bot : Config.Bot) (hb : bot ∈ shared.state.config.bots) :
      ∃ info, shared.state.sourceNamed bot.name = some info :=
    Option.isSome_iff_exists.mp ((h.sourceNamed_isSome bot.name).mpr (List.mem_map_of_mem hb))
  refine ⟨fun bot hb => ?_, fun bot hb bot' hb' same => ?_, fun control bot hb bot' hb' same => ?_,
    fun later id given bot' hb' hid => ?_, fun new exhausted => ?_, fun new error herror => ?_⟩
  · obtain ⟨info, hn⟩ := has sourced bot hb
    exact ⟨info.id, by rw [Shared.sourceId, hn]; rfl, sourced.lt (sourced.of_sourceNamed hn).1⟩
  · obtain ⟨info, hn⟩ := has sourced bot hb
    obtain ⟨info', hn'⟩ := has sourced bot' hb'
    obtain ⟨hs, hname⟩ := sourced.of_sourceNamed hn
    obtain ⟨hs', hname'⟩ := sourced.of_sourceNamed hn'
    rw [Shared.sourceId, Shared.sourceId, hn, hn'] at same
    have hid : info.id = info'.id := Option.some.inj same
    rw [hid, hs'] at hs
    refine List.inj_on_of_nodup_map now.state.config.botNames hb hb' ?_
    rw [← hname, ← hname', Option.some.inj hs]
  · obtain ⟨info, hn⟩ := has sourced bot hb
    obtain ⟨-, next⟩ := control_sourced now control sourced
    obtain ⟨info', hn', hid⟩ := next.kept hn (same ▸ List.mem_map_of_mem hb')
    rw [Shared.sourceId, Shared.sourceId, hn, hn', Option.map_some, hid]
    rfl
  · have sourced' := run_sourced sourced later
    obtain ⟨info', hn', hid'⟩ := Option.map_eq_some_iff.mp hid
    obtain ⟨hs', hname'⟩ := sourced'.of_sourceNamed hn'
    obtain ⟨info, hs, hname⟩ := run_ids sourced later given (hid' ▸ hs')
    obtain ⟨bot, hb, hbot⟩ := List.mem_map.mp ((sourced.configured info.name).mpr ⟨id, info, hs, rfl⟩)
    have hbot : bot.name = info.name := hbot
    have hn : now.state.sourceNamed bot.name = some info :=
      sourced.sourceNamed.mpr ⟨(sourced.id hs).1 ▸ hs, hbot.symm⟩
    refine ⟨bot, hb, ?_, hbot.trans (hname.trans hname')⟩
    rw [Shared.sourceId, hn, Option.map_some, (sourced.id hs).1]
  · have hbots : Plan.bots (some now.state) new.bots now.state.sourceNames = .error .sourceIdsExhausted := by
      refine Plan.bots_exhausted sourced.few (lt_of_lt_of_eq exhausted ?_)
      congr 2
      funext bot
      simp [Plan.known, Shared.sourceId]
    have hbuild : Plan.build new (some now.state) now.retired now.slots now.allocated now.tables =
        .error .sourceIdsExhausted := by
      simp only [Plan.build, Option.map_some, Option.getD_some, hbots]
      rfl
    simp only [Shared.apply, hbuild]
  · rcases now.apply_cases new with ⟨error, h⟩ | ⟨state, changes, slots, allocated, -, h⟩ <;> rw [h] at herror ⊢
    cases herror

/-! ### A bot removed and added again -/

/-- A bot whose updates all go to one consumer. -/
def oneRule (name token : Str) (consumer : ConsumerId) : Config.Bot :=
  { name, token, rules := [{ predicates := {}, targets := [.consumer consumer] }] }

/-- A queue of eight updates. -/
def roomy : QueueConfig where
  capacity := 8
  capacityBytes := 1024
  leaseTimeout := 1
  ordering := .none
  onFull := .backpressure

/-- Bot `a` with its pull consumer `p`. -/
def alone : Config where
  bots := [oneRule [97] [1] 0]
  consumers := [{ id := 0, name := [112], kind := .pull { queue := roomy, honorDropPending := false } }]
  botNames := by decide
  tokens := by decide
  consumerNames := by decide
  ids := by decide
  owned := by decide

/-- Bots `a` and `b`, each with its pull consumer. -/
def both : Config where
  bots := [oneRule [97] [1] 0, oneRule [98] [2] 1]
  consumers := [
    { id := 0, name := [112], kind := .pull { queue := roomy, honorDropPending := false } },
    { id := 1, name := [113], kind := .pull { queue := roomy, honorDropPending := false } }]
  botNames := by decide
  tokens := by decide
  consumerNames := by decide
  ids := by decide
  owned := by decide

/-- The engine started with both bots. -/
def bothEngine : Shared literal := (Shared.new both List.length).toOption.get rfl

theorem run_sourceIds_addedAgain :
    bothEngine.sourceId [98] = some 1 ∧ (bothEngine.run [.apply alone, .apply both]).sourceId [98] = some 2 ∧
      ∀ bot ∈ both.bots, (bothEngine.run [.apply alone, .apply both]).sourceId bot.name ≠ some 1 := by
  have made : Shared.new both List.length = .ok bothEngine := rfl
  refine ⟨by decide, by decide, fun bot hb hid => ?_⟩
  obtain ⟨bot', hb', hid', -⟩ := (run_sourceIds made [.apply alone]).2.2.2.1 [.apply both] 1 (by decide) bot hb hid
  obtain rfl := List.mem_singleton.mp hb'
  exact absurd hid' (by decide)

end Tgin.Engine
