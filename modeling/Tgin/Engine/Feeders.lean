import Tgin.Engine.Captures

/-! Who feeds an instance: the bot whose rules target the consumer of a current one, and for a draining pull instance the bot
    that did when a reload retired it. -/

namespace Tgin.Engine
open Queue Rules Config

variable {m : Matchers}

/-- The element of a name, if no other has it. -/
theorem find?_name {α : Type} {name : α → Str} {list : List α} (nodup : (list.map name).Nodup) {a : α} (mem : a ∈ list) :
    list.find? (name · = name a) = some a := by
  cases found : list.find? (name · = name a) with
  | none => exact absurd (List.find?_eq_none.mp found a mem) (by simp)
  | some other =>
    have same : name other = name a := by simpa using List.find?_some found
    rw [List.inj_on_of_nodup_map nodup (List.mem_of_find?_eq_some found) mem same]

theorem feeds_iff {state : EngineState m} {source : SourceId} {c : Config.Consumer} (mem : c ∈ state.config.consumers) :
    state.feeds source c.name = true ↔
      ∃ info, state.source source = some info ∧ ∃ bot ∈ state.config.bots, bot.name = info.name ∧ botTargets bot c.id = true := by
  unfold EngineState.feeds
  rw [find?_name state.config.consumerNames mem]
  cases hs : state.source source with
  | none => simp
  | some info =>
    simp only [Option.some.injEq, exists_eq_left', Option.any_eq_true]
    constructor
    · rintro ⟨bot, found, targets⟩
      exact ⟨bot, List.mem_of_find?_eq_some found, by simpa using List.find?_some found, targets⟩
    · rintro ⟨bot, hb, name, targets⟩
      exact ⟨bot, name ▸ find?_name state.config.botNames hb, targets⟩

/-- Of a consumer that serves one bot, one bot is the feeder. -/
theorem feeds_unique {state : EngineState m} (sourced : Sourced state) {c : Config.Consumer} (mem : c ∈ state.config.consumers)
    (one : c.kind.servesOneBot = true) {source source' : SourceId} (feeds : state.feeds source c.name = true)
    (feeds' : state.feeds source' c.name = true) : source = source' := by
  obtain ⟨info, hs, bot, hb, name, targets⟩ := (feeds_iff mem).mp feeds
  obtain ⟨info', hs', bot', hb', name', targets'⟩ := (feeds_iff mem).mp feeds'
  exact sourced.unique hs hs' (name.symm.trans ((state.config.owned c mem one bot hb bot' hb' targets targets').trans name'))

/-- A consumer that accepts a runtime endpoint serves one bot. -/
theorem servesOneBot_of_accepts {cfg : Config} {c : Config.Consumer} (mem : c ∈ cfg.consumers) (accepts : cfg.accepts c.name = true) :
    c.kind.servesOneBot = true := by
  obtain ⟨other, hother, found⟩ := List.any_eq_true.mp accepts
  simp only [Bool.and_eq_true, decide_eq_true_eq] at found
  obtain rfl := List.inj_on_of_nodup_map cfg.consumerNames hother mem found.1
  cases hkind : other.kind with
  | pull pull => rfl
  | push push =>
    rw [hkind] at found
    exact found.2

/-! ### What a reload notes -/

theorem feeder_feeds {state : EngineState m} {consumer : Str} {source : SourceId} (h : state.feeder consumer = some source) :
    state.feeds source consumer = true := by
  simpa using List.find?_some h

namespace Shared

/-- A loop that changes no field of a slot but those it says. -/
theorem foldl_slot {α β : Type} (field : Slot → β) {f : Shared m → α → Shared m} {i : Nat}
    (step : ∀ shared a, field ((f shared a).slots i) = field (shared.slots i)) (list : List α) (shared : Shared m) :
    field ((list.foldl f shared).slots i) = field (shared.slots i) := foldl_field (fun shared => field (shared.slots i)) step list shared

theorem beginDrain_fedBy (shared : Shared m) (slot i : Nat) :
    ((shared.beginDrain slot).slots i).fedBy =
      if i = slot ∧ (shared.slots i).mode = .pull then shared.state.feeder (shared.slots i).name else (shared.slots i).fedBy := by
  simp only [beginDrain, modify_slots]
  by_cases hi : i = slot
  · subst hi
    rw [Function.update_self]
    simp
  · rw [Function.update_of_ne hi, if_neg fun h => hi h.1]

/-- The instances that begin to drain note who fed them. -/
theorem foldl_beginDrain_fedBy (list : List Nat) (shared : Shared m) (i : Nat) :
    ((list.foldl beginDrain shared).slots i).fedBy =
      if i ∈ list ∧ (shared.slots i).mode = .pull then shared.state.feeder (shared.slots i).name else (shared.slots i).fedBy := by
  induction list generalizing shared with
  | nil => simp
  | cons slot list ih =>
    have kept := (keeps_beginDrain shared slot).slots i
    have state : (shared.beginDrain slot).state = shared.state := rfl
    rw [List.foldl_cons, ih, kept.mode, kept.name, beginDrain_fedBy, state]
    obtain rfl | hi := eq_or_ne i slot
    · by_cases pull : (shared.slots i).mode = .pull <;> simp [pull]
    · simp [hi]

theorem commit_fedBy (shared : Shared m) (state : EngineState m) (changes : Changes) (i : Nat) :
    ((shared.commit (some state) changes).slots i).fedBy =
      if i ∈ changes.retiring ∧ (shared.slots i).mode = .pull then shared.state.feeder (shared.slots i).name
      else (shared.slots i).fedBy := by
  have live (shared : Shared m) (live : Live) : ((shared.modify live.slot live.set).slots i).fedBy = (shared.slots i).fedBy := by
    refine shared.modify_field Slot.fedBy ?_ i
    unfold Live.set Live.setTargets Live.setQueue
    rcases live.endpoints with _ | endpoints <;> rcases live.options with _ | options <;> rcases live.queue with _ | queue <;> rfl
  have revive (shared : Shared m) (slot : Nat) : ((shared.revive slot).slots i).fedBy = (shared.slots i).fedBy :=
    modify_field shared Slot.fedBy (f := fun s => { s with drain := none, draining := s.draining && shared.draining }) rfl i
  have start (shared : Shared m) (slot : Nat) : ((shared.start slot).slots i).fedBy = (shared.slots i).fedBy :=
    shared.modify_field Slot.fedBy rfl i
  have clear {α : Type} (slot : α → Nat) (clears : Shared m → α → Bool) (shared : Shared m) (a : α) :
      ((if clears shared a then
        shared.modify (slot a) fun s => { s with consumer := s.consumer.setRuntimeEndpoint none } else shared).slots i).fedBy =
          (shared.slots i).fedBy := by
    split
    · exact shared.modify_field Slot.fedBy rfl i
    · rfl
  let changed := (changes.started.foldl Shared.start (changes.revived.foldl Shared.revive
    (changes.live.foldl (fun shared live => shared.modify live.slot live.set) shared)))
  have before : (changed.slots i).fedBy = (shared.slots i).fedBy :=
    ((foldl_slot Slot.fedBy start ..).trans (foldl_slot Slot.fedBy revive ..)).trans (foldl_slot Slot.fedBy live ..)
  have kept : (shared.slots i).Kept (changed.slots i) :=
    (((Keeps.foldl (fun shared live => keeps_live live shared) changes.live shared).trans
      (.foldl keeps_revive changes.revived _)).trans (.foldl keeps_start changes.started _)).slots i
  have same : changed.state = shared.state := by
    refine (foldl_field (·.state) ?_ ..).trans ((foldl_field (·.state) ?_ ..).trans (foldl_field (·.state) ?_ ..)) <;>
    · intro _ _
      rfl
  rw [← before, ← kept.mode, ← kept.name, ← same, ← foldl_beginDrain_fedBy]
  refine (foldl_slot Slot.fedBy (clear id fun shared slot => shared.evicts state (shared.slots slot)) ..).trans ?_
  exact foldl_slot Slot.fedBy (clear Target.slot fun shared target => shared.clears state (shared.slots target.slot)) ..

/-- The instance that goes on for a consumer of a new config. -/
def inherited (shared : Shared m) (c : Config.Consumer) : Option Nat :=
  (Plan.keptSlot (some shared.state) shared.slots c).or
    (Plan.revivedSlot (some shared.state) shared.slots shared.retired c)

/-- What a reload that is applied leaves: the instances keep what they have, a current one was inherited or is new, and a
    draining one notes who fed it. -/
structure Applied (shared : Shared m) (new : Config) (shared' : Shared m) : Prop where
  config : shared'.state.config = new
  kept : ∀ i < shared.allocated, (shared.slots i).Kept (shared'.slots i)
  current : ∀ t ∈ shared'.state.targets, ∃ c ∈ new.consumers, (shared'.slots t.slot).name = c.name ∧
    (shared'.slots t.slot).mode = mode c.kind ∧
      (shared.inherited c = some t.slot ∨ shared.allocated ≤ t.slot ∧ (shared'.slots t.slot).consumer.runtime = none)
  heard : ∀ t ∈ shared'.state.targets, ∀ r, (shared'.slots t.slot).consumer.runtime = some r →
    shared'.state.config.accepts (shared'.slots t.slot).name ∧ shared'.state.feeds r.source (shared'.slots t.slot).name
  draining : ∀ r ∈ shared'.retired, r < shared.allocated ∧
    (r ∈ shared.retired ∧ (shared'.slots r).fedBy = (shared.slots r).fedBy ∨
      (∃ t ∈ shared.state.targets, t.slot = r) ∧
        ((shared.slots r).mode = .pull → (shared'.slots r).fedBy = shared.state.feeder (shared.slots r).name))

theorem apply_spec {shared : Shared m} (h : shared.Instances) (new : Config) :
    (∃ error, shared.apply new = (.error error, shared)) ∨
      (∃ generation, (shared.apply new).1 = .ok generation) ∧ shared.Applied new (shared.apply new).2 := by
  rcases shared.apply_cases new with ⟨error, happly⟩ | ⟨state, changes, slots, allocated, hbuild, happly⟩
  · exact .inl ⟨error, happly⟩
  · refine .inr ⟨⟨_, congrArg Prod.fst happly⟩, ?_⟩
    rw [happly]
    obtain ⟨planned, -, hconfig, -, namesGrew, d, hd, htargets, rfl, rfl, hchanges⟩ := Plan.build_eq_ok hbuild
    have before : Engine.Instances (oldConsumers (some shared.state)) (oldTargets (some shared.state)) _ _ _ := h
    have instances := instances_commit { shared with slots := d.slots, allocated := d.allocated, tables := shared.tables + 1 }
      (some state) before hbuild rfl rfl
    have drafted : Plan.Drafted (some shared.state) shared.slots shared.retired shared.allocated new.consumers state.sourceNames
        { changes := { live := [], started := [], revived := [], retiring := [] }, targets := [], slots := shared.slots,
          allocated := shared.allocated } d := by
      rw [hd]
      exact Plan.drafted _ _ _ new.consumers le_rfl (Plan.inherited_below before)
    obtain ⟨-, same, retiring, -, ts, targets, planned⟩ := drafted
    simp only [List.nil_append] at same retiring targets
    rw [← targets, ← htargets] at planned
    subst hconfig
    have keeps := keeps_commit { shared with slots := d.slots, allocated := d.allocated, tables := shared.tables + 1 } (some state)
      changes
    have fedBy (i : Nat) : ((commit { shared with slots := d.slots, allocated := d.allocated, tables := shared.tables + 1 }
        (some state) changes).slots i).fedBy = if i ∈ changes.retiring ∧ (d.slots i).mode = .pull then
          shared.state.feeder (d.slots i).name else (d.slots i).fedBy := commit_fedBy _ state changes i
    have leaving {s : Nat} (hs : s ∈ changes.retiring) : ∃ t ∈ shared.state.targets, t.slot = s := by
      rw [hchanges] at hs
      obtain ⟨t, ht, slot, -⟩ := Plan.of_retiring before (retiring ▸ hs)
      exact ⟨t, ht, slot⟩
    refine ⟨rfl, fun i hi => same i hi ▸ keeps.slots i, fun t ht => ?_, fun t ht r hr => ?_, fun r hr => ?_⟩
    · have ht : t ∈ state.targets := ht
      obtain ⟨i, hi, rfl⟩ := List.getElem_of_mem ht
      have lt : i < state.config.consumers.length := planned.length_eq ▸ hi
      obtain ⟨⟨-, origin, fresh⟩, -⟩ := (List.forall₂_iff_get.mp planned).2 i lt hi
      obtain ⟨-, name, mode⟩ := (List.forall₂_iff_get.mp instances.matched).2 i lt hi
      refine ⟨state.config.consumers[i], List.getElem_mem lt, name, mode, ?_⟩
      rcases origin with hk | hr | ⟨-, -, le⟩
      · exact .inl (Option.or_eq_some_iff.mpr (.inl hk))
      · exact .inl (Option.or_eq_some_iff.mpr (.inr ⟨(Plan.of_revivedSlot hr).1, hr⟩))
      · refine .inr ⟨le, (keeps.slots _).runtime.elim (·.trans ?_) id⟩
        change (d.slots state.targets[i].slot).consumer.runtime = none
        rw [show d.slots state.targets[i].slot = _ from fresh le, newSlot]
        split <;> rfl
    · obtain ⟨accepts, feeds, -⟩ := clears_eq_false.mp ((captures_commit _ state changes).current t ht) r hr
      exact ⟨accepts, feeds⟩
    · rw [commit_retired] at hr
      rw [fedBy]
      rcases List.mem_append.mp hr with hr | hr
      · have mem := (List.mem_filter.mp hr).1
        have lt := h.retiredBelow r mem
        have stays : r ∉ changes.retiring := fun hs => by
          obtain ⟨t, ht, rfl⟩ := leaving hs
          exact h.apart _ mem t ht rfl rfl
        rw [if_neg fun hs => stays hs.1]
        exact ⟨lt, .inl ⟨mem, congrArg Slot.fedBy (same r lt)⟩⟩
      · obtain ⟨t, ht, rfl⟩ := leaving hr
        have lt := h.below t ht
        rw [same t.slot lt]
        exact ⟨lt, .inr ⟨⟨t, ht, rfl⟩, fun pull => if_pos ⟨hr, pull⟩⟩⟩

end Shared

end Tgin.Engine
