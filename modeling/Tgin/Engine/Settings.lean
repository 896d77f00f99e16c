import Tgin.Engine.Instances

/-! The settings of consumer instances: what a config writes of a consumer is what its instance has, however a reload
    came by the instance. -/

namespace Tgin.Engine
open Queue Rules

variable {m : Matchers}

/-- What a config sets of a push instance. -/
def Consumer.settings : Consumer → Option (List Endpoint × PushOptions)
  | .pull => none
  | .push targets => some (targets.endpoints, targets.options)

/-- What a config sets of a consumer's instance. -/
def settings (kind : Config.ConsumerKind) (sourceNames : List Str) : Option (List Endpoint × PushOptions) :=
  match kind with
  | .pull _ => none
  | .push push => some (endpoints push, options push sourceNames)

/-- The instance has the settings of a consumer. -/
structure Slot.Has (kind : Config.ConsumerKind) (sourceNames : List Str) (s : Slot) : Prop where
  queue : s.queue.inner.cfg = Engine.queue kind
  consumer : s.consumer.settings = settings kind sourceNames

/-- A slot of the same settings. -/
structure Slot.SameSettings (s s' : Slot) : Prop where
  queue : s'.queue.inner.cfg = s.queue.inner.cfg
  consumer : s'.consumer.settings = s.consumer.settings

namespace Slot
variable {s s' s'' : Slot} {kind : Config.ConsumerKind} {sourceNames : List Str}

theorem SameSettings.refl (s : Slot) : SameSettings s s := ⟨rfl, rfl⟩

theorem SameSettings.trans (h : SameSettings s s') (h' : SameSettings s' s'') : SameSettings s s'' :=
  ⟨h'.queue.trans h.queue, h'.consumer.trans h.consumer⟩

theorem Has.same (h : s.Has kind sourceNames) (same : SameSettings s s') : s'.Has kind sourceNames :=
  ⟨same.queue.trans h.queue, same.consumer.trans h.consumer⟩

theorem sameSettings_clear (s : Slot) (endpoint : Option RuntimeEndpoint) :
    SameSettings s { s with consumer := s.consumer.setRuntimeEndpoint endpoint } := by
  obtain ⟨name, consumer, _⟩ := s
  cases consumer <;> exact ⟨rfl, rfl⟩

theorem sameSettings_drains (s : Slot) (draining : Bool) (drain : Option Nat) (fedBy : Option SourceId) :
    SameSettings s { s with draining, drain, fedBy } := ⟨rfl, rfl⟩

theorem SameSettings.update {slots : Nat → Slot} {slot : Nat} (h : SameSettings (slots slot) s) (i : Nat) :
    SameSettings (slots i) (Function.update slots slot s i) := by
  by_cases hi : i = slot
  · subst hi
    rwa [Function.update_self]
  · rw [Function.update_of_ne hi]
    exact .refl _

theorem has_newSlot (address : Nat) (c : Config.Consumer) (sourceNames : List Str) :
    (newSlot address c sourceNames).Has c.kind sourceNames := by
  obtain ⟨id, name, kind⟩ := c
  cases kind <;> exact ⟨rfl, rfl⟩

end Slot

/-- The new parameters are those of `kind`, as far as they are given. -/
structure Live.Towards (live : Live) (kind : Config.ConsumerKind) (sourceNames : List Str) : Prop where
  queue : ∀ cfg ∈ live.queue, cfg = Engine.queue kind
  endpoints : ∀ set ∈ live.endpoints, some set = settings kind sourceNames
  options : ∀ new ∈ live.options, ∃ endpoints, some (endpoints, new) = settings kind sourceNames

namespace Live
variable {live : Live} {kind : Config.ConsumerKind} {sourceNames : List Str} {s : Slot}

theorem queue_set (live : Live) (s : Slot) : (live.set s).queue.inner.cfg = live.queue.getD s.queue.inner.cfg := by
  have targets (s : Slot) : (live.setTargets s).queue = s.queue := by
    unfold setTargets
    cases live.endpoints <;> cases live.options <;> rfl
  rw [set, targets, setQueue]
  cases live.queue <;> rfl

theorem consumer_set (live : Live) (s : Slot) :
    (live.set s).consumer.settings = match live.endpoints, live.options with
      | some set, _ => s.consumer.settings.map fun _ => set
      | none, some options => s.consumer.settings.map fun old => (old.1, options)
      | none, none => s.consumer.settings := by
  have queue (s : Slot) : (live.setQueue s).consumer = s.consumer := by
    unfold setQueue
    cases live.queue <;> rfl
  rw [← queue s, set]
  obtain ⟨name, consumer, _⟩ := live.setQueue s
  unfold setTargets
  cases live.endpoints <;> cases live.options <;> cases consumer <;> rfl

/-- Setting the parameters again changes nothing. -/
theorem Towards.has_set (h : live.Towards kind sourceNames) (has : s.Has kind sourceNames) : (live.set s).Has kind sourceNames := by
  refine ⟨?_, ?_⟩
  · rw [queue_set]
    cases hq : live.queue with
    | none => exact has.queue
    | some cfg => exact h.queue cfg hq
  · rw [consumer_set, has.consumer]
    cases he : live.endpoints with
    | some set =>
      obtain eq := h.endpoints set he
      rw [← eq]
      rfl
    | none =>
      cases ho : live.options with
      | none => rfl
      | some new =>
        obtain ⟨endpoints, eq⟩ := h.options new ho
        rw [← eq]
        rfl

/-- A draining instance that comes back has the settings of its consumer, whatever it had. -/
theorem revival_spec (c : Config.Consumer) (sourceNames : List Str) (slot : Nat) :
    (Plan.revival c sourceNames slot).Towards c.kind sourceNames ∧
      ∀ s : Slot, s.mode = mode c.kind → ((Plan.revival c sourceNames slot).set s).Has c.kind sourceNames := by
  obtain ⟨id, name, kind⟩ := c
  refine ⟨⟨?_, ?_, nofun⟩, fun s hs => ⟨?_, ?_⟩⟩
  · rintro _ ⟨⟩
    rfl
  · intro set h
    cases kind with
    | pull pull => cases h
    | push push =>
      cases h
      rfl
  · rw [queue_set]
    rfl
  · rw [consumer_set]
    obtain ⟨name, consumer, _⟩ := s
    cases kind <;> cases consumer <;> first | rfl | cases hs

/-- Parameters that say nothing new are left out, and leave the instance as it is. -/
theorem optional_spec {slot : Nat} {queue : Option QueueConfig} {endpoints : Option (List Endpoint × PushOptions)}
    {options : Option PushOptions} (towards : Towards { slot, queue, endpoints, options } kind sourceNames)
    (has : (Live.set { slot, queue, endpoints, options } s).Has kind sourceNames) :
    match (if queue.isSome || endpoints.isSome || options.isSome then some { slot, queue, endpoints, options } else none :
        Option Live) with
    | some live => live.slot = slot ∧ live.Towards kind sourceNames ∧ (live.set s).Has kind sourceNames
    | none => s.Has kind sourceNames := by
  split
  next live h =>
    split at h <;> cases h
    exact ⟨rfl, towards, has⟩
  next h =>
    split at h
    · cases h
    · rename_i silent
      simp only [Bool.or_eq_true, not_or, Option.not_isSome_iff_eq_none] at silent
      obtain ⟨⟨rfl, rfl⟩, rfl⟩ := silent
      exact has

section Push
variable {old new : Config.Push}

/-- The delivery settings are all that the endpoints and, but for the reply, the options are made of. -/
theorem delivery_eq (kept : ¬(decide (old.endpoints ≠ new.endpoints) || decide (old.balance ≠ new.balance) ||
      decide (old.maxInFlight ≠ new.maxInFlight) || decide (old.retry ≠ new.retry) || decide (old.breaker ≠ new.breaker)) =
        true) :
    old.endpoints = new.endpoints ∧ old.balance = new.balance ∧ old.maxInFlight = new.maxInFlight ∧
      old.retry = new.retry ∧ old.breaker = new.breaker := by
  simpa [and_assoc] using kept

variable (kept : ¬(decide (old.endpoints ≠ new.endpoints) || decide (old.balance ≠ new.balance) ||
  decide (old.maxInFlight ≠ new.maxInFlight) || decide (old.retry ≠ new.retry) || decide (old.breaker ≠ new.breaker)) = true)

include kept

theorem endpoints_congr : Engine.endpoints old = Engine.endpoints new := by
  obtain ⟨endpoints, -, -, -, breaker⟩ := delivery_eq kept
  rw [Engine.endpoints, Engine.endpoints, endpoints, breaker]

theorem options_congr (reply : old.webhookReply = new.webhookReply) (names : List Str) :
    Engine.options old names = Engine.options new names := by
  obtain ⟨-, balance, maxInFlight, retry, breaker⟩ := delivery_eq kept
  rw [Engine.options, Engine.options, balance, maxInFlight, retry, breaker, reply]

end Push

/-- A current instance with the settings of `old` comes to those of `new`, of the same mode: each setting that differs is
    among the live changes, and so are names that were added. -/
theorem liveChange_spec {old new : Config.ConsumerKind} {names names' : List Str} {namesGrew : Bool} (slot : Nat)
    (modes : mode old = mode new) (grew : namesGrew = false → names = names') (has : s.Has old names) :
    match liveChange slot old new namesGrew names' with
    | some live => live.slot = slot ∧ live.Towards new names' ∧ (live.set s).Has new names'
    | none => s.Has new names' := by
  cases old with
  | pull old =>
    cases new with
    | push new => cases modes
    | pull new =>
      refine optional_spec ⟨?_, nofun, nofun⟩ ⟨?_, ?_⟩
      · intro cfg h
        dsimp only at h
        split at h <;> cases h
        rfl
      · rw [queue_set, has.queue]
        dsimp only
        split
        · rfl
        · rename_i same
          exact not_not.mp same
      · rw [consumer_set]
        exact has.consumer
  | push old =>
    cases new with
    | pull new => cases modes
    | push new =>
      refine optional_spec ⟨?_, ?_, ?_⟩ ⟨?_, ?_⟩
      · intro cfg h
        dsimp only at h
        split at h <;> cases h
        rfl
      · intro set h
        dsimp only at h
        split at h <;> cases h
        rfl
      · intro set h
        dsimp only at h
        split at h <;> cases h
        exact ⟨_, rfl⟩
      · rw [queue_set, has.queue]
        dsimp only
        split
        · rfl
        · rename_i same
          exact not_not.mp same
      · rw [consumer_set, has.consumer]
        dsimp only
        split
        next delivers h =>
          split at h <;> cases h
          rfl
        next refreshes keeps h =>
          split at keeps
          · cases keeps
          rename_i kept
          split at h <;> cases h
          rw [settings, settings, Option.map_some, endpoints_congr kept]
        next keeps silent =>
          split at keeps
          · cases keeps
          rename_i kept
          split at silent
          · cases silent
          rename_i stays
          rw [Bool.eq_false_iff.mpr kept, Bool.not_false, Bool.true_and, Bool.not_eq_true, Bool.or_eq_false_iff] at stays
          rw [settings, settings, endpoints_congr kept, options_congr kept (by simpa using stays.2), grew stays.1]

end Live

theorem liveChange_slot {slot : Nat} {old new : Config.ConsumerKind} {namesGrew : Bool} {sourceNames : List Str}
    {live : Live} (h : liveChange slot old new namesGrew sourceNames = some live) : live.slot = slot := by
  unfold liveChange at h
  obtain ⟨-, h⟩ := Option.ite_none_right_eq_some.mp h
  rw [← Option.some.inj h]

/-! ### Planning the parameters -/

namespace Plan
variable (old : Option (EngineState m)) (slots : Nat → Slot) (retired : List Nat) (namesGrew : Bool) (sourceNames : List Str)

/-- The new parameters that a plan has for the instance of a consumer. -/
def liveFor (c : Config.Consumer) : Option Live :=
  match previous old slots c.name with
  | some (slot, written) =>
    if (slots slot).mode = mode c.kind then liveChange slot written.kind c.kind namesGrew sourceNames
    else (draining slots retired c).map (revival c sourceNames)
  | none => (draining slots retired c).map (revival c sourceNames)

theorem consumer_live (d : Draft) (c : Config.Consumer) :
    (consumer old slots retired namesGrew sourceNames d c).changes.live =
      d.changes.live ++ (liveFor old slots retired namesGrew sourceNames c).toList := by
  have replaces (d : Draft) : (replace slots retired sourceNames c d).changes.live =
      d.changes.live ++ ((draining slots retired c).map (revival c sourceNames)).toList := by
    unfold replace
    cases draining slots retired c with
    | some slot => rfl
    | none => exact (List.append_nil _).symm
  unfold consumer liveFor
  rcases previous old slots c.name with _ | ⟨slot, written⟩ <;> dsimp only
  · exact replaces d
  · split
    · rfl
    · exact replaces _

theorem foldl_live (cs : List Config.Consumer) (d : Draft) :
    (cs.foldl (consumer old slots retired namesGrew sourceNames) d).changes.live =
      d.changes.live ++ cs.filterMap (liveFor old slots retired namesGrew sourceNames) := by
  induction cs generalizing d with
  | nil => exact (List.append_nil _).symm
  | cons c cs ih =>
    rw [List.foldl_cons, ih, consumer_live, List.append_assoc, List.filterMap_cons]
    cases liveFor old slots retired namesGrew sourceNames c <;> rfl

variable {old slots retired namesGrew sourceNames}

/-- Parameters are for an instance of the consumer's name, which the consumer keeps or gets back. -/
theorem of_liveFor {c : Config.Consumer} {live : Live} (h : liveFor old slots retired namesGrew sourceNames c = some live) :
    (slots live.slot).name = c.name ∧
      (keptSlot old slots c = some live.slot ∨ draining slots retired c = some live.slot) := by
  have back (h : (draining slots retired c).map (revival c sourceNames) = some live) :
      (slots live.slot).name = c.name ∧
        (keptSlot old slots c = some live.slot ∨ draining slots retired c = some live.slot) := by
    obtain ⟨slot, hd, rfl⟩ := Option.map_eq_some_iff.mp h
    exact ⟨(of_draining hd).2.1, .inr hd⟩
  unfold liveFor at h
  rcases hp : previous old slots c.name with _ | ⟨slot, written⟩ <;> rw [hp] at h <;> dsimp only at h
  · exact back h
  · split at h
    · rename_i same
      have slot_eq := liveChange_slot h
      obtain ⟨t, -, -, name⟩ := of_previous hp
      rw [slot_eq]
      refine ⟨name, .inl ?_⟩
      rw [keptSlot, hp]
      exact if_pos same
    · exact back h

end Plan

namespace Shared

/-- The loop over the live changes gives an instance its parameters. -/
theorem foldl_set {lives : List Live} {i : Nat} {live : Live} {kind : Config.ConsumerKind} {sourceNames : List Str}
    (only : ∀ l ∈ lives, l.slot = i → l = live) (towards : live.Towards kind sourceNames) (shared : Shared m) :
    let shared' := lives.foldl (fun shared live => shared.modify live.slot live.set) shared
    ((shared.slots i).Has kind sourceNames → (shared'.slots i).Has kind sourceNames) ∧
      ((live.set (shared.slots i)).Has kind sourceNames → live ∈ lives → live.slot = i →
        (shared'.slots i).Has kind sourceNames) := by
  induction lives generalizing shared with
  | nil => exact ⟨id, fun _ mem => nomatch mem⟩
  | cons l lives ih =>
    obtain ⟨keeps, sets⟩ := ih (fun l hl => only l (List.mem_cons_of_mem _ hl)) (shared.modify l.slot l.set)
    rw [List.foldl_cons]
    by_cases here : l.slot = i
    · obtain rfl := only l List.mem_cons_self here
      subst here
      rw [modify_slots, Function.update_self] at keeps
      exact ⟨fun has => keeps (towards.has_set has), fun has _ _ => keeps has⟩
    · rw [modify_slots, Function.update_of_ne (Ne.symm here)] at keeps sets
      refine ⟨keeps, fun has mem slot => sets has ?_ slot⟩
      rcases List.mem_cons.mp mem with rfl | mem
      · exact absurd slot here
      · exact mem

theorem foldl_set_other {lives : List Live} {i : Nat} (none : ∀ l ∈ lives, l.slot ≠ i) (shared : Shared m) :
    (lives.foldl (fun shared live => shared.modify live.slot live.set) shared).slots i = shared.slots i := by
  induction lives generalizing shared with
  | nil => rfl
  | cons l lives ih =>
    rw [List.foldl_cons, ih fun l hl => none l (List.mem_cons_of_mem _ hl)]
    exact Function.update_of_ne (Ne.symm (none l List.mem_cons_self)) ..

/-- A loop whose rounds leave the settings leaves them. -/
theorem foldl_sameSettings {α : Type} {f : Shared m → α → Shared m}
    (step : ∀ (shared : Shared m) a i, (shared.slots i).SameSettings ((f shared a).slots i)) (list : List α) (shared : Shared m) (i : Nat) :
    (shared.slots i).SameSettings ((list.foldl f shared).slots i) := by
  induction list generalizing shared with
  | nil => exact .refl _
  | cons a list ih => exact (step shared a i).trans (ih (f shared a))

/-- After the live changes a commit leaves the settings alone. -/
theorem commit_sameSettings (shared : Shared m) (state : Option (EngineState m)) (changes : Changes) (i : Nat) :
    ((changes.live.foldl (fun shared live => shared.modify live.slot live.set) shared).slots i).SameSettings
      ((shared.commit state changes).slots i) := by
  have changed : ((changes.live.foldl (fun shared live => shared.modify live.slot live.set) shared).slots i).SameSettings
      ((shared.changeInstances changes).slots i) := by
    refine ((foldl_sameSettings (f := revive) (fun shared slot i => ?_) changes.revived _ i).trans
      (foldl_sameSettings (f := start) (fun shared slot i => ?_) changes.started _ i)).trans
      (foldl_sameSettings (f := beginDrain) (fun shared slot i => ?_) changes.retiring _ i)
    · exact .update (Slot.sameSettings_drains ..) i
    · exact .update (Slot.sameSettings_drains ..) i
    · exact .update (Slot.sameSettings_drains ..) i
  have clear {α : Type} (slot : α → Nat) (clears : Shared m → α → Bool) (list : List α) (shared : Shared m) :
      (shared.slots i).SameSettings ((list.foldl (fun shared a => if clears shared a then
        shared.modify (slot a) fun s => { s with consumer := s.consumer.setRuntimeEndpoint none } else shared) shared).slots i) := by
    refine foldl_sameSettings (fun shared a i => ?_) list shared i
    split
    · exact .update (Slot.sameSettings_clear _ none) i
    · exact .refl _
  cases state with
  | none => exact changed
  | some state =>
    refine changed.trans ((clear Target.slot (fun shared (t : Target) => shared.clears state (shared.slots t.slot)) state.targets
      _).trans (clear id (fun shared slot => shared.evicts state (shared.slots slot)) _ _))

end Shared

namespace Plan
variable {old : Option (EngineState m)} {slots : Nat → Slot} {retired : List Nat} {allocated : Nat} {namesGrew : Bool}
  {sourceNames : List Str}

/-- A plan's parameters bring the instance a consumer keeps or gets back to the consumer's settings. -/
theorem liveFor_spec (h : Instances (oldConsumers old) (oldTargets old) retired allocated slots)
    (has : ∀ c ∈ oldConsumers old, ∀ t ∈ oldTargets old, (slots t.slot).name = c.name →
      (slots t.slot).Has c.kind (givenNames old))
    (grew : old.isSome → namesGrew = false → givenNames old = sourceNames) {c : Config.Consumer} {i : Nat}
    (found : keptSlot old slots c = some i ∨ revivedSlot old slots retired c = some i) :
    match liveFor old slots retired namesGrew sourceNames c with
    | some live => live.slot = i ∧ live.Towards c.kind sourceNames ∧ (live.set (slots i)).Has c.kind sourceNames
    | none => (slots i).Has c.kind sourceNames := by
  rcases found with kept | revived
  · obtain ⟨⟨slot, written⟩, hp, kept⟩ := Option.bind_eq_some_iff.mp kept
    obtain ⟨modes, hslot⟩ := Option.ite_none_right_eq_some.mp kept
    obtain rfl := Option.some.inj hslot
    rw [liveFor, hp]
    dsimp only
    rw [if_pos modes]
    have some : old.isSome := by
      cases old with
      | none => cases hp
      | some old => rfl
    rw [previous_eq] at hp
    obtain ⟨t, ht, hp⟩ := Option.bind_eq_some_iff.mp hp
    obtain ⟨w, hw, heq⟩ := Option.map_eq_some_iff.mp hp
    cases heq
    have name : (slots t.slot).name = c.name := by simpa using List.find?_some ht
    have name' : written.name = c.name := by simpa using List.find?_some hw
    have hw := List.mem_of_find?_eq_some hw
    have ht := List.mem_of_find?_eq_some ht
    have settled := has written hw t ht (name.trans name'.symm)
    obtain ⟨w', hw', -, name'', modes'⟩ := (forall₂_exists h.matched).1 t ht
    obtain rfl := h.consumer_unique hw' hw (name''.symm.trans (name.trans name'.symm))
    exact Live.liveChange_spec t.slot (modes'.symm.trans modes) (grew some) settled
  · obtain ⟨kept, hd⟩ := of_revivedSlot revived
    have back : liveFor old slots retired namesGrew sourceNames c = some (revival c sourceNames i) := by
      unfold liveFor
      unfold keptSlot at kept
      rcases hp : previous old slots c.name with _ | ⟨slot, written⟩ <;> rw [hp] at kept <;> dsimp only
      · rw [hd]
        rfl
      · rw [Option.bind_some] at kept
        split at kept
        · cases kept
        · rename_i replaced
          rw [if_neg replaced, hd]
          rfl
    rw [back]
    obtain ⟨towards, set⟩ := Live.revival_spec c sourceNames i
    exact ⟨rfl, towards, set _ (of_draining hd).2.2⟩

end Plan

/-- Every consumer's current instance has the consumer's settings. -/
def Shared.Configured (shared : Shared m) : Prop :=
  ∀ c ∈ shared.state.config.consumers, ∀ t ∈ shared.state.targets, (shared.slots t.slot).name = c.name →
    (shared.slots t.slot).Has c.kind shared.state.sourceNames

/-- Committing a plan brings every consumer's instance to the consumer's settings. -/
theorem configured_commit {cfg : Config} {old : Option (EngineState m)} {retired : List Nat} {slots : Nat → Slot}
    {allocated token : Nat} {changes : Changes} {state : EngineState m} (shared : Shared m) (new : Option (EngineState m))
    (h : Instances (oldConsumers old) (oldTargets old) retired allocated slots)
    (has : ∀ c ∈ oldConsumers old, ∀ t ∈ oldTargets old, (slots t.slot).name = c.name →
      (slots t.slot).Has c.kind (givenNames old))
    (hbuild : Plan.build cfg old retired slots allocated token = .ok (state, changes, shared.slots, shared.allocated))
    (hretired : shared.retired = retired)
    (hstate : (shared.commit new changes).state = state) : (shared.commit new changes).Configured := by
  have instances := instances_commit shared new h hbuild hretired hstate
  obtain ⟨hconfig, ⟨planned, hbots, -⟩, d, hd, htargets, hslots, -, hchanges⟩ := Plan.build_steps hbuild
  unfold Shared.Instances at instances
  unfold Shared.Configured
  rw [hstate, hconfig, htargets] at instances ⊢
  have grew : old.isSome → (old.any fun old => old.sourceNames.length ≠ state.sourceNames.length) = false →
      givenNames old = state.sourceNames := by
    intro some same
    obtain ⟨old, rfl⟩ := Option.isSome_iff_exists.mp some
    have length : old.sourceNames.length = state.sourceNames.length := by simpa using same
    exact (Plan.bots_given hbots).grows.eq_of_length length
  have drafted := hd ▸ Plan.drafted old slots retired cfg.consumers le_rfl (Plan.inherited_below h)
  obtain ⟨-, same, -, -, ts, hts, drafts⟩ := drafted
  obtain rfl : d.targets = ts := hts
  -- The slots as the loop over the live changes finds and leaves them.
  have lives : changes.live = cfg.consumers.filterMap (Plan.liveFor old slots retired
      (old.any fun old => old.sourceNames.length ≠ state.sourceNames.length) state.sourceNames) := by
    rw [hchanges, hd]
    exact Plan.foldl_live ..
  have kept (i : Nat) := Shared.commit_sameSettings shared new changes i
  intro c hc t ht name
  have matched := drafts.mp (fun _ _ p q => And.intro p q) instances.matched
  obtain ⟨c', hc', ⟨planned, -⟩, -, name', -⟩ := (forall₂_exists matched).1 t ht
  obtain rfl := instances.consumer_unique hc' hc (name'.symm.trans name)
  refine Slot.Has.same ?_ (kept t.slot)
  rw [lives]
  have before : ∀ found : Plan.keptSlot old slots c' = some t.slot ∨ Plan.revivedSlot old slots retired c' = some t.slot,
      shared.slots t.slot = slots t.slot ∧ (slots t.slot).name = c'.name := by
    intro found
    refine ⟨(congrFun hslots _).trans (same _ (Plan.inherited_below h _ _ found)), ?_⟩
    rcases found with found | found
    · obtain ⟨_, -, -, name, -⟩ := Plan.of_keptSlot found
      exact name
    · exact (Plan.of_draining (Plan.of_revivedSlot found).2).2.1
  rcases or_assoc.mpr planned.origin with found | ⟨-, -, fresh⟩
  · obtain ⟨was, name⟩ := before found
    have spec := Plan.liveFor_spec h has grew found
    have only : ∀ l ∈ cfg.consumers.filterMap (Plan.liveFor old slots retired
        (old.any fun old => old.sourceNames.length ≠ state.sourceNames.length) state.sourceNames),
        l.slot = t.slot → Plan.liveFor old slots retired
          (old.any fun old => old.sourceNames.length ≠ state.sourceNames.length) state.sourceNames c' = some l := by
      intro l hl slot
      obtain ⟨other, ho, hother⟩ := List.mem_filterMap.mp hl
      have name'' := (Plan.of_liveFor hother).1
      rw [slot, name] at name''
      rwa [instances.consumer_unique hc ho name'']
    rcases hlive : Plan.liveFor old slots retired
      (old.any fun old => old.sourceNames.length ≠ state.sourceNames.length) state.sourceNames c' with _ | live <;>
      rw [hlive] at spec only
    · rw [Shared.foldl_set_other fun l hl slot => (nomatch only l hl slot), was]
      exact spec
    · obtain ⟨slot, towards, set⟩ := spec
      refine (Shared.foldl_set (fun l hl hs => (Option.some.inj (only l hl hs)).symm) towards shared).2 (was ▸ set) ?_ slot
      exact List.mem_filterMap.mpr ⟨c', hc, hlive⟩
  · rw [Shared.foldl_set_other, congrFun hslots, planned.fresh fresh]
    · exact Slot.has_newSlot ..
    · intro l hl slot
      obtain ⟨other, -, hother⟩ := List.mem_filterMap.mp hl
      have lt : l.slot < allocated := by
        rcases (Plan.of_liveFor hother).2 with kept | draining
        · exact Plan.inherited_below h _ _ (.inl kept)
        · exact h.retiredBelow _ (Plan.of_draining draining).1
      rw [slot] at lt
      exact absurd fresh (Nat.not_le.mpr lt)

end Tgin.Engine
