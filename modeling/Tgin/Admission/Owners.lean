import Tgin.Admission.Traffic

/-! Whose an instance is: the bots whose updates it holds or is about to be given, and those that may get what it holds. -/

namespace Tgin.Engine
open Queue Rules Config

variable {m : Matchers}

/-! ### Where an admission is headed -/

section
variable {slots slots' : Nat → Slot} {source : SourceId}

theorem Pc.ahead_subset (pc : Pc m) : pc.ahead slots source ⊆ pc.targets := by
  cases pc with
  | route state => exact List.filter_subset_self _
  | cancel permits answer => exact List.nil_subset _
  | committed target permits => exact List.subset_cons_self ..
  | load | visit | reserve | reserving | commit | done => exact List.Subset.refl _

theorem Pc.ahead_congr {pc : Pc m} (names : ∀ t ∈ pc.targets, (slots' t.slot).name = (slots t.slot).name) :
    pc.ahead slots' source = pc.ahead slots source := by
  cases pc with
  | route state => exact List.filter_congr fun t mem => by rw [names t mem]
  | load | visit | reserve | reserving | cancel | commit | committed | done => rfl

end

/-- An admission goes on to targets that it was headed for, or to those of the current state that its bot feeds. -/
theorem Admission.step_ahead (a : Admission m) (clock : Instant) {world : World m}
    (routes : ∀ state, a.pc = .route state → state.Routes world.slots) :
    ∀ t ∈ (a.step clock world).1.pc.ahead world.slots a.update.source,
      t ∈ a.pc.ahead world.slots a.update.source ∨
        t ∈ world.shared.state.targets ∧ world.shared.state.feeds a.update.source (world.slots t.slot).name = true := by
  intro t ht
  have next := a.step_next clock world
  generalize a.pc = pc, (a.step clock world).1.pc = pc' at next ht routes ⊢
  cases next with
  | load => exact .inr (List.mem_filter.mp ht)
  | @routed state rule ids matched =>
    have ht : t ∈ visits state.targets ids := by simpa [Pc.ahead] using ht
    have routed : (state.table.route a.update.source a.update.facts (world.cursors state.table.token)
      (world.scratch.getLast?.getD .default)).1 = (some rule, ids) := matched
    exact .inl (List.mem_filter.mpr ⟨visits_subset _ _ ht, routes state rfl _ _ _ _ _ _ routed t ht⟩)
  | visited | reserve | reserving | drained => exact .inl ht
  | reserved permit =>
    simp only [Pc.ahead, List.map_append, List.map_cons, List.map_nil, List.mem_cons, List.mem_append, List.not_mem_nil,
      or_false] at ht ⊢
    tauto
  | skipped | committed => exact .inl (List.mem_cons_of_mem _ ht)
  | unroutable | closed | backpressure | dropped | answered | again | admitted | done => cases ht

/-- A slot that an admission commits to is ahead of it. -/
theorem Pc.ahead_of_commits {pc : Pc m} {slots : Nat → Slot} {source : SourceId} {slot : Nat} (commits : pc.Commits slot) :
    ∃ t ∈ pc.ahead slots source, t.slot = slot := by
  cases pc with
  | commit permits =>
    rcases permits with _ | ⟨⟨target, permit⟩, permits⟩
    · exact commits.elim
    · exact ⟨target, List.mem_cons_self, commits⟩
  | load | route | visit | reserve | reserving | cancel | committed | done => exact commits.elim

/-! ### What an action leaves of the instances -/

/-- Two slots of one name and one consumer, fed by the same bot. -/
structure Slot.SameOwner (s s' : Slot) : Prop where
  name : s'.name = s.name
  consumer : s'.consumer = s.consumer
  fedBy : s'.fedBy = s.fedBy

namespace Slot.SameOwner
variable {s s' : Slot}

theorem refl (s : Slot) : SameOwner s s := ⟨rfl, rfl, rfl⟩

theorem update {slots : Nat → Slot} {slot : Nat} (h : SameOwner (slots slot) s) (i : Nat) :
    SameOwner (slots i) (Function.update slots slot s i) := by
  by_cases hi : i = slot
  · subst hi
    rwa [Function.update_self]
  · rw [Function.update_of_ne hi]
    exact .refl _

end Slot.SameOwner

theorem Slot.Effect.sameOwner {update : Update} {now : Instant} {commits : Prop} {s s' : Slot} {fate : Fate} {skips : Nat}
    (h : s.Effect update now commits fate skips s') : s.SameOwner s' := by
  cases h <;> exact ⟨rfl, rfl, rfl⟩

theorem Slot.consume_sameOwner (s : Slot) (op : Op Envelope) : s.SameOwner (s.consume op) := by
  unfold Slot.consume
  dsimp only
  split
  · split <;> exact ⟨rfl, rfl, rfl⟩
  · exact .refl s

/-- Who feeds the instances stays, and who may get what they hold, but for a runtime endpoint that a feeder sets. -/
structure Shared.Alike (shared shared' : Shared m) : Prop where
  targets : shared'.state.targets = shared.state.targets
  config : shared'.state.config = shared.state.config
  feeds : ∀ source name, shared'.state.feeds source name = shared.state.feeds source name
  allocated : shared'.allocated = shared.allocated
  retired : shared'.retired ⊆ shared.retired
  name : ∀ i, (shared'.slots i).name = (shared.slots i).name
  mode : ∀ i, (shared'.slots i).mode = (shared.slots i).mode
  fedBy : ∀ i, (shared'.slots i).fedBy = (shared.slots i).fedBy
  runtime : ∀ i r, (shared'.slots i).consumer.runtime = some r → (shared.slots i).consumer.runtime = some r ∨
    (∃ t ∈ shared.state.targets, t.slot = i) ∧ shared.state.config.accepts (shared.slots i).name = true ∧
      shared.state.feeds r.source (shared.slots i).name = true

namespace Shared.Alike
variable {shared shared' : Shared m}

theorem of_sameOwner (state : shared'.state = shared.state) (allocated : shared'.allocated = shared.allocated)
    (retired : shared'.retired ⊆ shared.retired) (same : ∀ i, (shared.slots i).SameOwner (shared'.slots i)) :
    shared.Alike shared' where
  targets := by rw [state]
  config := by rw [state]
  feeds _ _ := by rw [state]
  allocated := allocated
  retired := retired
  name i := (same i).name
  mode i := congrArg Consumer.mode (same i).consumer
  fedBy i := (same i).fedBy
  runtime i r hr := .inl (by rw [← (same i).consumer]; exact hr)

theorem refl (shared : Shared m) : shared.Alike shared :=
  .of_sameOwner rfl rfl (List.Subset.refl _) fun _ => .refl _

end Shared.Alike

namespace Shared
variable {shared : Shared m}

theorem setUsername_alike (shared : Shared m) (source : SourceId) (username : Option Str) :
    shared.Alike (shared.setUsername source username) := by
  have feeds (id : SourceId) := (shared.lookups_setUsername source username id).2
  obtain ⟨table, sources, tables, same⟩ := shared.setUsername_cases source username
  rw [same] at feeds ⊢
  exact ⟨rfl, rfl, feeds, rfl, List.Subset.refl _, fun _ => rfl, fun _ => rfl, fun _ => rfl, fun _ _ hr => .inl hr⟩

theorem setRuntimeEndpoint_alike (shared : Shared m) (consumer : Str) (source : SourceId) (token : Str)
    (endpoint : Option (Str × Option Str)) : shared.Alike (shared.setRuntimeEndpoint consumer source token endpoint).2 := by
  rcases shared.setRuntimeEndpoint_cases consumer source token endpoint with
    same | ⟨target, -, found, accepts, feeds, same⟩ <;> rw [same]
  · exact .refl shared
  · have mem : target ∈ shared.state.targets := List.mem_of_find?_eq_some found
    have name : (shared.slots target.slot).name = consumer := by
      unfold EngineState.target at found
      simpa using List.find?_some found
    refine ⟨rfl, rfl, fun _ _ => rfl, rfl, List.Subset.refl _, shared.modify_field Slot.name rfl,
      shared.modify_field Slot.mode ?_, shared.modify_field Slot.fedBy rfl, fun i r hr => ?_⟩
    · simp only [Slot.mode]
      cases (shared.slots target.slot).consumer <;> rfl
    · rw [modify_slots] at hr
      by_cases hi : i = target.slot
      · subst hi
        rw [Function.update_self] at hr
        refine .inr ⟨⟨target, mem, rfl⟩, by rwa [name], ?_⟩
        cases hc : (shared.slots target.slot).consumer with
        | pull =>
          rw [hc] at hr
          cases hr
        | push targets =>
          rw [hc] at hr
          obtain ⟨_, -, rfl⟩ := Option.map_eq_some_iff.mp hr
          rwa [name]
      · rw [Function.update_of_ne hi] at hr
        exact .inl hr

theorem close_alike {closed : Shared m} {slot drain : Nat} (hc : shared.close slot drain = some closed) :
    shared.Alike closed := by
  obtain ⟨-, -, rfl⟩ := close_eq_some hc
  have same : (shared.slots slot).SameOwner { shared.slots slot with drain := none, closed := true } := ⟨rfl, rfl, rfl⟩
  exact .of_sameOwner rfl rfl List.erase_subset same.update

end Shared

/-- Every action but a reload that is applied leaves who feeds the instances and who may get what they hold. -/
theorem System.act_cases {sys : System m} (sound : sys.Sound) (action : Action) :
    sys.world.shared.Alike (sys.act action).world.shared ∨
      ∃ new generation, action = .control (.apply new) ∧ (sys.world.shared.apply new).1 = .ok generation ∧
        sys.world.shared.Applied new (sys.act action).world.shared := by
  cases action with
  | begin update => exact .inl (.refl _)
  | step j clock =>
    refine .inl ?_
    simp only [act]
    split
    · exact .refl _
    · rename_i a ha
      obtain ⟨slots, same⟩ := a.step_shared clock sys.world
      have effect (i : Nat) := (a.step_effect clock sound.shared.exact i).sameOwner
      exact .of_sameOwner (by rw [same]) (by rw [same]) (by rw [same]; exact List.Subset.refl _) effect
  | control control =>
    cases control with
    | apply new =>
      rcases Shared.apply_spec sound.shared.instances new with ⟨error, happly⟩ | ⟨⟨generation, applied⟩, spec⟩
      · refine .inl ?_
        simp only [act, System.control, Shared.control, happly]
        exact .refl _
      · exact .inr ⟨new, generation, rfl, applied, spec⟩
    | setUsername source username => exact .inl (Shared.setUsername_alike _ source username)
    | setRuntimeEndpoint consumer source token endpoint =>
      exact .inl (Shared.setRuntimeEndpoint_alike _ consumer source token endpoint)
    | retire slot drain =>
      refine .inl ?_
      simp only [act, System.control]
      split
      · split
        · exact .of_sameOwner rfl rfl (List.Subset.refl _) fun _ => .refl _
        · rename_i closed hc
          have alike := Shared.close_alike hc
          exact ⟨alike.targets, alike.config, alike.feeds, alike.allocated, alike.retired, alike.name, alike.mode, alike.fedBy,
            alike.runtime⟩
      · exact .refl _
  | drain slot =>
    refine .inl ?_
    simp only [act]
    split
    · have same : (sys.slots slot).SameOwner (sys.slots slot).drainLate := ⟨rfl, rfl, rfl⟩
      exact .of_sameOwner rfl rfl (List.Subset.refl _) same.update
    · exact .refl _
  | consume slot op =>
    refine .inl ?_
    simp only [act]
    split
    · exact .of_sameOwner rfl rfl (List.Subset.refl _) (Slot.consume_sameOwner (sys.slots slot) op).update
    · exact .refl _

theorem EngineState.Routes.congr {state : EngineState m} {slots slots' : Nat → Slot} (h : state.Routes slots)
    (names : ∀ t ∈ state.targets, (slots' t.slot).name = (slots t.slot).name) : state.Routes slots' := by
  intro source facts cursors scratch i ids routed t visited
  rw [names t (visits_subset _ _ visited)]
  exact h source facts cursors scratch i ids routed t visited

/-- An admission that is about to route has just loaded the state. -/
theorem Admission.step_route {a : Admission m} {clock : Instant} {world : World m} {state : EngineState m}
    (h : (a.step clock world).1.pc = .route state) : state = world.shared.state := by
  have next := a.step_next clock world
  rw [h] at next
  generalize a.pc = pc at next
  cases next
  rfl

namespace System
variable {sys : System m} {isMatch : Str → Str → Bool} {owns : m.Regex → m.Cache → Prop}

/-- What the owners rest on: updates go where their bot's rules say, and a current instance has the runtime endpoint of a bot
    that feeds it. -/
structure Orderly (sys : System m) : Prop where
  sound : sys.Sound
  settled : sys.world.shared.Settled
  small : sys.world.shared.state.config.nodes < 2 ^ 32
  heard : ∀ t ∈ sys.world.shared.state.targets, ∀ r, (sys.slots t.slot).consumer.runtime = some r →
    sys.world.shared.state.config.accepts (sys.slots t.slot).name = true ∧
      sys.world.shared.state.feeds r.source (sys.slots t.slot).name = true
  routing : ∀ a ∈ sys.admissions, ∀ state, a.pc = .route state → state.Routes sys.slots

theorem Orderly.routes (lawful : m.Lawful isMatch owns) (h : sys.Orderly) : sys.world.shared.state.Routes sys.slots := by
  refine routes_settled lawful h.settled.sourced h.settled.compiled ?_ h.small
  exact (Instances.matched h.sound.shared.instances).imp fun _ _ fits => fits.2.1

/-- An instance keeps its name and its mode. -/
theorem act_name (sound : sys.Sound) (action : Action) {i : Nat} (known : i < sys.world.shared.allocated) :
    ((sys.act action).slots i).name = (sys.slots i).name ∧ ((sys.act action).slots i).mode = (sys.slots i).mode := by
  rcases act_cases sound action with alike | ⟨new, generation, -, -, applied⟩
  · exact ⟨alike.name i, alike.mode i⟩
  · exact ⟨(applied.kept i known).name, (applied.kept i known).mode⟩

/-- An admission after an action routes on a state that one before it had loaded, or on the state then. -/
theorem act_route (sound : sys.Sound) (action : Action) {a : Admission m} (mem : a ∈ (sys.act action).admissions)
    {state : EngineState m} (hpc : a.pc = .route state) :
    (∃ b ∈ sys.admissions, b.pc = .route state) ∨ state = sys.world.shared.state := by
  cases action with
  | begin update =>
    rcases List.mem_append.mp mem with mem | mem
    · exact .inl ⟨a, mem, hpc⟩
    · obtain rfl := List.mem_singleton.mp mem
      cases hpc
  | step j clock =>
    simp only [act] at mem
    split at mem
    · exact .inl ⟨a, mem, hpc⟩
    · rcases List.mem_or_eq_of_mem_set mem with mem | rfl
      · exact .inl ⟨a, mem, hpc⟩
      · exact .inr (Admission.step_route hpc)
  | control control => exact .inl ⟨a, (control_leaves sound.shared control).1 ▸ mem, hpc⟩
  | drain slot =>
    simp only [act] at mem
    split at mem <;> exact .inl ⟨a, mem, hpc⟩
  | consume slot op =>
    simp only [act] at mem
    split at mem <;> exact .inl ⟨a, mem, hpc⟩

theorem act_orderly (lawful : m.Lawful isMatch owns) (h : sys.Orderly) (action : Action)
    (fits : ∀ new generation, action = .control (.apply new) → (sys.world.shared.apply new).1 = .ok generation →
      new.nodes < 2 ^ 32) : (sys.act action).Orderly := by
  refine ⟨(act_sound h.sound action).1, act_settled h.sound h.settled action, ?_, ?_, fun a mem state hpc => ?_⟩
  · rcases act_cases h.sound action with alike | ⟨new, generation, eq, ok, applied⟩
    · rw [alike.config]
      exact h.small
    · rw [applied.config]
      exact fits new generation eq ok
  · rcases act_cases h.sound action with alike | ⟨new, generation, -, -, applied⟩
    · intro t ht r hr
      rw [alike.targets] at ht
      have name : ((sys.act action).slots t.slot).name = (sys.slots t.slot).name := alike.name t.slot
      rw [alike.config, alike.feeds, name]
      rcases alike.runtime t.slot r hr with before | ⟨-, heard⟩
      · exact h.heard t ht r before
      · exact heard
    · exact applied.heard
  · rcases act_route h.sound action mem hpc with ⟨b, hb, loaded⟩ | rfl
    · refine (h.routing b hb state loaded).congr fun t ht => (act_name h.sound action ?_).1
      exact h.sound.known b hb t (by rw [loaded]; exact ht)
    · refine (h.routes lawful).congr fun t ht => (act_name h.sound action ?_).1
      exact Instances.below h.sound.shared.instances t ht

/-- An admission after an action is headed for what one of the same bot was headed for before, or for a current instance that
    its bot feeds. -/
theorem act_ahead (h : sys.Orderly) (action : Action) {a : Admission m} (mem : a ∈ (sys.act action).admissions) {target : Target}
    (ahead : target ∈ a.pc.ahead sys.slots a.update.source) :
    (∃ b ∈ sys.admissions, b.update.source = a.update.source ∧ target ∈ b.pc.ahead sys.slots b.update.source) ∨
      target ∈ sys.world.shared.state.targets ∧
        sys.world.shared.state.feeds a.update.source (sys.slots target.slot).name = true := by
  cases action with
  | begin update =>
    rcases List.mem_append.mp mem with mem | mem
    · exact .inl ⟨a, mem, rfl, ahead⟩
    · obtain rfl := List.mem_singleton.mp mem
      cases ahead
  | step j clock =>
    simp only [act] at mem
    split at mem
    · exact .inl ⟨a, mem, rfl, ahead⟩
    · rename_i b hb
      have hb := List.mem_of_getElem? hb
      rcases List.mem_or_eq_of_mem_set mem with mem | rfl
      · exact .inl ⟨a, mem, rfl, ahead⟩
      · rw [b.step_update] at ahead ⊢
        exact (b.step_ahead clock (h.routing b hb) target ahead).imp_left fun ahead => ⟨b, hb, rfl, ahead⟩
  | control control => exact .inl ⟨a, (control_leaves h.sound.shared control).1 ▸ mem, rfl, ahead⟩
  | drain slot =>
    simp only [act] at mem
    split at mem <;> exact .inl ⟨a, mem, rfl, ahead⟩
  | consume slot op =>
    simp only [act] at mem
    split at mem <;> exact .inl ⟨a, mem, rfl, ahead⟩

end System

/-! ### Claims -/

namespace Traffic
variable {t t' : Traffic m} {slot : Nat} {source : SourceId}

/-- An instance holds or delivers an update of the bot, is about to be given one, or is polled by the bot. -/
inductive Has (t : Traffic m) (slot : Nat) : SourceId → Prop where
  | stored {seq : Nat} {e : Entry Envelope} (h : (t.slots slot).queue.inner.entries[seq]? = some e) : Has t slot e.item.source
  | ahead {a : Admission m} (mem : a ∈ t.sys.admissions) {target : Target} (h : target ∈ a.pc.ahead t.slots a.update.source)
    (here : target.slot = slot) : Has t slot a.update.source
  | polling {p : Polling} (mem : p ∈ t.polls) (here : p.slot = slot) : Has t slot p.source
  | delivering {d : Delivering} (mem : d ∈ t.deliveries) (here : d.slot = slot) : Has t slot d.lease.item.source

theorem mem_bots : source ∈ t.bots slot ↔ t.Has slot source := by
  simp only [bots, List.mem_append, List.mem_map, List.mem_filter, List.any_eq_true, decide_eq_true_eq]
  constructor
  · rintro (((⟨⟨seq, e⟩, stored, rfl⟩ | ⟨a, ⟨mem, target, ahead, here⟩, rfl⟩) | ⟨p, ⟨mem, here⟩, rfl⟩) | ⟨d, ⟨mem, here⟩, rfl⟩)
    · exact .stored (mem_toList.mp stored)
    · exact .ahead mem ahead here
    · exact .polling mem here
    · exact .delivering mem here
  · rintro (⟨stored⟩ | ⟨mem, ahead, here⟩ | ⟨mem, here⟩ | ⟨mem, here⟩)
    · exact .inl (.inl (.inl ⟨⟨_, _⟩, mem_toList.mpr stored, rfl⟩))
    · exact .inl (.inl (.inr ⟨_, ⟨mem, _, ahead, here⟩, rfl⟩))
    · exact .inl (.inr ⟨_, ⟨mem, here⟩, rfl⟩)
    · exact .inr ⟨_, ⟨mem, here⟩, rfl⟩

/-- The bot feeds the current instance, or fed the pull instance that drains. -/
inductive Comes (t : Traffic m) (slot : Nat) (source : SourceId) : Prop where
  | current {target : Target} (mem : target ∈ t.shared.state.targets) (here : target.slot = slot)
    (feeds : t.shared.state.feeds source (t.slots slot).name = true)
  | draining (mem : slot ∈ t.shared.retired) (pull : (t.slots slot).mode = .pull) (fed : (t.slots slot).fedBy = some source)

/-- The bot may get what the instance holds. -/
inductive Claims (t : Traffic m) (slot : Nat) (source : SourceId) : Prop where
  | current {target : Target} (mem : target ∈ t.shared.state.targets) (here : target.slot = slot) {c : Config.Consumer}
    (hc : c ∈ t.shared.state.config.consumers) (name : (t.slots slot).name = c.name) (one : c.kind.servesOneBot = true)
    (feeds : t.shared.state.feeds source c.name = true)
  | draining (mem : slot ∈ t.shared.retired) (pull : (t.slots slot).mode = .pull) (fed : (t.slots slot).fedBy = some source)
  | runtime {r : RuntimeEndpoint} (set : (t.slots slot).consumer.runtime = some r) (by' : r.source = source)
  | polling {p : Polling} (mem : p ∈ t.polls) (here : p.slot = slot) (by' : p.source = source)

/-- The bot's updates are at the instance or come to it, or the bot polls it. -/
def Serves (t : Traffic m) (slot : Nat) (source : SourceId) : Prop := t.Has slot source ∨ t.Comes slot source

/-- Whatever an instance holds is for the one bot that may get it. -/
structure Inv (t : Traffic m) : Prop where
  sys : t.sys.Orderly
  polls : ∀ p ∈ t.polls, p.slot < t.shared.allocated ∧ (t.slots p.slot).mode = .pull ∧
    ∀ response, p.poll.phase ≠ .answered response
  deliveries : ∀ d ∈ t.deliveries, d.slot < t.shared.allocated
  single : ∀ slot < t.shared.allocated, ∀ source claimant, t.Serves slot source → t.Claims slot claimant → source = claimant
  own : t.Own

/-- A pull consumer serves one bot. -/
theorem servesOneBot_of_pull {kind : ConsumerKind} (h : Engine.mode kind = .pull) : kind.servesOneBot = true := by
  cases kind with
  | pull pull => rfl
  | push push => cases h

/-- A bot that feeds a current instance may get what it holds, if the consumer serves one bot. -/
theorem Claims.of_feeds (instances : t.shared.Instances) {target : Target} (mem : target ∈ t.shared.state.targets)
    (one : ∀ c ∈ t.shared.state.config.consumers, (t.slots target.slot).name = c.name →
      (t.slots target.slot).mode = Engine.mode c.kind → c.kind.servesOneBot = true)
    (feeds : t.shared.state.feeds source (t.slots target.slot).name = true) : t.Claims target.slot source := by
  obtain ⟨c, hc, -, name, mode⟩ := (forall₂_exists (Instances.matched instances)).1 target mem
  have name : (t.slots target.slot).name = c.name := name
  exact .current mem rfl hc name (one c hc name mode) (name ▸ feeds)

/-- The bot of a poll feeds the instance that the poll is given, and may get what it holds. -/
theorem pullConsumerFor_spec (instances : t.shared.Instances) {name : Str} (h : t.shared.pullConsumerFor source name = some slot) :
    slot < t.shared.allocated ∧ (t.slots slot).mode = .pull ∧ t.Comes slot source ∧ t.Claims slot source := by
  have drained (h : (t.shared.retired.find? fun slot => (t.slots slot).name = name && (t.slots slot).fedBy = some source &&
      (t.slots slot).mode = .pull) = some slot) :
      slot < t.shared.allocated ∧ (t.slots slot).mode = .pull ∧ t.Comes slot source ∧ t.Claims slot source := by
    have mem := List.mem_of_find?_eq_some h
    have found := List.find?_some h
    simp only [Bool.and_eq_true, decide_eq_true_eq] at found
    obtain ⟨⟨-, fed⟩, pull⟩ := found
    exact ⟨Instances.retiredBelow instances slot mem, pull, .draining mem pull fed, .draining mem pull fed⟩
  unfold Shared.pullConsumerFor at h
  dsimp only at h
  split at h
  · exact drained h
  · rename_i target found
    split at h
    · rename_i feeds
      obtain rfl := Option.some.inj h
      have mem : target ∈ t.shared.state.targets := List.mem_of_find?_eq_some found
      have same : (t.slots target.slot).name = name := by
        unfold EngineState.target at found
        simpa [slots] using List.find?_some found
      simp only [Bool.and_eq_true, decide_eq_true_eq] at feeds
      obtain ⟨pull, feeds⟩ := feeds
      rw [← same] at feeds
      refine ⟨Instances.below instances target mem, pull, .current mem rfl feeds, .of_feeds instances mem ?_ feeds⟩
      exact fun c _ _ mode => servesOneBot_of_pull (mode.symm.trans pull)
    · exact drained h

/-! ### Steps but for reloads -/

/-- What an instance has or is about to have after a step served its bot before. -/
structure Follows (t t' : Traffic m) : Prop where
  orderly : t'.sys.Orderly
  alike : t.shared.Alike t'.shared
  stored : ∀ {slot seq : Nat} {e : Entry Envelope}, (t'.slots slot).queue.inner.entries[seq]? = some e →
    t.Serves slot e.item.source
  ahead : ∀ a ∈ t'.sys.admissions, ∀ target ∈ a.pc.ahead t'.slots a.update.source, t.Serves target.slot a.update.source

theorem Follows.of_eq (h : t.sys.Orderly) (same : t'.sys = t.sys) : t.Follows t' := by
  obtain ⟨sys', polls', deliveries', handed', sent'⟩ := t'
  obtain rfl : sys' = t.sys := same
  exact ⟨h, .refl _, fun stored => .inl (.stored stored), fun a mem target ahead => .inl (.ahead mem ahead rfl)⟩

theorem Follows.of_act {isMatch : Str → Str → Bool} {owns : m.Regex → m.Cache → Prop} (lawful : m.Lawful isMatch owns)
    (h : t.sys.Orderly) {action : Action} (moves : t'.sys = t.sys.act action)
    (alike : t.shared.Alike (t.sys.act action).world.shared)
    (fits : ∀ new generation, action = .control (.apply new) → (t.shared.apply new).1 = .ok generation → new.nodes < 2 ^ 32) :
    t.Follows t' := by
  obtain ⟨sys', polls', deliveries', handed', sent'⟩ := t'
  obtain rfl : sys' = t.sys.act action := moves
  have orderly := System.act_orderly lawful h action fits
  refine ⟨orderly, alike, fun {slot seq e} stored => ?_, fun a mem target ahead => ?_⟩
  · rcases System.act_stored h.sound action stored with ⟨before, stored, item⟩ | ⟨a, ha, commits, source⟩
    · rw [item]
      exact .inl (.stored stored)
    · obtain ⟨target, ahead, here⟩ : ∃ target ∈ a.pc.ahead t.slots a.update.source, target.slot = slot :=
        Pc.ahead_of_commits commits
      rw [source]
      exact .inl (.ahead ha ahead here)
  · have same : a.pc.ahead (t.sys.act action).slots a.update.source = a.pc.ahead t.slots a.update.source :=
      Pc.ahead_congr fun target ht => (System.act_name h.sound action (alike.allocated ▸ orderly.sound.known a mem target ht)).1
    have ahead : target ∈ a.pc.ahead t.slots a.update.source := same ▸ ahead
    rcases System.act_ahead h action mem ahead with ⟨b, hb, source, ahead⟩ | ⟨current, feeds⟩
    · rw [← source]
      exact .inl (.ahead hb ahead rfl)
    · exact .inr (.current current rfl feeds)

theorem Comes.alike (alike : t.shared.Alike t'.shared) (h : t'.Comes slot source) : t.Comes slot source := by
  have name : (t'.slots slot).name = (t.slots slot).name := alike.name slot
  have mode : (t'.slots slot).mode = (t.slots slot).mode := alike.mode slot
  have fedBy : (t'.slots slot).fedBy = (t.slots slot).fedBy := alike.fedBy slot
  cases h with
  | current mem here feeds =>
    rw [alike.targets] at mem
    rw [alike.feeds, name] at feeds
    exact .current mem here feeds
  | draining mem pull fed => exact .draining (alike.retired mem) (mode ▸ pull) (fedBy ▸ fed)

theorem Claims.alike (instances : t.shared.Instances) (alike : t.shared.Alike t'.shared)
    (polling : ∀ p ∈ t'.polls, t.Claims p.slot p.source) (h : t'.Claims slot source) : t.Claims slot source := by
  have name : (t'.slots slot).name = (t.slots slot).name := alike.name slot
  have mode : (t'.slots slot).mode = (t.slots slot).mode := alike.mode slot
  have fedBy : (t'.slots slot).fedBy = (t.slots slot).fedBy := alike.fedBy slot
  cases h with
  | current mem here hc same one feeds =>
    rw [alike.targets] at mem
    rw [alike.config] at hc
    rw [alike.feeds] at feeds
    exact .current mem here hc (name ▸ same) one feeds
  | draining mem pull fed => exact .draining (alike.retired mem) (mode ▸ pull) (fedBy ▸ fed)
  | runtime set by' =>
    rcases alike.runtime slot _ set with before | ⟨⟨target, mem, rfl⟩, accepts, feeds⟩
    · exact .runtime before by'
    · refine .of_feeds instances mem (fun c hc same _ => ?_) (by' ▸ feeds)
      exact servesOneBot_of_accepts hc (same ▸ accepts)
  | polling mem here by' => exact here ▸ by' ▸ polling _ mem

/-- A step after which a poll is of a bot that might poll the instance before, and a delivery is of an update that the instance
    had. -/
theorem Inv.next (h : t.Inv) (follows : t.Follows t')
    (polling : ∀ p ∈ t'.polls, p.slot < t.shared.allocated ∧ (t.slots p.slot).mode = .pull ∧
      (∀ response, p.poll.phase ≠ .answered response) ∧ t.Serves p.slot p.source ∧ t.Claims p.slot p.source)
    (delivering : ∀ d ∈ t'.deliveries, d.slot < t.shared.allocated ∧ t.Serves d.slot d.lease.item.source) (own : t'.Own) :
    t'.Inv := by
  have alike := follows.alike
  have serves {slot : Nat} {source : SourceId} (served : t'.Serves slot source) : t.Serves slot source := by
    rcases served with has | comes
    · cases has with
      | stored stored => exact follows.stored stored
      | ahead mem ahead here => exact here ▸ follows.ahead _ mem _ ahead
      | polling mem here => exact here ▸ (polling _ mem).2.2.2.1
      | delivering mem here => exact here ▸ (delivering _ mem).2
    · exact .inr (comes.alike alike)
  refine ⟨follows.orderly, fun p mem => ?_, fun d mem => ?_, fun slot known source claimant served claims => ?_, own⟩
  · obtain ⟨known, pull, asks, -⟩ := polling p mem
    exact ⟨alike.allocated ▸ known, (alike.mode p.slot).trans pull, asks⟩
  · exact alike.allocated ▸ (delivering d mem).1
  · rw [alike.allocated] at known
    refine h.single slot known source claimant (serves served) ?_
    exact claims.alike h.sys.sound.shared.instances alike fun p mem => (polling p mem).2.2.2.2

end Traffic

end Tgin.Engine
