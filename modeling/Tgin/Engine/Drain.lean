import Tgin.Engine.Captures

/-! The shutdown drain. Once it has begun every instance, current or retired, drains after every step: reloads, ends of drains and
    calls that drain or resume one consumer (`run_draining`). -/

namespace Tgin.Engine
open Queue Rules

variable {m : Matchers}

/-! ### The calls -/

def Slot.beginDrain (slot : Slot) : Slot := { slot with draining := true }

def Slot.endDrain (slot : Slot) : Slot := { slot with draining := false }

/-- Starts the shutdown drain of every consumer, current and retired, and of every instance a later reload starts. -/
def beginDrain (shared : Shared m) : Shared m :=
  let shared := { shared with draining := true }
  let shared := shared.state.targets.foldl (fun shared t => shared.modify t.slot Slot.beginDrain) shared
  shared.retired.foldl (fun shared slot => shared.modify slot Slot.beginDrain) shared

/-- The instance of the current consumer `name`. -/
def consumer (shared : Shared m) (name : Str) : Option Nat := (shared.state.target shared.slots name).map (·.slot)

/-- Ends the drain of the consumer `name` unless the whole engine drains. That it leases again is left out. -/
def resume (shared : Shared m) (name : Str) : Shared m :=
  match consumer shared name with
  | none => shared
  | some slot => if shared.draining then shared else shared.modify slot Slot.endDrain

variable (m) in
/-- An engine and the calls of `drain` that have found their consumer: they take no lock. -/
structure Drained where
  shared : Shared m
  found : List Nat

inductive DrainStep where
  | control (control : Control)
  | beginDrain
  | resume (name : Str)
  /-- A call of `drain` looks its consumer up. -/
  | drain (name : Str)
  /-- It begins the drain of what it found. -/
  | drainFound (slot : Nat)

namespace Drained

def step (s : Drained m) : DrainStep → Drained m
  | .control control => { s with shared := s.shared.control control }
  | .beginDrain => { s with shared := Engine.beginDrain s.shared }
  | .resume name => { s with shared := Engine.resume s.shared name }
  | .drain name => { s with found := s.found ++ (consumer s.shared name).toList }
  | .drainFound slot =>
    if slot ∈ s.found then { shared := s.shared.modify slot Slot.beginDrain, found := s.found.erase slot } else s

def run (s : Drained m) (steps : List DrainStep) : Drained m := steps.foldl step s

end Drained

/-! ### What a step leaves draining -/

/-- The engine's flag stays, and where it is set every instance that drains goes on draining. -/
structure Drains (shared shared' : Shared m) : Prop where
  flag : shared'.draining = shared.draining
  slots : shared.draining → ∀ i, (shared.slots i).draining → (shared'.slots i).draining

namespace Drains
variable {shared shared' shared'' : Shared m}

theorem refl (shared : Shared m) : Drains shared shared := ⟨rfl, fun _ _ => id⟩

theorem trans (h : Drains shared shared') (h' : Drains shared' shared'') : Drains shared shared'' :=
  ⟨h'.flag.trans h.flag, fun flag i drains => h'.slots (h.flag.trans flag) i (h.slots flag i drains)⟩

theorem modify {slot : Nat} {f : Slot → Slot}
    (h : shared.draining → (shared.slots slot).draining → (f (shared.slots slot)).draining) : Drains shared (shared.modify slot f) := by
  refine ⟨rfl, fun flag i drains => ?_⟩
  rw [Shared.modify_slots]
  rcases eq_or_ne i slot with rfl | ne
  · rw [Function.update_self]
    exact h flag drains
  · rwa [Function.update_of_ne ne]

theorem foldl {α : Type} {f : Shared m → α → Shared m} (step : ∀ shared a, Drains shared (f shared a)) (list : List α)
    (shared : Shared m) : Drains shared (list.foldl f shared) := by
  induction list generalizing shared with
  | nil => exact .refl shared
  | cons a list ih => exact (step shared a).trans (ih (f shared a))

/-- What each round sets draining drains after the loop. -/
theorem foldl_mem {α : Type} {f : Shared m → α → Shared m} (step : ∀ shared a, Drains shared (f shared a)) {slot : α → Nat}
    (sets : ∀ shared a, shared.draining → ((f shared a).slots (slot a)).draining) {list : List α} {a : α} (ha : a ∈ list)
    (shared : Shared m) (flag : shared.draining) : ((list.foldl f shared).slots (slot a)).draining := by
  induction list generalizing shared with
  | nil => cases ha
  | cons b list ih =>
    have flag' := (step shared b).flag.trans flag
    rcases List.mem_cons.mp ha with rfl | ha
    · exact (foldl step list (f shared a)).slots flag' (slot a) (sets shared a flag)
    · exact ih ha (f shared b) flag'

end Drains

section
variable {shared : Shared m}

theorem drains_live (shared : Shared m) (live : Live) : Drains shared (shared.modify live.slot live.set) := by
  refine .modify fun _ drains => ?_
  unfold Live.set Live.setTargets Live.setQueue
  split
  · split
    · exact drains
    · exact drains
  · split
    · exact drains
    · exact drains
  · split
    · exact drains
    · exact drains

/-- A draining instance comes back draining while the engine drains. -/
theorem drains_revive (shared : Shared m) (slot : Nat) : Drains shared (shared.revive slot) := by
  refine ⟨rfl, fun flag i drains => ?_⟩
  unfold Shared.revive
  rw [Shared.modify_slots]
  rcases eq_or_ne i slot with rfl | ne
  · rw [Function.update_self]
    exact Bool.and_eq_true_iff.mpr ⟨drains, flag⟩
  · rwa [Function.update_of_ne ne]

theorem drains_start (shared : Shared m) (slot : Nat) : Drains shared (shared.start slot) :=
  .modify fun _ drains => Bool.or_eq_true_iff.mpr (.inl drains)

theorem drains_beginDrain (shared : Shared m) (slot : Nat) : Drains shared (shared.beginDrain slot) := by
  refine ⟨rfl, fun _ i drains => ?_⟩
  unfold Shared.beginDrain
  rw [Shared.modify_slots]
  rcases eq_or_ne i slot with rfl | ne
  · rw [Function.update_self]
  · rwa [Function.update_of_ne ne]

theorem drains_clear {α : Type} (slot : α → Nat) (clears : Shared m → α → Bool) (shared : Shared m) (a : α) :
    Drains shared (if clears shared a then
      shared.modify (slot a) fun s => { s with consumer := s.consumer.setRuntimeEndpoint none } else shared) := by
  split
  · exact .modify fun _ drains => drains
  · exact .refl shared

/-- A commit ends no drain while the engine drains, and what it starts or retires drains. -/
theorem drains_commit (shared : Shared m) (state : EngineState m) (changes : Changes) :
    Drains shared (shared.commit (some state) changes) ∧ (shared.draining → ∀ i ∈ changes.started ++ changes.retiring,
      ((shared.commit (some state) changes).slots i).draining) := by
  have live := Drains.foldl (fun shared live => drains_live shared live) changes.live shared
  have revived := live.trans (.foldl drains_revive changes.revived _)
  have started := revived.trans (.foldl drains_start changes.started _)
  have changed : Drains shared (shared.changeInstances changes) := started.trans (.foldl drains_beginDrain changes.retiring _)
  have kept : Drains (shared.changeInstances changes) ((shared.changeInstances changes).keepRuntimeEndpoints state) :=
    .foldl (drains_clear Target.slot fun shared (target : Target) => shared.clears state (shared.slots target.slot)) ..
  have evicted : Drains ((shared.changeInstances changes).keepRuntimeEndpoints state)
      (((shared.changeInstances changes).keepRuntimeEndpoints state).evictRotatedCaptures state) :=
    .foldl (drains_clear id fun shared slot => shared.evicts state (shared.slots slot)) ..
  have cleared := kept.trans evicted
  have whole := changed.trans cleared
  refine ⟨⟨whole.flag, whole.slots⟩, fun flag i hi => cleared.slots (changed.flag.trans flag) i ?_⟩
  rcases List.mem_append.mp hi with hs | hr
  · refine (Drains.foldl drains_beginDrain changes.retiring _).slots (started.flag.trans flag) i ?_
    refine @Drains.foldl_mem m Nat Shared.start drains_start id (fun shared slot flag => ?_) _ _ hs _ (revived.flag.trans flag)
    unfold Shared.start
    rw [Shared.modify_slots, id, Function.update_self]
    exact Bool.or_eq_true_iff.mpr (.inr flag)
  · refine @Drains.foldl_mem m Nat Shared.beginDrain drains_beginDrain id (fun shared slot _ => ?_) _ _ hr _ (started.flag.trans flag)
    unfold Shared.beginDrain
    rw [Shared.modify_slots, id, Function.update_self]

/-! ### Where a new target's instance comes from -/

/-- An instance that was current or drained, or is started. -/
def Placed (old : Option (EngineState m)) (retired started : List Nat) (slot : Nat) : Prop :=
  (∃ t ∈ oldTargets old, t.slot = slot) ∨ slot ∈ retired ∨ slot ∈ started

theorem placed_replace (old : Option (EngineState m)) (slots : Nat → Slot) (retired : List Nat) (sourceNames : List Str)
    (c : Config.Consumer) (d : Plan.Draft) (h : ∀ t ∈ d.targets, Placed old retired d.changes.started t.slot) :
    let d' := Plan.replace slots retired sourceNames c d
    ∀ t ∈ d'.targets, Placed old retired d'.changes.started t.slot := by
  intro d'
  unfold d' Plan.replace
  split
  · rename_i slot hd
    refine List.forall_mem_append.mpr ⟨h, List.forall_mem_singleton.mpr ?_⟩
    exact .inr (.inl (Plan.of_draining hd).1)
  · refine List.forall_mem_append.mpr ⟨fun t ht => ?_, List.forall_mem_singleton.mpr ?_⟩
    · exact (h t ht).imp_right (Or.imp_right (List.mem_append_left _))
    · exact .inr (.inr (List.mem_append_right _ (List.mem_singleton_self _)))

theorem placed_consumer (old : Option (EngineState m)) (slots : Nat → Slot) (retired : List Nat) (namesGrew : Bool)
    (sourceNames : List Str) (d : Plan.Draft) (c : Config.Consumer)
    (h : ∀ t ∈ d.targets, Placed old retired d.changes.started t.slot) :
    let d' := Plan.consumer old slots retired namesGrew sourceNames d c
    ∀ t ∈ d'.targets, Placed old retired d'.changes.started t.slot := by
  intro d'
  unfold d' Plan.consumer
  split
  · rename_i slot written hp
    split
    · refine List.forall_mem_append.mpr ⟨h, List.forall_mem_singleton.mpr ?_⟩
      obtain ⟨t, ht, rfl, -⟩ := Plan.of_previous hp
      exact .inl ⟨t, ht, rfl⟩
    · exact placed_replace old slots retired sourceNames c _ h
  · exact placed_replace old slots retired sourceNames c d h

theorem placed_foldl {old : Option (EngineState m)} {slots : Nat → Slot} {retired : List Nat} {namesGrew : Bool}
    {sourceNames : List Str} (cs : List Config.Consumer) (d : Plan.Draft)
    (h : ∀ t ∈ d.targets, Placed old retired d.changes.started t.slot) :
    let d' := cs.foldl (Plan.consumer old slots retired namesGrew sourceNames) d
    ∀ t ∈ d'.targets, Placed old retired d'.changes.started t.slot := by
  induction cs generalizing d with
  | nil => exact h
  | cons c cs ih => exact ih _ (placed_consumer old slots retired namesGrew sourceNames d c h)

/-! ### The invariant -/

/-- While the engine drains, every instance does. -/
structure Draining (shared : Shared m) : Prop where
  instances : shared.Instances
  current : shared.draining → ∀ t ∈ shared.state.targets, (shared.slots t.slot).draining
  retired : shared.draining → ∀ r ∈ shared.retired, (shared.slots r).draining

/-- A step that makes no instance current and retires none. -/
theorem Draining.of_drains (h : Draining shared) {shared' : Shared m} (drains : Drains shared shared') (instances : shared'.Instances)
    (targets : ∀ t ∈ shared'.state.targets, t ∈ shared.state.targets) (retired : ∀ r ∈ shared'.retired, r ∈ shared.retired) :
    Draining shared' where
  instances := instances
  current flag t ht := drains.slots (drains.flag ▸ flag) t.slot (h.current (drains.flag ▸ flag) t (targets t ht))
  retired flag r hr := drains.slots (drains.flag ▸ flag) r (h.retired (drains.flag ▸ flag) r (retired r hr))

theorem draining_apply (h : Draining shared) (new : Config) : Draining (shared.control (.apply new)) := by
  have instances := control_instances shared (.apply new) h.instances
  rcases shared.apply_cases new with ⟨error, happly⟩ | ⟨state, changes, slots, allocated, hbuild, happly⟩
  · rw [Shared.control, happly]
    exact h
  · rw [Shared.control, happly] at instances ⊢
    obtain ⟨planned, -, -, -, namesGrew, d, hd, htargets, rfl, rfl, hchanges⟩ := Plan.build_eq_ok hbuild
    -- Planning makes new instances and leaves those there are.
    have drafted : Plan.Drafted (some shared.state) shared.slots shared.retired shared.allocated new.consumers state.sourceNames
        { changes := { live := [], started := [], revived := [], retiring := [] }, targets := [], slots := shared.slots,
          allocated := shared.allocated } d := by
      rw [hd]
      exact Plan.drafted _ _ _ new.consumers le_rfl (Plan.inherited_below h.instances)
    have same : ∀ i < shared.allocated, d.slots i = shared.slots i := drafted.kept
    have placed : ∀ t ∈ d.targets, Placed (some shared.state) shared.retired d.changes.started t.slot := by
      rw [hd]
      exact placed_foldl new.consumers _ (List.forall_mem_nil _)
    obtain ⟨drains, sets⟩ :=
      drains_commit { shared with slots := d.slots, allocated := d.allocated, tables := shared.tables + 1 } state changes
    have before (flag : shared.draining) (i : Nat) (hi : i ∈ shared.state.targets.map (·.slot) ++ shared.retired) :
        (d.slots i).draining := by
      rcases List.mem_append.mp hi with hi | hr
      · obtain ⟨t, ht, rfl⟩ := List.mem_map.mp hi
        rw [same _ (h.instances.below t ht)]
        exact h.current flag t ht
      · rw [same _ (h.instances.retiredBelow i hr)]
        exact h.retired flag i hr
    refine ⟨instances, fun flag t ht => ?_, fun flag r hr => ?_⟩
    · have flag : shared.draining := drains.flag ▸ flag
      rw [Shared.commit_state, htargets] at ht
      rcases placed t ht with ⟨t', ht', slot⟩ | hr | hs
      · exact drains.slots flag t.slot (before flag _ (List.mem_append_left _ (List.mem_map.mpr ⟨t', ht', slot⟩)))
      · exact drains.slots flag t.slot (before flag _ (List.mem_append_right _ hr))
      · exact sets flag t.slot (List.mem_append_left _ (hchanges ▸ hs))
    · have flag : shared.draining := drains.flag ▸ flag
      rw [Shared.commit_retired] at hr
      rcases List.mem_append.mp hr with hr | hr
      · exact drains.slots flag r (before flag _ (List.mem_append_right _ (List.mem_of_mem_filter hr)))
      · exact sets flag r (List.mem_append_right _ hr)

theorem draining_control (h : Draining shared) (control : Control) : Draining (shared.control control) := by
  have instances := control_instances shared control h.instances
  cases control with
  | apply new => exact draining_apply h new
  | retire slot drain =>
    rcases shared.retire_cases slot drain with ⟨tasks, hr⟩ | ⟨mem, hr⟩
    · rw [hr] at instances ⊢
      exact ⟨instances, h.current, h.retired⟩
    · rw [hr] at instances ⊢
      refine h.of_drains ⟨rfl, fun _ i drains => ?_⟩ instances (fun _ ht => ht) fun _ => List.mem_of_mem_erase
      rw [Shared.modify_slots]
      rcases eq_or_ne i slot with rfl | ne
      · rw [Function.update_self]
        exact drains
      · rwa [Function.update_of_ne ne]
  | setRuntimeEndpoint consumer source token endpoint =>
    rcases shared.setRuntimeEndpoint_cases consumer source token endpoint with hs | ⟨target, -, -, -, -, hs⟩
    · rw [Shared.control, hs]
      exact h
    · rw [Shared.control, hs] at instances ⊢
      exact h.of_drains (.modify fun _ drains => drains) instances (fun _ ht => ht) fun _ hr => hr
  | setUsername source username =>
    obtain ⟨table, sources, tables, hs⟩ := shared.setUsername_cases source username
    rw [Shared.control, hs] at instances ⊢
    exact ⟨instances, h.current, h.retired⟩

/-- Only how the instances drain changes. -/
structure Same (shared shared' : Shared m) : Prop where
  state : shared'.state = shared.state
  retired : shared'.retired = shared.retired
  allocated : shared'.allocated = shared.allocated
  slots : ∀ i, (shared'.slots i).name = (shared.slots i).name ∧ (shared'.slots i).mode = (shared.slots i).mode ∧
    (shared'.slots i).closed = (shared.slots i).closed

theorem Same.instances {shared' : Shared m} (same : Same shared shared') (h : shared.Instances) : shared'.Instances := by
  unfold Shared.Instances
  rw [same.state, same.retired, same.allocated]
  exact h.congr fun i _ => same.slots i

theorem same_modify (shared : Shared m) (slot : Nat) (draining : Bool) :
    Same shared (shared.modify slot fun s => { s with draining }) := by
  refine ⟨rfl, rfl, rfl, fun i => ?_⟩
  rw [Shared.modify_slots]
  rcases eq_or_ne i slot with rfl | ne
  · rw [Function.update_self]
    exact ⟨rfl, rfl, rfl⟩
  · rw [Function.update_of_ne ne]
    exact ⟨rfl, rfl, rfl⟩

theorem Same.trans {shared' shared'' : Shared m} (h : Same shared shared') (h' : Same shared' shared'') : Same shared shared'' :=
  ⟨h'.state.trans h.state, h'.retired.trans h.retired, h'.allocated.trans h.allocated, fun i =>
    ⟨(h'.slots i).1.trans (h.slots i).1, (h'.slots i).2.1.trans (h.slots i).2.1, (h'.slots i).2.2.trans (h.slots i).2.2⟩⟩

theorem same_foldl {α : Type} (slot : α → Nat) (list : List α) (shared : Shared m) :
    Same shared (list.foldl (fun shared a => shared.modify (slot a) Slot.beginDrain) shared) := by
  induction list generalizing shared with
  | nil => exact ⟨rfl, rfl, rfl, fun _ => ⟨rfl, rfl, rfl⟩⟩
  | cons a list ih => exact (same_modify shared (slot a) true).trans (ih _)

theorem drains_modify (shared : Shared m) (slot : Nat) : Drains shared (shared.modify slot Slot.beginDrain) :=
  .modify fun _ _ => rfl

/-- Every instance drains when the shutdown drain has begun. -/
theorem draining_beginDrain (h : Draining shared) : Draining (beginDrain shared) ∧ (beginDrain shared).draining := by
  have first := same_foldl Target.slot shared.state.targets { shared with draining := true }
  have flagged : Drains { shared with draining := true }
      (shared.state.targets.foldl (fun shared t => shared.modify t.slot Slot.beginDrain) { shared with draining := true }) :=
    .foldl (fun shared (t : Target) => drains_modify shared t.slot) ..
  have current := fun t (ht : t ∈ shared.state.targets) =>
    Drains.foldl_mem (fun shared (t : Target) => drains_modify shared t.slot)
      (fun shared t _ => by rw [Shared.modify_slots, Function.update_self]; rfl) ht { shared with draining := true } rfl
  unfold beginDrain
  dsimp only
  generalize shared.state.targets.foldl (fun shared t => shared.modify t.slot Slot.beginDrain) { shared with draining := true } =
    between at first flagged current
  have second : Same between (between.retired.foldl (fun shared slot => shared.modify slot Slot.beginDrain) between) :=
    same_foldl id between.retired between
  have drains : Drains between (between.retired.foldl (fun shared slot => shared.modify slot Slot.beginDrain) between) :=
    .foldl drains_modify ..
  have flag : between.draining := flagged.flag
  refine ⟨⟨?_, fun _ t ht => ?_, fun _ r hr => ?_⟩, drains.flag.trans flag⟩
  · exact second.instances (first.instances h.instances)
  · rw [second.state, first.state] at ht
    exact drains.slots flag t.slot (current t ht)
  · rw [second.retired] at hr
    exact @Drains.foldl_mem m Nat _ drains_modify id
      (fun shared slot _ => by rw [Shared.modify_slots, id, Function.update_self]; rfl) _ _ hr between flag

theorem draining_step {s : Drained m} (h : Draining s.shared) (step : DrainStep) : Draining (s.step step).shared := by
  cases step with
  | control control => exact draining_control h control
  | beginDrain => exact (draining_beginDrain h).1
  | resume name =>
    change Draining (resume s.shared name)
    unfold resume
    split
    · exact h
    · rename_i slot _
      split
      · exact h
      · rename_i running
        exact ⟨(same_modify s.shared slot false).instances h.instances, fun flag => absurd flag running,
          fun flag => absurd flag running⟩
  | drain name => exact h
  | drainFound slot =>
    unfold Drained.step
    dsimp only
    split
    · exact h.of_drains (drains_modify s.shared slot) ((same_modify s.shared slot true).instances h.instances) (fun _ ht => ht)
        fun _ hr => hr
    · exact h

theorem control_flag (shared : Shared m) (control : Control) : (shared.control control).draining = shared.draining := by
  cases control with
  | apply new =>
    rcases shared.apply_cases new with ⟨error, happly⟩ | ⟨state, changes, slots, allocated, -, happly⟩
    · rw [Shared.control, happly]
    · rw [Shared.control, happly]
      exact (Shared.keeps_commit _ (some state) changes).draining
  | retire slot drain =>
    rcases shared.retire_cases slot drain with ⟨tasks, hr⟩ | ⟨-, hr⟩
    · rw [hr]
    · rw [hr]
      rfl
  | setRuntimeEndpoint consumer source token endpoint =>
    rcases shared.setRuntimeEndpoint_cases consumer source token endpoint with hs | ⟨target, -, -, -, -, hs⟩
    · rw [Shared.control, hs]
    · rw [Shared.control, hs]
      rfl
  | setUsername source username =>
    obtain ⟨table, sources, tables, hs⟩ := shared.setUsername_cases source username
    rw [Shared.control, hs]

/-- Nothing undoes a shutdown drain. -/
theorem flag_step {s : Drained m} (h : Draining s.shared) (flag : s.shared.draining) (step : DrainStep) :
    (s.step step).shared.draining := by
  cases step with
  | control control => exact (control_flag s.shared control).trans flag
  | beginDrain => exact (draining_beginDrain h).2
  | resume name =>
    change (resume s.shared name).draining
    unfold resume
    split
    · exact flag
    · rw [if_pos flag]
      exact flag
  | drain name => exact flag
  | drainFound slot =>
    unfold Drained.step
    dsimp only
    split
    · exact flag
    · exact flag

theorem draining_run {s : Drained m} (h : Draining s.shared) (steps : List DrainStep) :
    Draining (s.run steps).shared ∧ (s.shared.draining → (s.run steps).shared.draining) := by
  induction steps generalizing s with
  | nil => exact ⟨h, id⟩
  | cons step steps ih =>
    obtain ⟨draining, flagged⟩ := ih (draining_step h step)
    exact ⟨draining, fun flag => flagged (flag_step h flag step)⟩

theorem draining_new {cfg : Config} {tokenKeys : Str → Nat} (made : Shared.new cfg tokenKeys = .ok shared) : Draining shared := by
  have instances : shared.Instances := run_instances made []
  have idle : shared.draining = false := by
    unfold Shared.new at made
    obtain ⟨⟨state, changes, slots, allocated⟩, -, h⟩ := bind_eq_ok.mp made
    cases h
    exact (Shared.keeps_commit _ none changes).draining
  refine ⟨instances, fun flag => ?_, fun flag => ?_⟩
  · rw [idle] at flag
    cases flag
  · rw [idle] at flag
    cases flag

/-- Once the shutdown drain has begun, in every state of every run each current and each retired instance drains. -/
theorem run_draining {cfg : Config} {tokenKeys : Str → Nat} {engine : Shared m} (made : Shared.new cfg tokenKeys = .ok engine)
    (before after : List DrainStep) :
    let s := Drained.run { shared := engine, found := [] } (before ++ .beginDrain :: after)
    (∀ t ∈ s.shared.state.targets, (s.shared.slots t.slot).draining) ∧ ∀ r ∈ s.shared.retired, (s.shared.slots r).draining := by
  intro s
  obtain ⟨start, -⟩ := draining_run (s := { shared := engine, found := [] }) (draining_new made) before
  obtain ⟨begun, flag⟩ := draining_beginDrain start
  obtain ⟨draining, flagged⟩ :=
    draining_run (s := (Drained.run { shared := engine, found := [] } before).step .beginDrain) begun after
  have here : s = ((Drained.run { shared := engine, found := [] } before).step .beginDrain).run after := List.foldl_append
  rw [here]
  exact ⟨draining.current (flagged flag), draining.retired (flagged flag)⟩

/-- The consumer becomes a pull consumer and a push consumer again, and is resumed: its first instance comes back draining. -/
theorem run_draining_revived :
    let s := Drained.run { shared := pushedEngine, found := [] }
      ([.control (.apply alone)] ++ .beginDrain :: [.control (.apply pushed), .resume [112]])
    (s.shared.state.targets.map (·.slot) = [0] ∧ s.shared.retired = [1]) ∧
      (∀ t ∈ s.shared.state.targets, (s.shared.slots t.slot).draining) ∧ ∀ r ∈ s.shared.retired, (s.shared.slots r).draining := by
  have made : Shared.new pushed List.length = .ok pushedEngine := rfl
  exact ⟨by decide, run_draining made [.control (.apply alone)] [.control (.apply pushed), .resume [112]]⟩

end

end Tgin.Engine
