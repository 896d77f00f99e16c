import Tgin.Engine.Instances

/-! The instances that the engine finds by a consumer's name (`tgin-core/src/engine.rs`): for its `getUpdates`, and for a bot's calls of the
    gateway. -/

namespace Tgin.Engine
open Queue Rules

variable {m : Matchers}

namespace Shared
variable (shared : Shared m)

/-- The current instance of the consumer `name`. -/
def consumer (name : Str) : Option Nat := (shared.state.target shared.slots name).map (·.slot)

/-- Whether the consumer `name` exists: in the current config, or as a removed instance that still drains. -/
def knowsConsumer (name : Str) : Bool :=
  (shared.state.target shared.slots name).isSome || shared.retired.any fun slot => (shared.slots slot).name = name

/-- The pull consumer `name` to poll: the current instance, else one that a reload removed or replaced and that still drains. -/
def pullConsumer (name : Str) : Option Nat :=
  let draining := shared.retired.find? fun slot =>
    let s := shared.slots slot
    s.name = name && s.mode = .pull
  match shared.consumer name with
  | none => draining
  | some slot => if (shared.slots slot).mode = .pull then some slot else draining

/-- Whether the bot `source` routes to the consumer `consumer`: a rule of the current config targets it, or it is a pull instance that a
    reload removed or replaced, that still drains and that `source` fed. -/
def routesTo (source : SourceId) (consumer : Str) : Bool :=
  shared.state.feeds source consumer || shared.retired.any fun slot =>
    let s := shared.slots slot
    s.name = consumer && s.mode = .pull && s.fedBy = some source

/-- The consumer `name` as the bot `source` sees it through its gateway path: the current instance if a rule of `source` targets it, else a
    draining one that it polls. -/
def consumerFor (source : SourceId) (name : Str) : Option Nat :=
  match shared.state.target shared.slots name with
  | some target => if shared.state.feeds source name then some target.slot else shared.pullConsumerFor source name
  | none => shared.pullConsumerFor source name

end Shared

/-- An id that was given out keeps its name. -/
theorem Continues.named {state state' : EngineState m} (h : Continues state state') {i : Nat} {name : Str}
    (given : state.sourceNames[i]? = some name) : state'.sourceNames[i]? = some name := by
  obtain ⟨rest, eq⟩ := h.names
  rw [← eq, List.getElem?_append_left (List.getElem?_eq_some_iff.mp given).1, given]

/-! ### What is found -/

/-- An instance that serves the consumer `name`: it is current or draining, and open. -/
structure Shared.Serving (shared : Shared m) (name : Str) (slot : Nat) : Prop where
  name : (shared.slots slot).name = name
  lives : slot ∈ shared.state.targets.map (·.slot) ∨ slot ∈ shared.retired
  opened : (shared.slots slot).closed = false

namespace Shared
variable {shared : Shared m} {name : Str} {slot : Nat}

theorem of_consumer (h : shared.Instances) (found : shared.consumer name = some slot) : shared.Serving name slot ∧
    ∃ c ∈ shared.state.config.consumers, c.name = name ∧ mode c.kind = (shared.slots slot).mode := by
  obtain ⟨t, there, rfl⟩ := Option.map_eq_some_iff.mp found
  have mem := List.mem_of_find?_eq_some there
  have named : (shared.slots t.slot).name = name := by simpa using List.find?_some there
  obtain ⟨c, hc, -, name', mode'⟩ := (forall₂_exists h.matched).1 t mem
  exact ⟨⟨named, .inl (List.mem_map_of_mem mem), h.current t mem⟩, c, hc, name'.symm.trans named, mode'.symm⟩

/-- A configured consumer has a current instance. -/
theorem consumer_isSome (h : shared.Instances) {c : Config.Consumer} (mem : c ∈ shared.state.config.consumers) :
    ∃ slot, shared.consumer c.name = some slot ∧ (shared.slots slot).mode = mode c.kind := by
  obtain ⟨t, ht, -, name, mode⟩ := (forall₂_exists h.matched).2 c mem
  have found : (shared.state.target shared.slots c.name).isSome :=
    List.find?_isSome.mpr ⟨t, ht, decide_eq_true name⟩
  obtain ⟨t', there⟩ := Option.isSome_iff_exists.mp found
  have named : (shared.slots t'.slot).name = c.name := by simpa using List.find?_some there
  obtain rfl := h.target_unique (List.mem_of_find?_eq_some there) ht (named.trans name.symm)
  exact ⟨t'.slot, by rw [consumer, there]; rfl, mode⟩

/-- The pull consumer of a name is a pull instance that serves it. -/
theorem of_pullConsumer (h : shared.Instances) (found : shared.pullConsumer name = some slot) :
    shared.Serving name slot ∧ (shared.slots slot).mode = .pull := by
  have drains (found : shared.retired.find? (fun slot => (shared.slots slot).name = name && (shared.slots slot).mode = .pull) = some slot) :
      shared.Serving name slot ∧ (shared.slots slot).mode = .pull := by
    have mem := List.mem_of_find?_eq_some found
    have fits := List.find?_some found
    rw [Bool.and_eq_true, decide_eq_true_eq, decide_eq_true_eq] at fits
    exact ⟨⟨fits.1, .inr mem, h.draining slot mem⟩, fits.2⟩
  unfold pullConsumer at found
  cases current : shared.consumer name with
  | none =>
    rw [current] at found
    exact drains found
  | some current' =>
    rw [current] at found
    dsimp only at found
    split at found
    · obtain rfl := Option.some.inj found
      exact ⟨(of_consumer h current).1, ‹_›⟩
    · exact drains found

/-- A pull consumer of the current config is there to poll. -/
theorem pullConsumer_of_configured (h : shared.Instances) {c : Config.Consumer} (mem : c ∈ shared.state.config.consumers)
    (pull : mode c.kind = .pull) : (shared.pullConsumer c.name).isSome := by
  obtain ⟨slot, found, mode⟩ := consumer_isSome h mem
  rw [pullConsumer, found]
  dsimp only
  rw [if_pos (mode.trans pull)]
  rfl

/-- A draining pull consumer is there to poll. -/
theorem pullConsumer_of_retired (mem : slot ∈ shared.retired) (pull : (shared.slots slot).mode = .pull) :
    (shared.pullConsumer (shared.slots slot).name).isSome := by
  have drains : (shared.retired.find? fun other =>
      (shared.slots other).name = (shared.slots slot).name && (shared.slots other).mode = .pull).isSome :=
    List.find?_isSome.mpr ⟨slot, mem, by simp [pull]⟩
  unfold pullConsumer
  cases shared.consumer (shared.slots slot).name with
  | none => exact drains
  | some current =>
    dsimp only
    split
    · rfl
    · exact drains

/-- A step that is no reload retires no instance, and those that drain keep their names and modes. -/
theorem control_retired (shared : Shared m) {control : Control} (live : ∀ new, control ≠ .apply new) :
    ∀ slot ∈ (shared.control control).retired, slot ∈ shared.retired ∧
      ((shared.control control).slots slot).name = (shared.slots slot).name ∧
      ((shared.control control).slots slot).mode = (shared.slots slot).mode := by
  intro slot mem
  cases control with
  | apply new => exact absurd rfl (live new)
  | retire ended drain =>
    rcases shared.retire_cases ended drain with ⟨tasks, eq⟩ | ⟨-, eq⟩ <;> rw [eq] at mem ⊢
    · exact ⟨mem, rfl, rfl⟩
    · exact ⟨List.mem_of_mem_erase mem, modify_field _ (·.name) rfl slot, modify_field _ (·.mode) rfl slot⟩
  | setRuntimeEndpoint consumer source token endpoint =>
    simp only [control] at mem ⊢
    rcases shared.setRuntimeEndpoint_cases consumer source token endpoint with eq | ⟨target, -, -, -, -, eq⟩ <;> rw [eq] at mem ⊢
    · exact ⟨mem, rfl, rfl⟩
    · refine ⟨mem, modify_field _ (·.name) rfl slot, modify_field _ (·.mode) ?_ slot⟩
      simp only [Slot.mode]
      cases (shared.slots target.slot).consumer <;> rfl
  | setUsername source username =>
    have same : (shared.setUsername source username).slots = shared.slots ∧
        (shared.setUsername source username).retired = shared.retired := by
      unfold setUsername
      dsimp only
      split
      · exact ⟨rfl, rfl⟩
      · split
        · exact ⟨rfl, rfl⟩
        · split <;> exact ⟨rfl, rfl⟩
    simp only [control, same.1, same.2] at mem ⊢
    exact ⟨mem, trivial, trivial⟩

end Shared

end Tgin.Engine
