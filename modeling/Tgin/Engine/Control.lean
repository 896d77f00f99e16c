import Tgin.Reload

/-! Runs of the control plane: reloads, ends of drains, `setWebhook` and `deleteWebhook`, and usernames, each one
    step under the write lock. -/

namespace Tgin.Engine
open Queue Rules

variable {m : Matchers}

/-- What the control plane does next. -/
inductive Control where
  | apply (new : Config)
  /-- The drain task of `slot` with the token `drain` ends. -/
  | retire (slot drain : Nat)
  | setRuntimeEndpoint (consumer : Str) (source : SourceId) (token : Str) (endpoint : Option (Str × Option Str))
  | setUsername (source : SourceId) (username : Option Str)

namespace Shared

def control (shared : Shared m) : Control → Shared m
  | .apply new => (shared.apply new).2
  | .retire slot drain =>
    if shared.tasks.contains (slot, drain) then
      let shared := { shared with tasks := shared.tasks.erase (slot, drain) }
      (shared.retire slot drain).getD shared
    else shared
  | .setRuntimeEndpoint consumer source token endpoint => (shared.setRuntimeEndpoint consumer source token endpoint).2
  | .setUsername source username => shared.setUsername source username

/-- The state after a run. -/
def run (shared : Shared m) (controls : List Control) : Shared m := controls.foldl control shared

@[simp] theorem run_append (shared : Shared m) (controls controls' : List Control) :
    shared.run (controls ++ controls') = (shared.run controls).run controls' := List.foldl_append

theorem run_concat (shared : Shared m) (controls : List Control) (control : Control) :
    shared.run (controls ++ [control]) = (shared.run controls).control control := run_append ..

/-- What every step keeps holds after every run. -/
theorem run_induction {P : Shared m → Prop} {shared : Shared m} (start : P shared)
    (step : ∀ shared control, P shared → P (shared.control control)) (controls : List Control) :
    P (shared.run controls) := by
  induction controls generalizing shared with
  | nil => exact start
  | cons control controls ih => exact ih (step shared control start)

end Shared

/-! ### What a commit does to the instances -/

/-- What a reload leaves of an instance: its name, its mode and what its queue holds; it sets no runtime endpoint. -/
structure Slot.Kept (s s' : Slot) : Prop where
  name : s'.name = s.name
  mode : s'.mode = s.mode
  closed : s'.closed = s.closed
  dropped : s'.dropped = s.dropped
  queue : ∃ cfg notified, s'.queue = { s.queue with inner := { s.queue.inner with cfg }, notified }
  runtime : s'.consumer.runtime = s.consumer.runtime ∨ s'.consumer.runtime = none

namespace Slot.Kept
variable {s s' s'' : Slot}

theorem refl (s : Slot) : Kept s s := ⟨rfl, rfl, rfl, rfl, ⟨_, _, rfl⟩, .inl rfl⟩

theorem trans (h : Kept s s') (h' : Kept s' s'') : Kept s s'' := by
  obtain ⟨cfg, n, hq⟩ := h.queue
  obtain ⟨cfg', n', hq'⟩ := h'.queue
  refine ⟨h'.name.trans h.name, h'.mode.trans h.mode, h'.closed.trans h.closed, h'.dropped.trans h.dropped,
    ⟨cfg', n', by rw [hq', hq]⟩, ?_⟩
  rcases h'.runtime with same | none
  · exact h.runtime.imp same.trans same.trans
  · exact .inr none

/-- Changing how the instance drains keeps it. -/
theorem drains (s : Slot) (draining : Bool) (drain : Option Nat) (fedBy : Option SourceId) :
    Kept s { s with draining, drain, fedBy } := ⟨rfl, rfl, rfl, rfl, ⟨_, _, rfl⟩, .inl rfl⟩

theorem clear (s : Slot) : Kept s { s with consumer := s.consumer.setRuntimeEndpoint none } := by
  refine ⟨rfl, ?_, rfl, rfl, ⟨_, _, rfl⟩, .inr ?_⟩ <;>
  · simp only [Slot.mode]
    cases s.consumer <;> rfl

theorem set (live : Live) (s : Slot) : Kept s (live.set s) := by
  have queue : Kept s (live.setQueue s) := by
    unfold Live.setQueue
    cases live.queue with
    | none => exact .refl s
    | some queue => exact ⟨rfl, rfl, rfl, rfl, ⟨_, _, rfl⟩, .inl rfl⟩
  refine queue.trans ?_
  rw [Live.set]
  obtain ⟨name, consumer, _⟩ := live.setQueue s
  unfold Live.setTargets
  rcases live.endpoints with _ | endpoints <;> rcases live.options with _ | options <;> cases consumer <;>
    exact ⟨rfl, rfl, rfl, rfl, ⟨_, _, rfl⟩, .inl rfl⟩

theorem update {slots : Nat → Slot} {slot : Nat} (h : Kept (slots slot) s) (i : Nat) :
    Kept (slots i) (Function.update slots slot s i) := by
  by_cases hi : i = slot
  · subst hi
    rwa [Function.update_self]
  · rw [Function.update_of_ne hi]
    exact .refl _

end Slot.Kept

namespace Shared

@[simp] theorem modify_slots (shared : Shared m) (slot : Nat) (f : Slot → Slot) :
    (shared.modify slot f).slots = Function.update shared.slots slot (f (shared.slots slot)) := rfl

/-- A change of one slot that leaves a field alone leaves it alone everywhere. -/
theorem modify_field {β : Type} (shared : Shared m) (field : Slot → β) {slot : Nat} {f : Slot → Slot}
    (h : field (f (shared.slots slot)) = field (shared.slots slot)) (i : Nat) :
    field ((shared.modify slot f).slots i) = field (shared.slots i) := by
  rw [modify_slots]
  by_cases hi : i = slot
  · subst hi
    rw [Function.update_self, h]
  · rw [Function.update_of_ne hi]

/-- What the phases of a commit leave of the engine. -/
structure Keeps (shared shared' : Shared m) : Prop where
  slots : ∀ i, (shared.slots i).Kept (shared'.slots i)
  allocated : shared'.allocated = shared.allocated
  tokenKeys : shared'.tokenKeys = shared.tokenKeys
  tables : shared'.tables = shared.tables
  draining : shared'.draining = shared.draining

namespace Keeps
variable {shared shared' shared'' : Shared m}

theorem refl (shared : Shared m) : Keeps shared shared := ⟨fun _ => .refl _, rfl, rfl, rfl, rfl⟩

theorem trans (h : Keeps shared shared') (h' : Keeps shared' shared'') : Keeps shared shared'' :=
  ⟨fun i => (h.slots i).trans (h'.slots i), h'.allocated.trans h.allocated, h'.tokenKeys.trans h.tokenKeys,
    h'.tables.trans h.tables, h'.draining.trans h.draining⟩

theorem modify {slot : Nat} {f : Slot → Slot} (h : (shared.slots slot).Kept (f (shared.slots slot))) :
    Keeps shared (shared.modify slot f) := ⟨.update h, rfl, rfl, rfl, rfl⟩

/-- A loop whose rounds keep the instances keeps them. -/
theorem foldl {α : Type} {f : Shared m → α → Shared m} (step : ∀ shared a, Keeps shared (f shared a)) (list : List α)
    (shared : Shared m) : Keeps shared (list.foldl f shared) := by
  induction list generalizing shared with
  | nil => exact .refl shared
  | cons a list ih => exact (step shared a).trans (ih (f shared a))

end Keeps

theorem keeps_live (live : Live) (shared : Shared m) : Keeps shared (shared.modify live.slot live.set) :=
  .modify (.set live _)

theorem keeps_revive (shared : Shared m) (slot : Nat) : Keeps shared (shared.revive slot) :=
  ⟨.update (.drains ..), rfl, rfl, rfl, rfl⟩

theorem keeps_start (shared : Shared m) (slot : Nat) : Keeps shared (shared.start slot) := .modify (.drains ..)

theorem keeps_beginDrain (shared : Shared m) (slot : Nat) : Keeps shared (shared.beginDrain slot) :=
  ⟨.update (.drains ..), rfl, rfl, rfl, rfl⟩

/-- A loop that clears the runtime endpoints of some instances keeps the rest. -/
theorem keeps_clear {α : Type} (slot : α → Nat) (clears : Shared m → α → Bool) (shared : Shared m) (a : α) :
    Keeps shared (if clears shared a then
      shared.modify (slot a) fun s => { s with consumer := s.consumer.setRuntimeEndpoint none } else shared) := by
  split
  · exact .modify (.clear _)
  · exact .refl shared

theorem keeps_keepRuntimeEndpoints (shared : Shared m) (state : EngineState m) :
    Keeps shared (shared.keepRuntimeEndpoints state) :=
  .foldl (keeps_clear Target.slot fun shared (target : Target) => shared.clears state (shared.slots target.slot)) ..

theorem keeps_evictRotatedCaptures (shared : Shared m) (state : EngineState m) :
    Keeps shared (shared.evictRotatedCaptures state) :=
  .foldl (keeps_clear id fun shared slot => shared.evicts state (shared.slots slot)) ..

theorem keeps_changeInstances (shared : Shared m) (changes : Changes) : Keeps shared (shared.changeInstances changes) :=
  (((Keeps.foldl (fun shared live => keeps_live live shared) changes.live shared).trans
    (.foldl keeps_revive changes.revived _)).trans (.foldl keeps_start changes.started _)).trans
    (.foldl keeps_beginDrain changes.retiring _)

theorem keeps_commit (shared : Shared m) (state : Option (EngineState m)) (changes : Changes) :
    Keeps shared (shared.commit state changes) := by
  have changed := keeps_changeInstances shared changes
  cases state with
  | none => exact changed
  | some state =>
    have cleared := (changed.trans (keeps_keepRuntimeEndpoints _ state)).trans (keeps_evictRotatedCaptures _ state)
    exact ⟨cleared.slots, cleared.allocated, cleared.tokenKeys, cleared.tables, cleared.draining⟩

/-- A loop whose rounds leave a field alone leaves it alone. -/
theorem foldl_field {α β : Type} (field : Shared m → β) {f : Shared m → α → Shared m}
    (step : ∀ shared a, field (f shared a) = field shared) (list : List α) (shared : Shared m) :
    field (list.foldl f shared) = field shared := by
  induction list generalizing shared with
  | nil => rfl
  | cons a list ih => exact (ih _).trans (step shared a)

@[simp] theorem commit_state (shared : Shared m) (state : EngineState m) (changes : Changes) :
    (shared.commit (some state) changes).state = state := rfl

@[simp] theorem changeInstances_state (shared : Shared m) (changes : Changes) :
    (shared.changeInstances changes).state = shared.state := by
  have revived (shared : Shared m) (slot : Nat) : (shared.revive slot).state = shared.state := rfl
  have started (shared : Shared m) (slot : Nat) : (shared.start slot).state = shared.state := rfl
  have retiring (shared : Shared m) (slot : Nat) : (shared.beginDrain slot).state = shared.state := rfl
  have live (shared : Shared m) (live : Live) : (shared.modify live.slot live.set).state = shared.state := rfl
  rw [changeInstances, foldl_field (·.state) retiring, foldl_field (·.state) started, foldl_field (·.state) revived,
    foldl_field (·.state) live]

theorem foldl_revive_retired (slots : List Nat) (shared : Shared m) :
    (slots.foldl revive shared).retired = shared.retired.filter (· ∉ slots) := by
  induction slots generalizing shared with
  | nil => exact (List.filter_eq_self.mpr fun _ _ => by simp).symm
  | cons slot slots ih =>
    rw [List.foldl_cons, ih]
    simp only [revive, modify, List.filter_filter]
    congr 1
    funext r
    simp [Bool.and_comm]

theorem foldl_beginDrain_retired (slots : List Nat) (shared : Shared m) :
    (slots.foldl beginDrain shared).retired = shared.retired ++ slots := by
  induction slots generalizing shared with
  | nil => simp
  | cons slot slots ih =>
    rw [List.foldl_cons, ih]
    simp [beginDrain, modify]

theorem changeInstances_retired (shared : Shared m) (changes : Changes) :
    (shared.changeInstances changes).retired = shared.retired.filter (· ∉ changes.revived) ++ changes.retiring := by
  have started (shared : Shared m) (slot : Nat) : (shared.start slot).retired = shared.retired := rfl
  have live (shared : Shared m) (live : Live) : (shared.modify live.slot live.set).retired = shared.retired := rfl
  rw [changeInstances, foldl_beginDrain_retired, foldl_field (·.retired) started, foldl_revive_retired,
    foldl_field (·.retired) live]

theorem foldl_clear_retired {α : Type} (slot : α → Nat) (clears : Shared m → α → Bool) (list : List α) (shared : Shared m) :
    (list.foldl (fun shared a => if clears shared a then
      shared.modify (slot a) fun s => { s with consumer := s.consumer.setRuntimeEndpoint none } else shared) shared).retired =
        shared.retired := by
  refine foldl_field (·.retired) (fun shared a => ?_) list shared
  split <;> rfl

theorem commit_retired (shared : Shared m) (state : Option (EngineState m)) (changes : Changes) :
    (shared.commit state changes).retired = shared.retired.filter (· ∉ changes.revived) ++ changes.retiring := by
  cases state with
  | none => exact shared.changeInstances_retired changes
  | some state =>
    refine Eq.trans ?_ (shared.changeInstances_retired changes)
    refine (foldl_clear_retired id (fun shared slot => shared.evicts state (shared.slots slot)) _ _).trans ?_
    exact foldl_clear_retired Target.slot (fun shared (t : Target) => shared.clears state (shared.slots t.slot)) ..

theorem close_eq_some {shared shared' : Shared m} {slot drain : Nat} (h : shared.close slot drain = some shared') :
    shared.cancelled drain = false ∧ slot ∈ shared.retired ∧
      shared' = { shared with retired := shared.retired.erase slot }.modify slot fun s =>
        { s with drain := none, closed := true } := by
  unfold close at h
  split at h
  · cases h
  · rename_i live
    split at h
    · cases h
    · rename_i mem
      exact ⟨Bool.eq_false_iff.mpr live, by simpa using mem, (Option.some.inj h).symm⟩

/-- The only thing a `setWebhook` or a `deleteWebhook` changes: the runtime endpoint of the current instance of a push
    consumer that accepts one and that the bot feeds, for the bot's current token. -/
theorem setRuntimeEndpoint_cases (shared : Shared m) (consumer : Str) (source : SourceId) (token : Str)
    (endpoint : Option (Str × Option Str)) :
    let shared' := (shared.setRuntimeEndpoint consumer source token endpoint).2
    shared' = shared ∨ ∃ target,
      shared.tokenFingerprint shared.state source = some (shared.tokenKeys token) ∧
      shared.state.target shared.slots consumer = some target ∧
      shared.state.config.accepts consumer ∧ shared.state.feeds source consumer ∧
      shared' = shared.modify target.slot fun s => { s with
        consumer := s.consumer.setRuntimeEndpoint (endpoint.map fun (url, secretToken) =>
          { url, secretToken, source, tokenFingerprint := shared.tokenKeys token }) } := by
  unfold setRuntimeEndpoint authenticated
  by_cases auth : shared.tokenFingerprint shared.state source = some (shared.tokenKeys token)
  · simp only [auth, if_true]
    cases ht : shared.state.target shared.slots consumer with
    | none => exact .inl rfl
    | some target =>
      dsimp only
      cases (shared.slots target.slot).consumer with
      | pull => exact .inl rfl
      | push push =>
        dsimp only
        split
        · exact .inl rfl
        · rename_i allowed
          simp only [Bool.or_eq_true, Bool.not_eq_true', not_or, Bool.not_eq_false] at allowed
          rcases endpoint with _ | ⟨url, secretToken⟩ <;> dsimp only <;> split
          · exact .inl rfl
          · exact .inr ⟨target, trivial, rfl, allowed.1, allowed.2, rfl⟩
          · exact .inl rfl
          · exact .inr ⟨target, trivial, rfl, allowed.1, allowed.2, rfl⟩
  · dsimp only
    rw [if_neg auth]
    exact .inl rfl

theorem setRuntimeEndpoint_state (shared : Shared m) (consumer : Str) (source : SourceId) (token : Str)
    (endpoint : Option (Str × Option Str)) :
    (shared.setRuntimeEndpoint consumer source token endpoint).2.state = shared.state := by
  rcases shared.setRuntimeEndpoint_cases consumer source token endpoint with h | ⟨target, -, -, -, -, h⟩ <;> rw [h]
  rfl

/-- The end of a drain: nothing, or the instance is closed and what it held is dropped. -/
theorem retire_cases (shared : Shared m) (slot drain : Nat) :
    let shared' := shared.control (.retire slot drain)
    (∃ tasks, shared' = { shared with tasks }) ∨
      slot ∈ shared.retired ∧ shared' = { shared with
        tasks := shared.tasks.erase (slot, drain), retired := shared.retired.erase slot }.modify slot fun s =>
          Slot.drainLate { s with drain := none, closed := true } := by
  simp only [control]
  split
  · cases h : ({ shared with tasks := shared.tasks.erase (slot, drain) } : Shared m).retire slot drain with
    | none => exact .inl ⟨_, rfl⟩
    | some shared' =>
      obtain ⟨closed, hclose, rfl⟩ := Option.map_eq_some_iff.mp h
      obtain ⟨-, mem, rfl⟩ := close_eq_some hclose
      refine .inr ⟨mem, ?_⟩
      simp only [Option.getD_some, modify, Function.update_idem, Function.update_self]
  · exact .inl ⟨_, rfl⟩

end Shared

end Tgin.Engine
