import Tgin.Engine.Instances

/-! Runtime endpoints over runs of reloads: only the bot that feeds a consumer captures it, and only with the token
    it has now. -/

namespace Tgin.Engine
open Queue Rules

variable {m : Matchers}

/-- The token that the bot `source` has in a state. -/
def EngineState.token (state : EngineState m) (source : SourceId) : Option Str :=
  (state.source source).bind fun info => (state.config.bots.find? (·.name = info.name)).map (·.token)

namespace Shared
variable {shared shared' : Shared m} {state : EngineState m} {slot : Slot}

theorem tokenFingerprint_eq (shared : Shared m) (state : EngineState m) (source : SourceId) :
    shared.tokenFingerprint state source = (state.token source).map shared.tokenKeys := by
  unfold tokenFingerprint EngineState.token
  cases state.source source with
  | none => rfl
  | some info =>
    rw [Option.bind_some, Option.map_map]
    rfl

/-- What a current instance must satisfy to keep its runtime endpoint. -/
theorem clears_eq_false : shared.clears state slot = false ↔
    ∀ r, slot.consumer.runtime = some r → state.config.accepts slot.name ∧ state.feeds r.source slot.name ∧
      shared.tokenFingerprint state r.source = some r.tokenFingerprint := by
  unfold clears Consumer.runtimeEndpointOwner
  cases slot.consumer.runtime with
  | none => simp
  | some r => simp [and_assoc]

/-- What a draining instance must satisfy to keep its runtime endpoint. -/
theorem evicts_eq_false : shared.evicts state slot = false ↔
    ∀ r, slot.consumer.runtime = some r → ∀ fingerprint, shared.tokenFingerprint state r.source = some fingerprint →
      fingerprint = r.tokenFingerprint := by
  unfold evicts Consumer.runtimeEndpointOwner
  cases slot.consumer.runtime with
  | none => simp
  | some r =>
    dsimp only [Option.map_some]
    cases h : shared.tokenFingerprint state r.source <;> simp [h]

/-- Both checks read the shared part only for the key of the fingerprints. -/
theorem checks_congr (keys : shared'.tokenKeys = shared.tokenKeys) (state : EngineState m) (slot : Slot) :
    shared'.clears state slot = shared.clears state slot ∧ shared'.evicts state slot = shared.evicts state slot := by
  have same (source : SourceId) : shared'.tokenFingerprint state source = shared.tokenFingerprint state source := by
    rw [tokenFingerprint_eq, tokenFingerprint_eq, keys]
  unfold clears evicts
  simp only [same, true_and]

end Shared

namespace Slot.Kept
variable {s s' : Slot}

/-- An instance that keeps its endpoint had it before. -/
theorem of_runtime (h : Kept s s') {r : RuntimeEndpoint} (hr : s'.consumer.runtime = some r) :
    s.consumer.runtime = some r := by
  rcases h.runtime with same | none
  · rw [← same, hr]
  · rw [none] at hr
    cases hr

theorem clears (h : Kept s s') (shared : Shared m) (state : EngineState m) (hs : shared.clears state s = false) :
    shared.clears state s' = false := by
  rw [Shared.clears_eq_false] at hs ⊢
  intro r hr
  rw [h.name]
  exact hs r (h.of_runtime hr)

theorem evicts (h : Kept s s') (shared : Shared m) (state : EngineState m) (hs : shared.evicts state s = false) :
    shared.evicts state s' = false := by
  rw [Shared.evicts_eq_false] at hs ⊢
  exact fun r hr => hs r (h.of_runtime hr)

end Slot.Kept

theorem runtime_cleared (consumer : Consumer) : (consumer.setRuntimeEndpoint none).runtime = none := by
  cases consumer <;> rfl

/-! ### The invariant -/

/-- Every runtime endpoint may stay: no current instance has one to clear, no draining one has one to evict. -/
structure Shared.Captures (shared : Shared m) : Prop where
  current : ∀ t ∈ shared.state.targets, shared.clears shared.state (shared.slots t.slot) = false
  draining : ∀ i ∈ shared.retired, shared.evicts shared.state (shared.slots i) = false

namespace Shared

/-- A loop that clears the endpoints of the instances it finds bad leaves none of them bad. -/
theorem foldl_clear_spec {α : Type} (slot : α → Nat) (bad : Shared m → Slot → Bool)
    (keys : ∀ {shared shared' : Shared m} s, shared'.tokenKeys = shared.tokenKeys → bad shared' s = bad shared s)
    (kept : ∀ {shared s s'}, Slot.Kept s s' → bad shared s = false → bad shared s' = false)
    (cleared : ∀ {shared s}, s.consumer.runtime = none → bad shared s = false) (list : List α) (shared : Shared m) :
    ∀ a ∈ list, bad shared ((list.foldl (fun shared a => if bad shared (shared.slots (slot a)) then
      shared.modify (slot a) fun s => { s with consumer := s.consumer.setRuntimeEndpoint none } else shared)
        shared).slots (slot a)) = false := by
  induction list generalizing shared with
  | nil => nofun
  | cons a list ih =>
    have step := keeps_clear slot (fun shared a => bad shared (shared.slots (slot a))) shared a
    have good : bad shared ((if bad shared (shared.slots (slot a)) then
        shared.modify (slot a) fun s => { s with consumer := s.consumer.setRuntimeEndpoint none }
        else shared).slots (slot a)) = false := by
      split
      · rw [modify_slots, Function.update_self]
        exact cleared (runtime_cleared _)
      · exact Bool.eq_false_iff.mpr ‹_›
    rw [List.foldl_cons]
    generalize (if bad shared (shared.slots (slot a)) then
      shared.modify (slot a) fun s => { s with consumer := s.consumer.setRuntimeEndpoint none } else shared) = shared₁
      at step good ⊢
    intro a' ha'
    rcases List.mem_cons.mp ha' with rfl | ha'
    · exact kept ((Keeps.foldl (keeps_clear slot fun shared a => bad shared (shared.slots (slot a))) list shared₁).slots _) good
    · rw [← keys _ step.tokenKeys]
      exact ih shared₁ a' ha'

/-- After a commit no runtime endpoint is left that may not stay, whatever there was. -/
theorem captures_commit (shared : Shared m) (state : EngineState m) (changes : Changes) :
    (shared.commit (some state) changes).Captures := by
  have kept := keeps_keepRuntimeEndpoints (shared.changeInstances changes) state
  have evicted := keeps_evictRotatedCaptures ((shared.changeInstances changes).keepRuntimeEndpoints state) state
  constructor
  · intro t ht
    have cleared := foldl_clear_spec Target.slot (fun shared s => shared.clears state s)
      (fun s keys => (checks_congr keys state s).1) (fun h => h.clears _ state)
      (fun h => clears_eq_false.mpr fun r hr => by rw [h] at hr; cases hr) state.targets (shared.changeInstances changes) t ht
    refine (checks_congr (kept.trans evicted).tokenKeys state _).1.trans ?_
    exact (evicted.slots t.slot).clears _ state cleared
  · intro i hi
    have cleared := foldl_clear_spec id (fun shared s => shared.evicts state s)
      (fun s keys => (checks_congr keys state s).2) (fun h => h.evicts _ state)
      (fun h => evicts_eq_false.mpr fun r hr => by rw [h] at hr; cases hr)
      ((shared.changeInstances changes).keepRuntimeEndpoints state).retired
      ((shared.changeInstances changes).keepRuntimeEndpoints state) i
    refine (checks_congr evicted.tokenKeys state _).2.trans (cleared ?_)
    have same : (shared.commit (some state) changes).retired =
        ((shared.changeInstances changes).keepRuntimeEndpoints state).retired :=
      foldl_clear_retired id (fun shared slot => shared.evicts state (shared.slots slot)) ..
    exact same ▸ hi

/-- Setting a username changes the state only, and there only the table and the sources. -/
theorem setUsername_cases (shared : Shared m) (source : SourceId) (username : Option Str) :
    ∃ table sources tables, shared.setUsername source username =
      { shared with state := { shared.state with table, sources }, tables } := by
  unfold setUsername
  dsimp only
  split
  · exact ⟨_, _, _, rfl⟩
  · split
    · exact ⟨_, _, _, rfl⟩
    · split <;> exact ⟨_, _, _, rfl⟩

/-- Feeding and tokens go by the names of the sources. -/
theorem lookups_setUsername (shared : Shared m) (source : SourceId) (username : Option Str) (id : SourceId) :
    (shared.setUsername source username).state.token id = shared.state.token id ∧
      ∀ name, (shared.setUsername source username).state.feeds id name = shared.state.feeds id name := by
  obtain ⟨-, -, config, same⟩ := source_setUsername shared source username id
  have names : ((shared.setUsername source username).state.source id).map (·.name) =
      (shared.state.source id).map (·.name) := by
    have := congrArg (Option.map Prod.snd) same
    rwa [Option.map_map, Option.map_map] at this
  unfold EngineState.token EngineState.feeds
  rw [config]
  rcases hs : shared.state.source id with _ | info <;>
    rcases hs' : (shared.setUsername source username).state.source id with _ | info' <;> rw [hs, hs'] at names
  · exact ⟨rfl, fun _ => rfl⟩
  · cases names
  · cases names
  · have name : info'.name = info.name := Option.some.inj names
    simp only [Option.bind_some, name]
    exact ⟨trivial, fun _ => trivial⟩

theorem control_tokenKeys (shared : Shared m) (control : Control) :
    (shared.control control).tokenKeys = shared.tokenKeys := by
  cases control with
  | apply new =>
    rcases shared.apply_cases new with ⟨error, happly⟩ | ⟨state, changes, slots, allocated, -, happly⟩ <;>
      simp only [Shared.control, happly]
    exact (keeps_commit _ (some state) changes).tokenKeys
  | retire slot drain =>
    rcases shared.retire_cases slot drain with ⟨tasks, h⟩ | ⟨-, h⟩ <;> rw [h]
    rfl
  | setRuntimeEndpoint consumer source token endpoint =>
    simp only [Shared.control]
    rcases shared.setRuntimeEndpoint_cases consumer source token endpoint with h | ⟨target, -, -, -, -, h⟩ <;> rw [h]
    rfl
  | setUsername source username =>
    obtain ⟨table, sources, tables, h⟩ := shared.setUsername_cases source username
    simp only [Shared.control, h]

theorem control_captures (shared : Shared m) (control : Control) (h : shared.Captures) :
    (shared.control control).Captures := by
  cases control with
  | apply new =>
    rcases shared.apply_cases new with ⟨error, happly⟩ | ⟨state, changes, slots, allocated, -, happly⟩ <;>
      simp only [Shared.control, happly]
    · exact h
    · exact captures_commit ..
  | retire slot drain =>
    rcases shared.retire_cases slot drain with ⟨tasks, hr⟩ | ⟨-, hr⟩ <;> rw [hr]
    · exact ⟨h.current, h.draining⟩
    · -- Closing and draining an instance leaves its consumer alone.
      have same (i : Nat) : ((Function.update shared.slots slot
          (Slot.drainLate { shared.slots slot with drain := none, closed := true })) i).name = (shared.slots i).name ∧
          ((Function.update shared.slots slot
            (Slot.drainLate { shared.slots slot with drain := none, closed := true })) i).consumer =
              (shared.slots i).consumer := by
        by_cases hi : i = slot
        · subst hi
          rw [Function.update_self]
          exact ⟨rfl, rfl⟩
        · rw [Function.update_of_ne hi]
          exact ⟨rfl, rfl⟩
      constructor
      · intro t ht
        have := clears_eq_false.mp (h.current t ht)
        refine clears_eq_false.mpr fun r hr => ?_
        obtain ⟨name, consumer⟩ := same t.slot
        exact name ▸ this r (consumer ▸ hr)
      · intro i hi
        have := evicts_eq_false.mp (h.draining i (List.mem_of_mem_erase hi))
        exact evicts_eq_false.mpr fun r hr => this r ((same i).2 ▸ hr)
  | setRuntimeEndpoint consumer source token endpoint =>
    simp only [Shared.control]
    rcases shared.setRuntimeEndpoint_cases consumer source token endpoint with
      hs | ⟨target, auth, found, accepts, feeds, hs⟩ <;> rw [hs]
    · exact h
    · have name : (shared.slots target.slot).name = consumer := by
        unfold EngineState.target at found
        simpa using List.find?_some found
      -- The endpoint set, if any, is for the bot that was authenticated.
      have fresh {r : RuntimeEndpoint} (hr : ((shared.slots target.slot).consumer.setRuntimeEndpoint
          (endpoint.map fun e =>
            { url := e.1, secretToken := e.2, source, tokenFingerprint := shared.tokenKeys token })).runtime = some r) :
          r.source = source ∧ r.tokenFingerprint = shared.tokenKeys token := by
        cases hc : (shared.slots target.slot).consumer with
        | pull =>
          rw [hc] at hr
          cases hr
        | push targets =>
          rw [hc] at hr
          obtain ⟨_, -, rfl⟩ := Option.map_eq_some_iff.mp hr
          exact ⟨rfl, rfl⟩
      constructor
      · intro t ht
        rw [modify_slots]
        by_cases hi : t.slot = target.slot
        · rw [hi, Function.update_self]
          refine clears_eq_false.mpr fun r hr => ?_
          obtain ⟨rfl, hkey⟩ := fresh hr
          rw [hkey, name]
          exact ⟨accepts, feeds, auth⟩
        · rw [Function.update_of_ne hi]
          exact h.current t ht
      · intro i hmem
        rw [modify_slots]
        by_cases hi : i = target.slot
        · rw [hi, Function.update_self]
          refine evicts_eq_false.mpr fun r hr fingerprint hf => ?_
          obtain ⟨rfl, hkey⟩ := fresh hr
          rw [hkey]
          exact Option.some.inj (hf.symm.trans auth)
        · rw [Function.update_of_ne hi]
          exact h.draining i hmem
  | setUsername source username =>
    have lookups := lookups_setUsername shared source username
    obtain ⟨table, sources, tables, hs⟩ := shared.setUsername_cases source username
    simp only [Shared.control]
    rw [hs] at lookups ⊢
    have fingerprint (id : SourceId) : shared.tokenFingerprint { shared.state with table, sources } id =
        shared.tokenFingerprint shared.state id := by
      rw [tokenFingerprint_eq, tokenFingerprint_eq, (lookups id).1]
    constructor
    · intro t ht
      refine clears_eq_false.mpr fun r hr => ?_
      obtain ⟨accepts, feeds, auth⟩ := clears_eq_false.mp (h.current t ht) r hr
      exact ⟨accepts, ((lookups r.source).2 _).trans feeds, (fingerprint r.source).trans auth⟩
    · intro i hi
      refine evicts_eq_false.mpr fun r hr key hk => ?_
      exact evicts_eq_false.mp (h.draining i hi) r hr key ((fingerprint r.source).symm.trans hk)

theorem run_tokenKeys (shared : Shared m) (controls : List Control) :
    (shared.run controls).tokenKeys = shared.tokenKeys :=
  run_induction (P := fun shared' => shared'.tokenKeys = shared.tokenKeys) rfl
    (fun shared' control h => (control_tokenKeys shared' control).trans h) controls

end Shared

/-! ### Where an endpoint comes from -/

/-- A new instance has no runtime endpoint: planning a consumer makes one, or leaves the instances as they are. -/
theorem Plan.foldl_consumer_runtime (old : Option (EngineState m)) (slots : Nat → Slot) (retired : List Nat)
    (namesGrew : Bool) (sourceNames : List Str) (cs : List Config.Consumer) (d : Draft) (i : Nat) :
    (cs.foldl (consumer old slots retired namesGrew sourceNames) d).slots i = d.slots i ∨
      ((cs.foldl (consumer old slots retired namesGrew sourceNames) d).slots i).consumer.runtime = none := by
  induction cs generalizing d with
  | nil => exact .inl rfl
  | cons c cs ih =>
    rw [List.foldl_cons]
    rcases ih (consumer old slots retired namesGrew sourceNames d c) with same | none
    · obtain ⟨slot, -, -, -, ⟨-, hs, -⟩ | ⟨-, -, -, hs, -⟩⟩ :=
        consumer_spec old slots retired namesGrew sourceNames d c <;> rw [same, hs]
      · exact .inl rfl
      · by_cases hi : i = slot
        · subst hi
          rw [Function.update_self, newSlot]
          cases c.kind <;> exact .inr rfl
        · exact .inl (Function.update_of_ne hi ..)
    · exact .inr none

namespace Shared

/-- An endpoint after a step was there before it, or the step is the `setWebhook` that set it. -/
theorem control_runtime {shared : Shared m} {control : Control} {i : Nat} {r : RuntimeEndpoint}
    (hr : ((shared.control control).slots i).consumer.runtime = some r) :
    ((shared.control control).slots i).name = (shared.slots i).name ∧
      ((shared.slots i).consumer.runtime = some r ∨
        ∃ token, control = .setRuntimeEndpoint (shared.slots i).name r.source token (some (r.url, r.secretToken)) ∧
          r.tokenFingerprint = shared.tokenKeys token) := by
  cases control with
  | apply new =>
    rcases shared.apply_cases new with ⟨error, happly⟩ | ⟨state, changes, slots, allocated, hbuild, happly⟩ <;>
      rw [Shared.control, happly] at hr ⊢
    · exact ⟨rfl, .inl hr⟩
    · obtain ⟨planned, -, -, -, namesGrew, d, hd, -, rfl, -, -⟩ := Plan.build_eq_ok hbuild
      have kept := (keeps_commit { shared with slots := d.slots, allocated, tables := shared.tables + 1 } (some state)
        changes).slots i
      have before : (d.slots i).consumer.runtime = some r := kept.of_runtime hr
      have made : d.slots i = shared.slots i ∨ (d.slots i).consumer.runtime = none :=
        hd ▸ Plan.foldl_consumer_runtime ..
      rcases made with same | none
      · exact ⟨kept.name.trans (congrArg Slot.name same), .inl ((congrArg (·.consumer.runtime) same).symm.trans before)⟩
      · cases none.symm.trans before
  | retire slot drain =>
    rcases shared.retire_cases slot drain with ⟨tasks, h⟩ | ⟨-, h⟩ <;> rw [h] at hr ⊢
    · exact ⟨rfl, .inl hr⟩
    · rw [modify_slots] at hr ⊢
      by_cases hi : i = slot
      · subst hi
        rw [Function.update_self] at hr ⊢
        exact ⟨rfl, .inl hr⟩
      · rw [Function.update_of_ne hi] at hr ⊢
        exact ⟨rfl, .inl hr⟩
  | setRuntimeEndpoint consumer source token endpoint =>
    simp only [Shared.control] at hr ⊢
    rcases shared.setRuntimeEndpoint_cases consumer source token endpoint with
      hs | ⟨target, -, found, -, -, hs⟩ <;> rw [hs] at hr ⊢
    · exact ⟨rfl, .inl hr⟩
    · rw [modify_slots] at hr ⊢
      by_cases hi : i = target.slot
      · subst hi
        rw [Function.update_self] at hr ⊢
        have name : (shared.slots target.slot).name = consumer := by
          unfold EngineState.target at found
          simpa using List.find?_some found
        cases hc : (shared.slots target.slot).consumer with
        | pull =>
          rw [hc] at hr
          cases hr
        | push targets =>
          rw [hc] at hr
          obtain ⟨⟨url, secretToken⟩, rfl, rfl⟩ := Option.map_eq_some_iff.mp hr
          exact ⟨rfl, .inr ⟨token, by rw [name], rfl⟩⟩
      · rw [Function.update_of_ne hi] at hr ⊢
        exact ⟨rfl, .inl hr⟩
  | setUsername source username =>
    obtain ⟨table, sources, tables, hs⟩ := shared.setUsername_cases source username
    rw [Shared.control, hs] at hr ⊢
    exact ⟨rfl, .inl hr⟩

/-- `r` is the runtime endpoint of the instance `i` since the run's last `setWebhook` that set one there, which was
    sent with `token`. -/
def SetBy (engine : Shared m) (controls : List Control) (i : Nat) (r : RuntimeEndpoint) (token : Str) : Prop :=
  ∃ before after, controls = before ++ .setRuntimeEndpoint ((engine.run controls).slots i).name r.source token
      (some (r.url, r.secretToken)) :: after ∧
    ((engine.run before).slots i).consumer.runtime ≠ some r ∧
    ∀ between, between <+: after →
      ((engine.run (before ++ .setRuntimeEndpoint ((engine.run controls).slots i).name r.source token
        (some (r.url, r.secretToken)) :: between)).slots i).consumer.runtime = some r

theorem run_setBy {engine : Shared m} (empty : ∀ i, (engine.slots i).consumer.runtime = none) (controls : List Control)
    {i : Nat} {r : RuntimeEndpoint} (hr : ((engine.run controls).slots i).consumer.runtime = some r) :
    ∃ token, engine.SetBy controls i r token ∧ r.tokenFingerprint = engine.tokenKeys token := by
  induction controls using List.reverseRecOn with
  | nil =>
    rw [run, List.foldl_nil, empty i] at hr
    cases hr
  | append_singleton controls control ih =>
    obtain ⟨name, was⟩ := control_runtime (engine.run_concat .. ▸ hr)
    unfold SetBy
    rw [run_concat, name]
    by_cases had : ((engine.run controls).slots i).consumer.runtime = some r
    · -- The endpoint was there before the last step.
      obtain ⟨token, ⟨before, after, hcontrols, fresh, since⟩, key⟩ := ih had
      refine ⟨token, ⟨before, after ++ [control], ?_, fresh, fun between hb => ?_⟩, key⟩
      · exact (congrArg (· ++ [control]) hcontrols).trans (by simp)
      · rcases List.prefix_concat_iff.mp hb with rfl | hb
        · generalize Control.setRuntimeEndpoint _ _ _ _ = call at hcontrols ⊢
          rw [← List.cons_append, ← List.append_assoc, ← hcontrols]
          exact hr
        · exact since between hb
    · obtain ⟨token, rfl, key⟩ := was.resolve_left had
      refine ⟨token, ⟨controls, [], rfl, had, fun between hb => ?_⟩, key.trans (congrFun (run_tokenKeys ..) token)⟩
      obtain rfl := List.prefix_nil.mp hb
      exact hr

namespace SetBy
variable {engine : Shared m} {controls : List Control} {i : Nat} {r : RuntimeEndpoint} {token : Str}

theorem runtime (h : engine.SetBy controls i r token) : ((engine.run controls).slots i).consumer.runtime = some r := by
  obtain ⟨before, after, hcontrols, -, since⟩ := h
  have := since after List.prefix_rfl
  generalize Control.setRuntimeEndpoint _ _ _ _ = call at hcontrols this
  rw [hcontrols]
  exact this

/-- The call that set the endpoint gave it the fingerprint of its token. -/
theorem key (h : engine.SetBy controls i r token) : r.tokenFingerprint = engine.tokenKeys token := by
  obtain ⟨before, after, -, fresh, since⟩ := h
  have set := since [] List.nil_prefix
  rw [run_concat] at set
  obtain ⟨-, was⟩ := control_runtime set
  obtain ⟨token', hcall, key⟩ := was.resolve_left fresh
  rw [key, run_tokenKeys]
  injection hcall with _ _ htoken
  rw [htoken]

end SetBy

/-- A step keeps the config, or applies one. -/
theorem control_config (shared : Shared m) (control : Control) :
    (shared.control control).state.config = shared.state.config ∨
      control = .apply (shared.control control).state.config := by
  cases control with
  | apply new =>
    rcases shared.apply_cases new with ⟨error, happly⟩ | ⟨state, changes, slots, allocated, hbuild, happly⟩ <;>
      rw [Shared.control, happly]
    · exact .inl rfl
    · obtain ⟨-, -, hconfig, -⟩ := Plan.build_eq_ok hbuild
      exact .inr (congrArg _ hconfig.symm)
  | retire slot drain =>
    rcases shared.retire_cases slot drain with ⟨tasks, h⟩ | ⟨-, h⟩ <;> rw [h] <;> exact .inl rfl
  | setRuntimeEndpoint consumer source token endpoint =>
    exact .inl (congrArg _ (shared.setRuntimeEndpoint_state consumer source token endpoint))
  | setUsername source username =>
    obtain ⟨table, sources, tables, h⟩ := shared.setUsername_cases source username
    rw [Shared.control, h]
    exact .inl rfl

theorem run_config (shared : Shared m) (controls : List Control) :
    (shared.run controls).state.config = shared.state.config ∨
      .apply (shared.run controls).state.config ∈ controls := by
  induction controls using List.reverseRecOn with
  | nil => exact .inl rfl
  | append_singleton controls control ih =>
    rw [run_concat, List.mem_append, List.mem_singleton]
    rcases control_config (shared.run controls) control with same | applied
    · rw [same]
      exact ih.imp_right .inl
    · exact .inr (.inr applied.symm)

end Shared

/-! ### Runs -/

/-- The tokens that a step of the control plane brings. -/
def Control.tokens : Control → List Str
  | .apply new => new.bots.map (·.token)
  | .setRuntimeEndpoint _ _ token _ => [token]
  | .retire _ _ => []
  | .setUsername _ _ => []

theorem new_spec {cfg : Config} {tokenKeys : Str → Nat} {engine : Shared m} (made : Shared.new cfg tokenKeys = .ok engine) :
    engine.state.config = cfg ∧ engine.tokenKeys = tokenKeys ∧ engine.retired = [] ∧
      ∀ i, (engine.slots i).consumer.runtime = none := by
  obtain ⟨shared, slots, changes, hbuild, hretired, rfl, hkeys, queue, hslots⟩ := Shared.new_eq_ok made
  obtain ⟨planned, -, hconfig, -, namesGrew, d, hd, -, hd', -, hchanges⟩ := Plan.build_eq_ok hbuild
  have keeps := Shared.keeps_commit shared none changes
  have retiring : changes.retiring = [] := by
    rw [hchanges, hd]
    dsimp only
    rw [ (Plan.drafted none slots [] cfg.consumers (Nat.zero_le _) ?_).retiring]
    · have replaced : cfg.consumers.filterMap (Plan.replacedSlot (none : Option (EngineState m)) slots) = [] :=
        List.filterMap_eq_nil_iff.mpr fun _ _ => rfl
      rw [replaced]
      rfl
    · rintro c slot (h | h) <;> cases h
  refine ⟨(congrArg _ (shared.changeInstances_state _)).trans hconfig, keeps.tokenKeys.trans hkeys, ?_, fun i => ?_⟩
  · rw [Shared.commit_retired, hretired, retiring]
    rfl
  · have made : d.slots i = slots i ∨ (d.slots i).consumer.runtime = none := hd ▸ Plan.foldl_consumer_runtime ..
    have none : (shared.slots i).consumer.runtime = none := by
      rcases made with same | none
      · rw [hd', same, hslots]
        rfl
      · rwa [hd']
    exact ((keeps.slots i).runtime.elim (·.trans none) id)

/-- A bot has a token that the run brought. -/
theorem run_token {cfg : Config} {tokenKeys : Str → Nat} {engine : Shared m} (made : Shared.new cfg tokenKeys = .ok engine)
    {controls : List Control} {source : SourceId} {token : Str} (h : (engine.run controls).state.token source = some token) :
    token ∈ cfg.bots.map (·.token) ∨ ∃ control ∈ controls, token ∈ control.tokens := by
  obtain ⟨info, -, found⟩ := Option.bind_eq_some_iff.mp h
  obtain ⟨bot, hbot, rfl⟩ := Option.map_eq_some_iff.mp found
  have mem : bot.token ∈ (engine.run controls).state.config.bots.map (·.token) := List.mem_map_of_mem (List.mem_of_find?_eq_some hbot)
  rcases engine.run_config controls with kept | applied
  · exact .inl ((new_spec made).1 ▸ kept ▸ mem)
  · exact .inr ⟨_, applied, mem⟩

/-- In every state of a run, a current instance has a runtime endpoint only if its consumer accepts one and the bot
    that set it feeds the consumer and has the token it set it with; a draining one only if its bot has that token
    or is no longer configured. So a reload that ends this drops the endpoint. -/
theorem run_captures {cfg : Config} {tokenKeys : Str → Nat} {engine : Shared m}
    (made : Shared.new cfg tokenKeys = .ok engine) (controls : List Control)
    (distinct : Set.InjOn tokenKeys
      {token | token ∈ cfg.bots.map (·.token) ∨ ∃ control ∈ controls, token ∈ control.tokens}) :
    let now := engine.run controls
    (∀ t ∈ now.state.targets, ∀ r, (now.slots t.slot).consumer.runtime = some r →
      now.state.config.accepts (now.slots t.slot).name ∧ now.state.feeds r.source (now.slots t.slot).name ∧
        ∃ token, now.state.token r.source = some token ∧ engine.SetBy controls t.slot r token) ∧
    (∀ i ∈ now.retired, ∀ r, (now.slots i).consumer.runtime = some r →
      now.state.source r.source = none ∨
        ∃ token, now.state.token r.source = some token ∧ engine.SetBy controls i r token) ∧
    ∀ earlier new, controls = earlier ++ [.apply new] → ∀ i r token, engine.SetBy earlier i r token →
      (∀ t ∈ now.state.targets, t.slot = i →
        now.state.token r.source ≠ some token ∨ ¬now.state.feeds r.source (now.slots i).name →
          (now.slots i).consumer.runtime = none) ∧
      (i ∈ now.retired → ∀ other ≠ token, now.state.token r.source = some other →
        (now.slots i).consumer.runtime = none) := by
  intro now
  obtain ⟨hconfig, hkeys, hretired, empty⟩ := new_spec made
  have captures : now.Captures := by
    refine Shared.run_induction ⟨fun t _ => Shared.clears_eq_false.mpr fun r hr => ?_,
      fun i _ => Shared.evicts_eq_false.mpr fun r hr => ?_⟩ Shared.control_captures controls <;>
    · rw [empty] at hr
      cases hr
  -- A bot of the config has a token that the run brought, so a token of the same key is the same token.
  have same {source : SourceId} {token token' : Str} (htoken : now.state.token source = some token)
      (ht : ∃ control ∈ controls, token' ∈ control.tokens) (key : tokenKeys token = tokenKeys token') : token = token' :=
    distinct (run_token made htoken) (.inr ht) key
  have brought {i : Nat} {r : RuntimeEndpoint} {token : Str} (h : engine.SetBy controls i r token) :
      ∃ control ∈ controls, token ∈ control.tokens := by
    obtain ⟨before, after, hcontrols, -⟩ := h
    exact ⟨_, hcontrols ▸ List.mem_append_right _ List.mem_cons_self, List.mem_singleton_self _⟩
  have fingerprint (source : SourceId) : now.tokenFingerprint now.state source =
      (now.state.token source).map tokenKeys := by
    rw [Shared.tokenFingerprint_eq, Shared.run_tokenKeys, hkeys]
  have current : ∀ t ∈ now.state.targets, ∀ r, (now.slots t.slot).consumer.runtime = some r →
      now.state.config.accepts (now.slots t.slot).name ∧ now.state.feeds r.source (now.slots t.slot).name ∧
        ∃ token, now.state.token r.source = some token ∧ engine.SetBy controls t.slot r token := by
    intro t ht r hr
    obtain ⟨accepts, feeds, auth⟩ := Shared.clears_eq_false.mp (captures.current t ht) r hr
    refine ⟨accepts, feeds, ?_⟩
    obtain ⟨token', set, key⟩ := Shared.run_setBy empty controls hr
    obtain ⟨token, htoken, hkey⟩ := Option.map_eq_some_iff.mp ((fingerprint _).symm.trans auth)
    rw [key, hkeys] at hkey
    exact ⟨token, htoken, same htoken (brought set) hkey ▸ set⟩
  have draining : ∀ i ∈ now.retired, ∀ r, (now.slots i).consumer.runtime = some r →
      now.state.source r.source = none ∨
        ∃ token, now.state.token r.source = some token ∧ engine.SetBy controls i r token := by
    intro i hi r hr
    obtain ⟨token', set, key⟩ := Shared.run_setBy empty controls hr
    cases hs : now.state.source r.source with
    | none => exact .inl rfl
    | some info =>
      right
      have sourced : Sourced now.state := run_sourced (new_sourced made) controls
      obtain ⟨bot, hbot⟩ := Option.isSome_iff_exists.mp (List.find?_isSome.mpr <| by
        obtain ⟨bot, hb, hname⟩ := List.mem_map.mp ((sourced.configured info.name).mpr ⟨_, info, hs, rfl⟩)
        exact ⟨bot, hb, decide_eq_true hname⟩)
      have htoken : now.state.token r.source = some bot.token := by
        rw [EngineState.token, hs, Option.bind_some, hbot, Option.map_some]
      have hkey := Shared.evicts_eq_false.mp (captures.draining i hi) r hr (tokenKeys bot.token)
        (by rw [fingerprint, htoken]; rfl)
      rw [key, hkeys] at hkey
      exact ⟨bot.token, htoken, same htoken (brought set) hkey ▸ set⟩
  refine ⟨current, draining, fun earlier new hcontrols i r token set => ?_⟩
  -- A reload sets no endpoint, so one that an instance has after it was there before it.
  have was {r' : RuntimeEndpoint} (hr' : (now.slots i).consumer.runtime = some r') : r' = r := by
    have step : now = (engine.run earlier).control (.apply new) := by rw [← Shared.run_concat, ← hcontrols]
    rcases (Shared.control_runtime (step ▸ hr')).2 with before | ⟨_, hcall, -⟩
    · exact Option.some.inj (before.symm.trans set.runtime)
    · cases hcall
  have theSame {token' : Str} (set' : engine.SetBy controls i r token') (htoken : now.state.token r.source = some token') :
      token' = token := by
    have brought : ∃ control ∈ controls, token ∈ control.tokens := by
      obtain ⟨before, after, hearlier, -⟩ := set
      refine ⟨_, hcontrols ▸ List.mem_append_left _ (hearlier ▸ List.mem_append_right _ List.mem_cons_self), ?_⟩
      exact List.mem_singleton_self _
    refine same htoken brought ?_
    rw [← hkeys, ← set'.key, ← set.key]
  refine ⟨fun t ht hi changed => ?_, fun hi other ne htoken => ?_⟩ <;>
    refine Option.eq_none_iff_forall_not_mem.mpr fun r' hr' => ?_ <;>
    obtain rfl := was hr'
  · subst hi
    obtain ⟨-, feeds, token', htoken, set'⟩ := current t ht _ hr'
    rcases changed with changed | changed
    · exact changed (theSame set' htoken ▸ htoken)
    · exact changed feeds
  · rcases draining i hi _ hr' with none | ⟨token', htoken', set'⟩
    · rw [EngineState.token, none] at htoken
      cases htoken
    · exact ne (Option.some.inj (htoken.symm.trans htoken') ▸ theSame set' htoken')

/-- `pushed` with another token for bot `a`. -/
def rotated : Config :=
  { pushed with bots := [oneRule [97] [1, 1] 0], botNames := by decide, tokens := by decide, owned := by decide }

/-- The `setWebhook` of bot `a` to its consumer. -/
def webhook : Control := .setRuntimeEndpoint [112] 0 [1] (some ([104], none))

/-- A token that changes takes the endpoint that was set with it. -/
theorem run_captures_rotated :
    ((pushedEngine.run [webhook]).slots 0).consumer.runtime =
        some { url := [104], secretToken := none, source := 0, tokenFingerprint := 1 } ∧
      ((pushedEngine.run [webhook, .apply rotated]).slots 0).consumer.runtime = none := by
  have made : Shared.new pushed List.length = .ok pushedEngine := rfl
  have set : pushedEngine.SetBy [webhook] 0 { url := [104], secretToken := none, source := 0, tokenFingerprint := 1 } [1] :=
    ⟨[], [], rfl, by decide, fun between h => by obtain rfl := List.prefix_nil.mp h; decide⟩
  refine ⟨set.runtime, ?_⟩
  refine ((run_captures made [webhook, .apply rotated] ?_).2.2 [webhook] rotated rfl 0 _ [1] set).1
    { slot := 0, onFull := .backpressure, capacityBytes := 1024 } (by decide) rfl (.inl (by decide))
  rintro token ht token' ht' same
  have tokens {token : Str} (h : token ∈ pushed.bots.map (·.token) ∨
      ∃ control ∈ [webhook, .apply rotated], token ∈ control.tokens) : token = [1] ∨ token = [1, 1] := by
    simpa [pushed, rotated, oneRule, webhook, Control.tokens] using h
  rcases tokens ht with rfl | rfl <;> rcases tokens ht' with rfl | rfl <;> simp_all

end Tgin.Engine
