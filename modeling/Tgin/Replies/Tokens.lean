import Tgin.Gateway.Carried
import Tgin.Replies

/-! The token a webhook reply is sent with: the update's bot's, and where a runtime endpoint answered, the one that set it, checked
    once the limits let the reply go (`run_replies`). -/

namespace Tgin.Replies
open Rules Engine Gateway

variable {m : Matchers} {u : Urls}

/-! ### Runs -/

/-- What the control plane does in a run. -/
def controls (events : List (Event u)) : List Control :=
  events.filterMap fun
    | .control control => some control
    | _ => none

theorem controls_append (events events' : List (Event u)) : controls (events ++ events') = controls events ++ controls events' :=
  List.filterMap_append

theorem controls_mono {events events' : List (Event u)} (h : events <+: events') : controls events <+: controls events' := by
  obtain ⟨rest, rfl⟩ := h
  rw [controls_append]
  exact List.prefix_append ..

/-! ### What a step does -/

/-- How the reply `e`, the `i`-th, moves on in a step. -/
inductive Moves (s : System m u) (i : Nat) (e : Execution u) : Event u → Phase u → Prop where
  | stays (event : Event u) : Moves s i e event e.phase
  | dropped (event : Event u) : Moves s i e event .dropped
  | found (bot : Bot u) (method : Str) (listed : bot ∈ s.gateway.table) (source : bot.source = e.source) :
      Moves s i e (.begin i) (.limited bot method)
  | admitted (bot : Bot u) (method : Str) (was : e.phase = .limited bot method) :
      Moves s i e (.letGo i true) (.admitted bot method)
  | checked (bot : Bot u) (method : Str) (was : e.phase = .admitted bot method)
      (holds : ∀ binding, e.reply.boundTo = some binding → holdsToken s.shared binding bot.token) :
      Moves s i e (.check i) (.checked bot method)
  | sent (bot : Bot u) (method : Str) (was : e.phase = .checked bot method) : Moves s i e (.enter i) (.sent bot method)

theorem moves_begin {r : LocalFiles.Readers} {s : System m u} {i : Nat} {e : Execution u} :
    Moves s i e (.begin i) (Replies.begin r s.gateway.table e.source e.reply) := by
  unfold Replies.begin
  cases found : s.gateway.table.find? (·.source = e.source) with
  | none => exact .dropped _
  | some bot =>
    have source : bot.source = e.source := by simpa using List.find?_some found
    dsimp only
    split
    · exact .dropped _
    · split <;> split
      · exact .dropped _
      · exact .found bot _ (List.mem_of_find?_eq_some found) source
      · exact .dropped _
      · exact .found bot _ (List.mem_of_find?_eq_some found) source

/-- What a step makes of the system. -/
inductive Effect (s : System m u) : Event u → System m u → Prop where
  | idle (event : Event u) (apart : controls [event] = []) : Effect s event s
  | engine (control : Control) : Effect s (.control control) { s with shared := s.shared.control control }
  | bots (serving : Config.Bot → Serving u) :
      Effect s (.setBots serving) { s with gateway := s.gateway.setBots (gatewayBots s.shared serving) }
  | parked (name : Str) (parked : Bool) (gateway : Gateway.System u) (table : gateway.table = s.gateway.table) :
      Effect s (.setParked name parked) { s with gateway }
  | received (source : SourceId) (info : SourceInfo) (hs : s.shared.state.source source = some info) :
      Effect s (.receive source) { s with updates := s.updates ++ [{ source, bot := info.name }] }
  | requested (attempt : Attempt) (update : attempt.update < s.updates.length)
      (targets : (s.shared.slots attempt.slot).consumer = .push attempt.sent.targets) :
      Effect s (.send attempt.slot attempt.update attempt.sent.index) { s with attempts := s.attempts ++ [attempt] }
  | answered (i : Nat) (response : Response) (attempt : Attempt) (update : Update) (reply : Reply)
      (ha : s.attempts[i]? = some attempt) (hu : s.updates[attempt.update]? = some update)
      (bound : reply.boundTo = attempt.sent.binding) :
      Effect s (.answer i response)
        { s with executions := s.executions ++ [{ attempt := i, source := update.source, reply, phase := .called }] }
  | moved (event : Event u) (apart : controls [event] = []) (i : Nat) (e : Execution u) (phase : Phase u)
      (he : s.executions[i]? = some e) (moves : Moves s i e event phase) :
      Effect s event { s with executions := s.executions.set i { e with phase } }

/-- A reply is bound to what its request is. -/
theorem reply_boundTo {sent : Sending} {response : Response} {answer : Reply} (h : reply sent response = some answer) :
    answer.boundTo = sent.binding := by
  obtain ⟨contentType, -, h⟩ := Option.bind_eq_some_iff.mp h
  split at h
  · cases h
  · obtain ⟨body, -, h⟩ := Option.bind_eq_some_iff.mp h
    split at h
    · cases h
    · split at h <;> cases h
      rfl

theorem effect_advance (s : System m u) {event : Event u} (apart : controls [event] = []) (i : Nat)
    (next : Execution u → Phase u) (moves : ∀ e, Moves s i e event (next e)) : Effect s event (s.advance i next) := by
  unfold System.advance
  cases he : s.executions[i]? with
  | none => exact .idle event apart
  | some e => exact .moved event apart i e _ he (moves e)

theorem step_effect (r : LocalFiles.Readers) (s : System m u) (event : Event u) : Effect s event (s.step r event) := by
  cases event with
  | control control => exact .engine control
  | setBots serving => exact .bots serving
  | setParked name parked =>
    refine .parked name parked _ ?_
    unfold Gateway.System.setParked
    split <;> rfl
  | receive source =>
    simp only [System.step]
    cases hs : s.shared.state.source source with
    | none => exact .idle _ rfl
    | some info => exact .received source info hs
  | send slot update index =>
    simp only [System.step]
    cases hc : (s.shared.slots slot).consumer with
    | pull => exact .idle _ rfl
    | push targets =>
      dsimp only
      split
      · exact .requested { slot, update, sent := { targets, index } } ‹_ ∧ _›.1 hc
      · exact .idle _ rfl
  | answer i response =>
    simp only [System.step]
    cases ha : s.attempts[i]? with
    | none => exact .idle _ rfl
    | some attempt =>
      dsimp only
      split
      · rename_i update answer hu hr
        split at hr
        · exact .answered i response attempt update answer ha hu (reply_boundTo hr)
        · cases hr
      · exact .idle _ rfl
  | begin i =>
    refine effect_advance s rfl i _ fun e => ?_
    split
    · exact moves_begin
    · exact .stays _
  | letGo i admitted =>
    refine effect_advance s rfl i _ fun e => ?_
    split
    · cases admitted
      · exact .dropped _
      · exact .admitted _ _ ‹_›
    · exact .stays _
  | check i =>
    refine effect_advance s rfl i _ fun e => ?_
    split
    · rename_i bot method was
      split
      · exact .dropped _
      · rename_i held
        refine .checked bot method was fun binding hb => ?_
        rw [hb] at held
        simpa using held
    · exact .stays _
  | enter i =>
    refine effect_advance s rfl i _ fun e => ?_
    split
    · split
      · exact .dropped _
      · exact .sent _ _ ‹_›
    · exact .stays _
  | drop i =>
    refine effect_advance s rfl i _ fun e => ?_
    split
    · rename_i bot method was
      exact was ▸ .stays _
    · exact .dropped _

/-- Only the control plane changes the engine. -/
theorem Effect.shared {s s' : System m u} {event : Event u} (h : Effect s event s') : s'.shared = s.shared.run (controls [event]) := by
  cases h with
  | engine control => rfl
  | idle _ apart | moved _ apart =>
    rw [apart]
    rfl
  | bots | parked | received | requested | answered => rfl

namespace System
variable {r : LocalFiles.Readers}

theorem run_concat (s : System m u) (events : List (Event u)) (event : Event u) :
    s.run r (events ++ [event]) = (s.run r events).step r event := List.foldl_append

theorem run_shared (s : System m u) (events : List (Event u)) : (s.run r events).shared = s.shared.run (controls events) := by
  induction events using List.reverseRecOn with
  | nil => rfl
  | append_singleton events event ih => rw [run_concat, (step_effect r _ event).shared, ih, controls_append, Shared.run_append]

end System

/-! ### The gateway's entries -/

/-- The methods of the bot are called on its server with its token. -/
def Addressed (bot : Bot u) : Prop := base bot.upstream.url [botSegment bot.token] = some bot.methodBase

/-- The entry is that of a bot listed. -/
structure Lists (bots : List (GatewayBot u)) (entry : Bot u) : Prop where
  addressed : Addressed entry
  listed : ∃ bot ∈ bots, entry.name = bot.name ∧ entry.source = bot.source ∧ entry.token = bot.token

theorem mem_addBot {s : Gateway.System u} (addressed : ∀ entry ∈ s.table, Addressed entry) {draft : List (Bot u) × Cells}
    {bot : GatewayBot u} {entry : Bot u} (h : entry ∈ (s.addBot draft bot).1) : entry ∈ draft.1 ∨ Lists [bot] entry := by
  unfold Gateway.System.addBot at h
  split at h
  · rename_i previous hp
    obtain ⟨named, same⟩ := Option.filter_eq_some_iff.mp hp
    obtain ⟨mem, name⟩ := Gateway.System.of_named named
    obtain ⟨token, -, -, -, source⟩ := Bot.same_iff.mp same
    refine (List.mem_append.mp h).imp_right fun h => ?_
    obtain rfl := List.mem_singleton.mp h
    exact ⟨addressed entry mem, bot, List.mem_singleton_self bot, name, source, token⟩
  · refine (List.mem_append.mp h).imp_right fun h => ?_
    have made := Option.mem_toList.mp h
    unfold Gateway.System.rebuild at made
    dsimp only at made
    split at made
    · cases made
    · obtain ⟨methodBase, files, hbase, -, rfl⟩ := Bot.new_eq_some made
      exact ⟨hbase, bot, List.mem_singleton_self bot, rfl, rfl, rfl⟩

theorem mem_foldl_addBot {s : Gateway.System u} (addressed : ∀ entry ∈ s.table, Addressed entry) (bots : List (GatewayBot u))
    {draft : List (Bot u) × Cells} {entry : Bot u} (h : entry ∈ (bots.foldl s.addBot draft).1) :
    entry ∈ draft.1 ∨ Lists bots entry := by
  induction bots generalizing draft with
  | nil => exact .inl h
  | cons bot bots ih =>
    rcases ih h with h | ⟨goes, other, mem, same⟩
    · refine (mem_addBot addressed h).imp_right fun ⟨goes, other, mem, same⟩ => ?_
      obtain rfl := List.mem_singleton.mp mem
      exact ⟨goes, other, List.mem_cons_self, same⟩
    · exact .inr ⟨goes, other, List.mem_cons_of_mem _ mem, same⟩

/-- A bot of the engine's config is listed with the id, the name and the token that it has there. -/
theorem mem_gatewayBots {shared : Shared m} (sourced : Sourced shared.state) {serving : Config.Bot → Serving u}
    {bot : GatewayBot u} (h : bot ∈ gatewayBots shared serving) :
    shared.state.sourceNames[bot.source.toNat]? = some bot.name ∧ shared.state.token bot.source = some bot.token := by
  obtain ⟨cfg, hcfg, h⟩ := List.mem_filterMap.mp h
  obtain ⟨source, hid, rfl⟩ := Option.map_eq_some_iff.mp h
  obtain ⟨info, hn, rfl⟩ := Option.map_eq_some_iff.mp hid
  obtain ⟨hs, name⟩ := sourced.of_sourceNamed hn
  refine ⟨name ▸ (sourced.id hs).2, ?_⟩
  obtain ⟨found, hf⟩ := Option.isSome_iff_exists.mp
    ((List.find?_isSome (p := fun bot : Config.Bot => bot.name = info.name)).mpr ⟨cfg, hcfg, decide_eq_true name.symm⟩)
  have hname : found.name = info.name := by simpa using List.find?_some hf
  have same := List.inj_on_of_nodup_map shared.state.config.botNames (List.mem_of_find?_eq_some hf) hcfg (hname.trans name)
  rw [EngineState.token, hs, Option.bind_some, hf, same]
  rfl

/-! ### What is known of a reply -/

section
variable (r : LocalFiles.Readers) (start : System m u) (events : List (Event u))

/-- `P` held at some point of the run. -/
def Once (P : System m u → Prop) : Prop := ∃ before, before <+: events ∧ P (start.run r before)

/-- The entry is one that a bot had, with the token that the bot had then. -/
structure Served (bot : Bot u) : Prop where
  name : (start.run r events).shared.state.sourceNames[bot.source.toNat]? = some bot.name
  addressed : Addressed bot
  token : Once r start events fun s => s.shared.state.token bot.source = some bot.token

/-- The `i`-th reply was checked, once its limits had let it go. -/
def Checked (i : Nat) (bot : Bot u) (binding : Binding) : Prop :=
  ∃ before after, events = before ++ .check i :: after ∧
    (∃ e method, (start.run r before).executions[i]? = some e ∧ e.phase = .admitted bot method) ∧
      holdsToken (start.run r before).shared binding bot.token

/-- What is known of the `i`-th reply. -/
structure Tracked (i : Nat) (e : Execution u) : Prop where
  came : ∃ attempt update, (start.run r events).attempts[e.attempt]? = some attempt ∧
    (start.run r events).updates[attempt.update]? = some update ∧ e.source = update.source ∧
      e.reply.boundTo = attempt.sent.binding
  served : ∀ bot, e.phase.bot = some bot → Served r start events bot ∧ bot.source = e.source
  checked : ∀ bot method, e.phase = .checked bot method ∨ e.phase = .sent bot method → ∀ binding, e.reply.boundTo = some binding →
    Checked r start events i bot binding

/-- What holds after a run. -/
structure Invariant : Prop where
  sourced : Sourced (start.run r events).shared.state
  table : ∀ bot ∈ (start.run r events).gateway.table, Served r start events bot
  updates : ∀ update ∈ (start.run r events).updates,
    (start.run r events).shared.state.sourceNames[update.source.toNat]? = some update.bot
  attempts : ∀ attempt ∈ (start.run r events).attempts,
    Once r start events fun s => (s.shared.slots attempt.slot).consumer = .push attempt.sent.targets
  executions : ∀ i e, (start.run r events).executions[i]? = some e → Tracked r start events i e

end

/-! ### What a step keeps -/

theorem getElem?_mono {α : Type} {l l' : List α} (h : l <+: l') {i : Nat} {a : α} (ha : l[i]? = some a) : l'[i]? = some a := by
  obtain ⟨rest, rfl⟩ := h
  rw [List.getElem?_append_left (List.getElem?_eq_some_iff.mp ha).1, ha]

/-- What was recorded stays. -/
structure Grown (s s' : System m u) : Prop where
  names : s.shared.state.sourceNames <+: s'.shared.state.sourceNames
  updates : s.updates <+: s'.updates
  attempts : s.attempts <+: s'.attempts

namespace Effect
variable {s s' : System m u} {event : Event u}

theorem updates (h : Effect s event s') : s'.updates = s.updates ∨
    ∃ source info, s'.shared.state.source source = some info ∧ s'.updates = s.updates ++ [{ source, bot := info.name }] := by
  cases h with
  | received source info hs => exact .inr ⟨source, info, hs, rfl⟩
  | idle | engine | bots | parked | requested | answered | moved => exact .inl rfl

theorem attempts (h : Effect s event s') : s'.attempts = s.attempts ∨
    ∃ attempt, (s.shared.slots attempt.slot).consumer = .push attempt.sent.targets ∧ s'.attempts = s.attempts ++ [attempt] := by
  cases h with
  | requested attempt update targets => exact .inr ⟨attempt, targets, rfl⟩
  | idle | engine | bots | parked | received | answered | moved => exact .inl rfl

theorem grown (h : Effect s event s') (sourced : Sourced s.shared.state) : Grown s s' := by
  refine ⟨?_, ?_, ?_⟩
  · rw [h.shared]
    cases event with
    | control control => exact (control_sourced s.shared control sourced).2.names
    | setBots | setParked | receive | send | answer | begin | letGo | check | enter | drop => exact List.prefix_rfl
  · rcases h.updates with same | ⟨_, _, -, more⟩
    · rw [same]
    · rw [more]
      exact List.prefix_append ..
  · rcases h.attempts with same | ⟨_, -, more⟩
    · rw [same]
    · rw [more]
      exact List.prefix_append ..

/-- The gateway's table changes only for one of the bots that the engine has. -/
theorem table (h : Effect s event s') : s'.gateway.table = s.gateway.table ∨
    ∃ serving, s'.shared = s.shared ∧ s'.gateway.table = (s.gateway.setBots (gatewayBots s.shared serving)).table := by
  cases h with
  | bots serving => exact .inr ⟨serving, rfl, rfl⟩
  | parked name parked gateway table => exact .inl table
  | idle | engine | received | requested | answered | moved => exact .inl rfl

/-- A reply after a step is as it was, or has just come with an answer, or has moved on. -/
theorem executions (h : Effect s event s') {i : Nat} {e' : Execution u} (he' : s'.executions[i]? = some e') :
    s.executions[i]? = some e' ∨
      (e'.phase = .called ∧ ∃ attempt update, s.attempts[e'.attempt]? = some attempt ∧ s.updates[attempt.update]? = some update ∧
        e'.source = update.source ∧ e'.reply.boundTo = attempt.sent.binding) ∨
      ∃ e phase, s.executions[i]? = some e ∧ e' = { e with phase } ∧ Moves s i e event phase := by
  cases h with
  | answered j response attempt update reply ha hu bound =>
    rw [List.getElem?_append] at he'
    split at he'
    · exact .inl he'
    · rw [List.getElem?_singleton] at he'
      split at he' <;> cases he'
      exact .inr (.inl ⟨rfl, attempt, update, ha, hu, rfl, bound⟩)
  | moved _ _ j e phase he moves =>
    rw [List.getElem?_set] at he'
    split at he'
    · rename_i same
      subst same
      split at he' <;> cases he'
      exact .inr (.inr ⟨e, phase, he, rfl, moves⟩)
    · exact .inl he'
  | idle | engine | bots | parked | received | requested => exact .inl he'

end Effect

section
variable {r : LocalFiles.Readers} {start : System m u} {events events' : List (Event u)}

theorem Once.mono {P : System m u → Prop} (h : Once r start events P) (more : events <+: events') : Once r start events' P := by
  obtain ⟨before, le, holds⟩ := h
  exact ⟨before, le.trans more, holds⟩

theorem Checked.mono {i : Nat} {bot : Bot u} {binding : Binding} (h : Checked r start events i bot binding)
    (more : events <+: events') : Checked r start events' i bot binding := by
  obtain ⟨before, after, rfl, was, holds⟩ := h
  obtain ⟨rest, rfl⟩ := more
  exact ⟨before, after ++ rest, by rw [List.append_assoc, List.cons_append], was, holds⟩

theorem Served.mono {bot : Bot u} (h : Served r start events bot) (more : events <+: events')
    (grown : Grown (start.run r events) (start.run r events')) : Served r start events' bot :=
  ⟨getElem?_mono grown.names h.name, h.addressed, h.token.mono more⟩

theorem Tracked.mono {i : Nat} {e : Execution u} (h : Tracked r start events i e) (more : events <+: events')
    (grown : Grown (start.run r events) (start.run r events')) : Tracked r start events' i e := by
  refine ⟨?_, fun bot hb => ?_, fun bot method hp binding hb => (h.checked bot method hp binding hb).mono more⟩
  · obtain ⟨attempt, update, ha, hu, same⟩ := h.came
    exact ⟨attempt, update, getElem?_mono grown.attempts ha, getElem?_mono grown.updates hu, same⟩
  · obtain ⟨served, source⟩ := h.served bot hb
    exact ⟨served.mono more grown, source⟩

namespace Invariant

/-- A reply that moves on is tracked on. -/
theorem tracked (h : Invariant r start events) {event : Event u} {i : Nat} {e : Execution u} {phase : Phase u}
    (he : (start.run r events).executions[i]? = some e) (moves : Moves (start.run r events) i e event phase)
    (grown : Grown (start.run r events) (start.run r (events ++ [event]))) :
    Tracked r start (events ++ [event]) i { e with phase } := by
  have more := List.prefix_append events [event]
  have t := (h.executions i e he).mono more grown
  refine ⟨t.came, fun bot hb => ?_, fun bot method hp binding hb => ?_⟩
  · cases moves with
    | stays => exact t.served bot hb
    | dropped => cases hb
    | found bot' method listed source =>
      cases hb
      exact ⟨(h.table bot listed).mono more grown, source⟩
    | admitted bot' method was | checked bot' method was _ | sent bot' method was =>
      cases hb
      refine t.served bot ?_
      rw [was]
      rfl
  · cases moves with
    | stays => exact t.checked bot method hp binding hb
    | dropped => rcases hp with hp | hp <;> cases hp
    | found | admitted => rcases hp with hp | hp <;> cases hp
    | checked bot' method' was holds =>
      rcases hp with hp | hp <;> cases hp
      exact ⟨events, [], rfl, ⟨e, method, he, was⟩, holds binding hb⟩
    | sent bot' method' was =>
      rcases hp with hp | hp <;> cases hp
      exact t.checked bot method (.inl was) binding hb

theorem step (h : Invariant r start events) (event : Event u) : Invariant r start (events ++ [event]) := by
  have effect := step_effect r (start.run r events) event
  rw [← System.run_concat] at effect
  have grown := effect.grown h.sourced
  have more := List.prefix_append events [event]
  have sourced : Sourced (start.run r (events ++ [event])).shared.state := by
    rw [effect.shared]
    exact run_sourced h.sourced _
  refine ⟨sourced, fun bot hb => ?_, fun update hu => ?_, fun attempt ha => ?_, fun i e he => ?_⟩
  · rcases effect.table with same | ⟨serving, same, table⟩
    · exact (h.table bot (same ▸ hb)).mono more grown
    · rw [table] at hb
      rcases mem_foldl_addBot (fun entry he => (h.table entry he).addressed) _ hb with none | ⟨goes, listed, hl, name, source, token⟩
      · cases none
      · obtain ⟨named, has⟩ := mem_gatewayBots h.sourced hl
        rw [← source, ← same, ← name] at named
        rw [← source, ← token] at has
        exact ⟨named, goes, events, more, has⟩
  · rcases effect.updates with same | ⟨source, info, hs, same⟩
    · exact getElem?_mono grown.names (h.updates update (same ▸ hu))
    · rcases List.mem_append.mp (same ▸ hu) with old | new
      · exact getElem?_mono grown.names (h.updates update old)
      · obtain rfl := List.mem_singleton.mp new
        exact (sourced.id hs).2
  · rcases effect.attempts with same | ⟨attempt', targets, same⟩
    · exact (h.attempts attempt (same ▸ ha)).mono more
    · rcases List.mem_append.mp (same ▸ ha) with old | new
      · exact (h.attempts attempt old).mono more
      · obtain rfl := List.mem_singleton.mp new
        exact ⟨events, more, targets⟩
  · rcases effect.executions he with same | ⟨called, attempt, update, ha, hu, source, bound⟩ | ⟨e, phase, was, rfl, moves⟩
    · exact (h.executions i e same).mono more grown
    · refine ⟨⟨attempt, update, getElem?_mono grown.attempts ha, getElem?_mono grown.updates hu, source, bound⟩,
        fun bot hb => ?_, fun bot method hp => ?_⟩
      · rw [called] at hb
        cases hb
      · rcases hp with hp | hp <;> cases called.symm.trans hp
    · exact h.tracked was moves grown

/-- The invariant of a system that has only started. -/
theorem run (sourced : Sourced start.shared.state) (table : start.gateway.table = []) (updates : start.updates = [])
    (attempts : start.attempts = []) (executions : start.executions = []) (events : List (Event u)) :
    Invariant r start events := by
  induction events using List.reverseRecOn with
  | nil =>
    refine ⟨sourced, fun bot hb => ?_, fun update hu => ?_, fun attempt ha => ?_, fun i e he => ?_⟩
    · exact absurd (table ▸ hb) List.not_mem_nil
    · exact absurd (updates ▸ hu) List.not_mem_nil
    · exact absurd (attempts ▸ ha) List.not_mem_nil
    · exact absurd (List.mem_of_getElem? (executions ▸ he)) List.not_mem_nil
  | append_singleton events event ih => exact ih.step event

end Invariant

end

/-! ### The token -/

/-- What a runtime endpoint answers is bound to who set it. -/
theorem Sending.binding_of_runtime {sent : Sending} (h : sent.runtime) : ∃ endpoint, sent.targets.runtime = some endpoint ∧
    sent.binding = some { source := endpoint.source, tokenFingerprint := endpoint.tokenFingerprint } := by
  cases hr : sent.targets.runtime with
  | none =>
    unfold Sending.runtime slots at h
    cases hs : sent.targets.endpoints[sent.index]? <;> simp [hr, hs] at h
  | some endpoint =>
    refine ⟨endpoint, rfl, ?_⟩
    rw [Sending.binding, hr, Option.filter_some, if_pos h]
    rfl

/-- A token that a bot holds is its token then, up to the key. -/
theorem holdsToken_spec {shared : Shared m} {binding : Binding} {token : Str} (h : holdsToken shared binding token) :
    shared.tokenKeys token = binding.tokenFingerprint ∧
      ∃ current, shared.state.token binding.source = some current ∧ shared.tokenKeys current = shared.tokenKeys token := by
  unfold holdsToken Shared.authenticated at h
  dsimp only at h
  rw [decide_eq_true_eq] at h
  split at h
  · rename_i fingerprint
    rw [Shared.tokenFingerprint_eq] at fingerprint
    exact ⟨Option.some.inj h, Option.map_eq_some_iff.mp fingerprint⟩
  · cases h

/-- A webhook reply is sent as the bot that the update came from, with a token that this bot had. One that a runtime endpoint
    answered is sent with the token that set the endpoint, and only if, after the limits had let it go, this was the token of the
    bot that had set it. -/
theorem run_replies {cfg : Config} {tokenKeys : Str → Nat} {engine : Shared m} (made : Shared.new cfg tokenKeys = .ok engine)
    (r : LocalFiles.Readers) (via : Str) (seeds : Nat → (ChatKey → Nat) × (ChatKey → Nat)) (events : List (Event u))
    (distinct : Set.InjOn tokenKeys
      {token | token ∈ cfg.bots.map (·.token) ∨ ∃ control ∈ controls events, token ∈ control.tokens}) :
    let start := System.new engine via seeds
    let now := start.run r events
    ∀ (i : Nat) (e : Execution u) (bot : Bot u) (method : Str), now.executions[i]? = some e → e.phase = .sent bot method →
      ∃ attempt update, now.attempts[e.attempt]? = some attempt ∧ now.updates[attempt.update]? = some update ∧
        bot.source = update.source ∧ bot.name = update.bot ∧
        base bot.upstream.url [botSegment bot.token] = some bot.methodBase ∧
        (∃ before, before <+: events ∧ (start.run r before).shared.state.token bot.source = some bot.token) ∧
        (attempt.sent.runtime → ∃ endpoint, attempt.sent.targets.runtime = some endpoint ∧
          (∃ early, early <+: events ∧ engine.SetBy (controls early) attempt.slot endpoint bot.token) ∧
          ∃ before after, events = before ++ .check i :: after ∧
            (∃ e method, (start.run r before).executions[i]? = some e ∧ e.phase = .admitted bot method) ∧
            (start.run r before).shared.state.token endpoint.source = some bot.token) := by
  intro start now i e bot method he sent
  obtain ⟨-, hkeys, -, empty⟩ := new_spec made
  have inv : Invariant r start events := .run (new_sourced made) rfl rfl rfl rfl events
  have t := inv.executions i e he
  obtain ⟨attempt, update, ha, hu, source, bound⟩ := t.came
  obtain ⟨served, same⟩ := t.served bot (by rw [sent]; rfl)
  have name : bot.name = update.bot := by
    have := inv.updates update (List.mem_of_getElem? hu)
    rw [← source, ← same, served.name] at this
    exact Option.some.inj this
  refine ⟨attempt, update, ha, hu, same.trans source, name, served.addressed, served.token, fun answered => ?_⟩
  obtain ⟨endpoint, hr, binding⟩ := Sending.binding_of_runtime answered
  obtain ⟨before, after, hevents, was, holds⟩ := t.checked bot method (.inr sent) _ (bound.trans binding)
  obtain ⟨early, le, targets⟩ := inv.attempts attempt (List.mem_of_getElem? ha)
  -- The tokens are ones that the run brought, so their keys tell them apart.
  have later {events' : List (Event u)} (more : events' <+: events) {token : Str}
      (h : token ∈ cfg.bots.map (·.token) ∨ ∃ control ∈ controls events', token ∈ control.tokens) :
      token ∈ cfg.bots.map (·.token) ∨ ∃ control ∈ controls events, token ∈ control.tokens :=
    h.imp_right fun ⟨control, hc, ht⟩ => ⟨control, (controls_mono more).subset hc, ht⟩
  have brought {events' : List (Event u)} (more : events' <+: events) {source : SourceId} {token : Str}
      (h : (start.run r events').shared.state.token source = some token) :
      token ∈ cfg.bots.map (·.token) ∨ ∃ control ∈ controls events, token ∈ control.tokens := by
    rw [System.run_shared] at h
    exact later more (run_token made h)
  have keys (events' : List (Event u)) : (start.run r events').shared.tokenKeys = tokenKeys := by
    rw [System.run_shared, Shared.run_tokenKeys]
    exact hkeys
  obtain ⟨past, hpast, had⟩ := served.token
  have own := brought hpast had
  have checking : before <+: events := hevents ▸ List.prefix_append ..
  obtain ⟨key, current, hcurrent, hkey⟩ := holdsToken_spec holds
  rw [keys] at key hkey
  refine ⟨endpoint, hr, ⟨early, le, ?_⟩, before, after, hevents, was, ?_⟩
  · rw [System.run_shared] at targets
    obtain ⟨token, set, hset⟩ := Shared.run_setBy empty (controls early) (i := attempt.slot) (r := endpoint)
      ((congrArg Consumer.runtime targets).trans hr)
    have set' := set
    obtain ⟨first, rest, hcontrols, -⟩ := set'
    have with_token : ∃ control ∈ controls early, token ∈ control.tokens :=
      ⟨_, hcontrols ▸ List.mem_append_right _ List.mem_cons_self, List.mem_singleton_self _⟩
    rwa [distinct own (later le (.inr with_token)) (key.trans (hset.trans (by rw [hkeys])))]
  · rw [hcurrent, distinct (brought checking hcurrent) own hkey]

/-- `pushed` with its replies executed. -/
def replying : Config :=
  { pushed with
    consumers := [{ id := 0, name := [112], kind := .push {
      endpoints := [], balance := .roundRobin, maxInFlight := 1, ordering := .none, capacity := 8, capacityBytes := 1024,
      onFull := .backpressure, retry := { initial := 1, max := 1, maxAttempts := 1, maxAge := 1 },
      breaker := { failureThreshold := 1, openFor := 1 }, acceptSetWebhook := true, webhookReply := .execute,
      honorDropPending := false } }]
    consumerNames := by decide
    ids := by decide
    owned := by decide }

def replyingEngine : Shared literal := (Shared.new replying List.length).toOption.get rfl

/-- Readers of bodies without escapes. -/
def unescaped : LocalFiles.Readers where
  percentDecode := id
  members _ := none
  string _ := none

/-- Bot `a` sets its endpoint, which answers an update of `a` with a call. -/
def answering : List (Event Gateway.System.segmented) :=
  [.control webhook,
    .setBots fun _ => {
      upstream := (Gateway.System.served Gateway.System.plain).upstream
      allowLocalFiles := false
      gateway := (Gateway.System.served Gateway.System.plain).gateway },
    .receive 0, .send 0 0 0,
    .answer 0 {
      contentType := some (LocalFiles.ascii "application/x-www-form-urlencoded")
      contentLength := none
      chunks := [LocalFiles.ascii "method=sendMessage"]
      whole := true },
    .begin 0, .letGo 0 true, .check 0, .enter 0]

/-- The call is sent with the token that the endpoint was set with. -/
theorem run_replies_answered :
    let start := System.new replyingEngine [] fun _ => (fun _ => 0, fun _ => 0)
    ∃ e bot endpoint, (start.run unescaped answering).executions[0]? = some e ∧
      e.phase = .sent bot (LocalFiles.ascii "sendMessage") ∧ bot.token = [1] ∧
      ∃ early, early <+: answering ∧ replyingEngine.SetBy (controls early) 0 endpoint bot.token := by
  intro start
  have made : Shared.new replying List.length = .ok replyingEngine := rfl
  have called : ((start.run unescaped answering).executions[0]?.bind fun e =>
      match e.phase with
      | .sent bot method => some (e.attempt, bot.token, method)
      | .called | .limited _ _ | .admitted _ _ | .checked _ _ | .dropped => none) =
        some (0, [1], LocalFiles.ascii "sendMessage") := by decide +kernel
  have request : (start.run unescaped answering).attempts[0]?.map (fun attempt => (attempt.slot, attempt.sent.runtime)) =
      some (0, true) := by decide +kernel
  obtain ⟨e, he, found⟩ := Option.bind_eq_some_iff.mp called
  cases sent : e.phase with
  | sent bot method =>
    rw [sent] at found
    obtain ⟨hattempt, token, rfl⟩ : e.attempt = 0 ∧ bot.token = [1] ∧ method = LocalFiles.ascii "sendMessage" := by
      simpa using Option.some.inj found
    obtain ⟨attempt, update, ha, -, -, -, -, -, answered⟩ := run_replies made unescaped [] (fun _ => (fun _ => 0, fun _ => 0))
      answering (by
        rintro token ht token' ht' -
        have one {token : Str} (h : token ∈ replying.bots.map (·.token) ∨
            ∃ control ∈ controls answering, token ∈ control.tokens) : token = [1] := by
          simpa [replying, pushed, oneRule, answering, controls, webhook, Control.tokens] using h
        rw [one ht, one ht']) 0 e bot _ he sent
    rw [hattempt] at ha
    rw [ha] at request
    obtain ⟨slot, runtime⟩ := Prod.mk.inj (Option.some.inj request)
    obtain ⟨endpoint, -, ⟨early, le, set⟩, -⟩ := answered runtime
    exact ⟨e, bot, endpoint, he, sent, token, early, le, slot ▸ set⟩
  | _ =>
    rw [sent] at found
    cases found

end Tgin.Replies
