import Tgin.Admission.Owners

/-! A bot gets its own updates only, in every run whose reloads hand no instance on with what is another bot's. -/

namespace Tgin.PullConsumer
open Queue

variable {T : Type}

/-- A step of a poll calls the queue at most once, to take or to acknowledge, and hands out what the queue held. -/
theorem advance_spec {c : PullConsumer T} (exact : Exact c.queue.inner) {poll : Poll T}
    (asks : ∀ response, poll.phase ≠ .answered response) (now : Instant) :
    ((c.advance poll now).2.queue = c.queue ∨ ∃ op : Op T, op.consumes ∧ op.purges = false ∧
      (c.advance poll now).2.queue = (Client.step op { queue := c.queue, permits := [] }).2.queue) ∧
    ∀ response, (c.advance poll now).1 = .answered response → ∀ item ∈ response.items,
      ∃ (seq : Nat) (e : Entry T), c.queue.inner.entries[seq]? = some e ∧ e.item = item := by
  obtain ⟨req, start, phase⟩ := poll
  have leased (op : Op T) (h : op.consumes) {leases : List (Lease T)}
      (answer : (Client.step op { queue := c.queue, permits := [] }).1 = .leases leases) :
      ∀ item ∈ leases.map (·.item), ∃ (seq : Nat) (e : Entry T), c.queue.inner.entries[seq]? = some e ∧ e.item = item := by
    intro item mem
    obtain ⟨lease, leased, rfl⟩ := List.mem_map.mp mem
    obtain ⟨e, stored, item⟩ := (Client.step_consumes h exact).2.2 leases answer lease leased
    exact ⟨lease.seq, e, stored, item⟩
  cases phase with
  | acking =>
    refine ⟨?_, by rintro _ ⟨⟩⟩
    simp only [advance, ack]
    split
    · exact .inl rfl
    · split
      · exact .inr ⟨.ackBelow req.instanceId req.offset, rfl, rfl, rfl⟩
      · exact .inr ⟨.ackAll req.instanceId, rfl, rfl, rfl⟩
  | holding =>
    refine ⟨.inr ⟨.held req.instanceId req.offset start, rfl, rfl, rfl⟩, fun response answered item mem => ?_⟩
    simp only [advance] at answered
    split at answered
    · cases answered
    · cases answered
      rw [PollResponse.fromLeases, List.map_take] at mem
      exact leased (.held req.instanceId req.offset start) rfl rfl item (List.mem_of_mem_take mem)
  | looking drainDeadline =>
    refine ⟨.inl rfl, fun response answered => ?_⟩
    simp only [advance] at answered
    split at answered <;> cases answered
  | leasing at' drainDeadline =>
    refine ⟨.inr ⟨.lease req.instanceId req.limit at', rfl, rfl, rfl⟩, fun response answered item mem => ?_⟩
    simp only [advance] at answered
    split at answered
    · cases answered
    · cases answered
      exact leased (.lease req.instanceId req.limit at') rfl rfl item mem
  | settling at' drainDeadline =>
    refine ⟨.inl (by unfold advance; rfl), fun response answered item mem => ?_⟩
    -- Only the end of the wait answers, and it answers with nothing.
    have none : response = ⟨[]⟩ := by
      simp only [advance] at answered
      split at answered <;> split at answered <;> cases answered <;> rfl
    subst none
    cases mem
  | waiting drainDeadline => exact ⟨.inl rfl, by rintro _ ⟨⟩⟩
  | answered response => exact absurd rfl (asks response)

end Tgin.PullConsumer

namespace Tgin.Engine.Traffic
open Queue Rules Config

variable {m : Matchers} {t t' : Traffic m} {slot : Nat} {source : SourceId}

/-! ### Reloads -/

theorem Has.known (h : t.Inv) (has : t.Has slot source) : slot < t.shared.allocated := by
  cases has with
  | stored stored =>
    refine Nat.lt_of_not_le fun le => ?_
    have empty : (t.slots slot).queue.inner.entries = ∅ := (h.sys.sound.shared.unused slot le).entries
    rw [empty] at stored
    simp at stored
  | ahead mem ahead here => exact here ▸ h.sys.sound.known _ mem _ (Pc.ahead_subset _ ahead)
  | polling mem here => exact here ▸ (h.polls _ mem).1
  | delivering mem here => exact here ▸ h.deliveries _ mem

section Apply
variable {new : Config}

/-- The step of a reload. -/
abbrev applying (t : Traffic m) (new : Config) : Traffic m := t.step (.act (.control (.apply new)))

/-- A reload gives no instance anything. -/
theorem Has.applied (h : t.Inv) (has : (t.applying new).Has slot source) : t.Has slot source := by
  have sound := h.sys.sound
  obtain ⟨admissions, closes, leaves, -⟩ := System.control_leaves sound.shared (.apply new)
  cases has with
  | @stored seq e stored =>
    have stored : ((t.sys.control (.apply new)).world.shared.slots slot).queue.inner.entries[seq]? = some e := stored
    rw [(leaves.slots slot).entries] at stored
    exact .stored stored
  | @ahead a mem target ahead here =>
    have mem : a ∈ t.sys.admissions := admissions ▸ mem
    have same : a.pc.ahead (t.applying new).slots a.update.source = a.pc.ahead t.slots a.update.source :=
      Pc.ahead_congr fun target ht => (System.act_name sound (.control (.apply new)) (sound.known a mem target ht)).1
    exact .ahead mem (same ▸ ahead) here
  | polling mem here => exact .polling mem here
  | delivering mem here => exact .delivering mem here

/-- A draining instance had the bot that fed it before. -/
theorem drained_applied (h : t.Inv) (applied : t.shared.Applied new (t.applying new).shared)
    (mem : slot ∈ (t.applying new).shared.retired) (pull : ((t.applying new).slots slot).mode = .pull)
    (fed : ((t.applying new).slots slot).fedBy = some source) : t.Comes slot source ∧ t.Claims slot source := by
  obtain ⟨known, origin⟩ := applied.draining slot mem
  have mode : (t.slots slot).mode = .pull :=
    (System.act_name h.sys.sound (.control (.apply new)) known).2.symm.trans pull
  rcases origin with ⟨mem, same⟩ | ⟨⟨target, current, rfl⟩, noted⟩
  · have fed : (t.slots slot).fedBy = some source := same.symm.trans fed
    exact ⟨.draining mem mode fed, .draining mem mode fed⟩
  · have feeds := feeder_feeds ((noted mode).symm.trans fed)
    refine ⟨.current current rfl feeds, .of_feeds h.sys.sound.shared.instances current (fun c _ _ same => ?_) feeds⟩
    exact servesOneBot_of_pull (same.symm.trans mode)

/-- A bot that feeds an instance handed on is the one that everything at it is for. -/
theorem heir (h : t.Inv) (clean : t.Clean (.act (.control (.apply new)))) {generation : Nat}
    (ok : (t.shared.apply new).1 = .ok generation) (applied : t.shared.Applied new (t.applying new).shared)
    {c : Config.Consumer} (hc : c ∈ new.consumers) (one : c.kind.servesOneBot = true) (inherited : t.shared.inherited c = some slot)
    (has : t.Has slot source) {feeder : SourceId} (feeds : (t.applying new).shared.state.feeds feeder c.name = true) :
    source = feeder := by
  have sound := h.sys.sound
  have sourced : Sourced (t.applying new).shared.state := (System.act_settled sound h.sys.settled (.control (.apply new))).sourced
  have continues := System.act_continues sound h.sys.settled.sourced (.control (.apply new))
  have config : (t.applying new).shared.state.config = new := applied.config
  obtain ⟨info, hs, bot, hb, name, targets⟩ := (feeds_iff (by rw [config]; exact hc)).mp feeds
  rw [config] at hb
  have known := (clean generation ok).2 c hc one bot hb targets slot inherited source (mem_bots.mpr has)
  obtain ⟨before, named, rfl⟩ := Option.map_eq_some_iff.mp known
  obtain ⟨after, named', id⟩ := continues.kept named (config.symm ▸ List.mem_map_of_mem hb)
  obtain ⟨hs', name'⟩ := sourced.of_sourceNamed named'
  exact id.symm.trans (sourced.unique hs' hs (name'.trans name))

theorem Inv.apply {isMatch : Str → Str → Bool} {owns : m.Regex → m.Cache → Prop} (lawful : m.Lawful isMatch owns) (h : t.Inv)
    (clean : t.Clean (.act (.control (.apply new)))) {generation : Nat} (ok : (t.shared.apply new).1 = .ok generation)
    (applied : t.shared.Applied new (t.applying new).shared) : (t.applying new).Inv := by
  have sound := h.sys.sound
  have orderly : (t.applying new).sys.Orderly := by
    refine System.act_orderly lawful h.sys (.control (.apply new)) fun new' generation' eq ok' => ?_
    cases eq
    exact (clean generation' ok').1
  have le : t.shared.allocated ≤ (t.applying new).shared.allocated := (System.act_sound sound (.control (.apply new))).2
  have instances : (t.applying new).shared.Instances := orderly.sound.shared.instances
  have config : (t.applying new).shared.state.config.consumers = new.consumers := congrArg (·.consumers) applied.config
  have apart {target : Target} (mem : target ∈ (t.applying new).shared.state.targets) :
      target.slot ∉ (t.applying new).shared.retired := fun hr => Instances.apart instances _ hr target mem rfl rfl
  -- Everything at a current instance that serves one bot is for a bot that feeds it.
  have current {target : Target} (mem : target ∈ (t.applying new).shared.state.targets) {c : Config.Consumer}
      (hc : c ∈ new.consumers) (name : ((t.applying new).slots target.slot).name = c.name) (one : c.kind.servesOneBot = true)
      {source feeder : SourceId} (served : (t.applying new).Serves target.slot source)
      (feeds : (t.applying new).shared.state.feeds feeder c.name = true) : source = feeder := by
    rcases served with has | comes
    · obtain ⟨c', hc', name', -, origin⟩ := applied.current target mem
      obtain rfl := List.inj_on_of_nodup_map new.consumerNames hc' hc (name'.symm.trans name)
      have has := has.applied h
      rcases origin with inherited | ⟨fresh, -⟩
      · exact heir h clean ok applied hc one inherited has feeds
      · exact absurd (has.known h) (Nat.not_lt.mpr fresh)
    · cases comes with
      | current mem' here feeds' =>
        exact feeds_unique orderly.settled.sourced (config.symm ▸ hc) one (name ▸ feeds') feeds
      | draining mem' => exact absurd mem' (apart mem)
  refine ⟨orderly, fun p mem => ?_, fun d mem => Nat.lt_of_lt_of_le (h.deliveries d mem) le,
    fun slot known source claimant served claims => ?_, h.own⟩
  · obtain ⟨known, pull, asks⟩ := h.polls p mem
    exact ⟨Nat.lt_of_lt_of_le known le, (System.act_name sound (.control (.apply new)) known).2.trans pull, asks⟩
  · cases claims with
    | current mem here hc name one feeds =>
      subst here
      exact current mem (config ▸ hc) name one served feeds
    | draining mem pull fed =>
      have claims := (drained_applied h applied mem pull fed).2
      rcases served with has | comes
      · have has := has.applied h
        exact h.single slot (has.known h) source claimant (.inl has) claims
      · cases comes with
        | current mem' here => exact absurd (here ▸ mem) (apart mem')
        | draining _ _ fed' => exact Option.some.inj (fed'.symm.trans fed)
    | @runtime r set by' =>
      have before (known : slot < t.shared.allocated) : t.Claims slot claimant :=
        .runtime ((applied.kept slot known).of_runtime set) by'
      rcases served with has | comes
      · have has := has.applied h
        exact h.single slot (has.known h) source claimant (.inl has) (before (has.known h))
      · cases comes with
        | @current target mem here feeds =>
          subst here
          obtain ⟨c, hc, name, -⟩ := applied.current target mem
          obtain ⟨accepts, feeds'⟩ := applied.heard target mem r set
          rw [name] at accepts feeds'
          have one := servesOneBot_of_accepts (config.symm ▸ hc) accepts
          exact current mem hc name one (.inr (.current mem rfl feeds)) (by' ▸ feeds')
        | draining mem pull fed =>
          have known := (applied.draining slot mem).1
          exact h.single slot known source claimant (.inr (drained_applied h applied mem pull fed).1) (before known)
    | @polling p mem here by' =>
      have mem : p ∈ t.polls := mem
      obtain ⟨known, pull, -⟩ := h.polls p mem
      rw [here] at known pull
      have claims : t.Claims slot claimant := .polling mem here by'
      rcases served with has | comes
      · exact h.single slot known source claimant (.inl (has.applied h)) claims
      · cases comes with
        | @current target mem' here' feeds =>
          subst here'
          obtain ⟨c, hc, name, mode, -⟩ := applied.current target mem'
          have mode : Engine.mode c.kind = .pull :=
            mode.symm.trans ((System.act_name sound (.control (.apply new)) known).2.trans pull)
          have served : (t.applying new).Serves target.slot claimant := by' ▸ .inl (.polling mem here)
          exact (current mem' hc name (servesOneBot_of_pull mode) served (name ▸ feeds)).symm
        | draining mem pull fed =>
          exact h.single slot known source claimant (.inr (drained_applied h applied mem pull fed).1) claims

end Apply

/-! ### The other steps -/

section Steps
variable {isMatch : Str → Str → Bool} {owns : m.Regex → m.Cache → Prop}

theorem Inv.polling (h : t.Inv) {p : Polling} (mem : p ∈ t.polls) : p.slot < t.shared.allocated ∧ (t.slots p.slot).mode = .pull ∧
    (∀ response, p.poll.phase ≠ .answered response) ∧ t.Serves p.slot p.source ∧ t.Claims p.slot p.source := by
  obtain ⟨known, pull, asks⟩ := h.polls p mem
  exact ⟨known, pull, asks, .inl (.polling mem rfl), .polling mem rfl rfl⟩

theorem Inv.delivering (h : t.Inv) {d : Delivering} (mem : d ∈ t.deliveries) :
    d.slot < t.shared.allocated ∧ t.Serves d.slot d.lease.item.source := ⟨h.deliveries d mem, .inl (.delivering mem rfl)⟩

theorem Follows.of_consume (lawful : m.Lawful isMatch owns) (h : t.sys.Orderly) {op : Op Envelope}
    (moves : t'.sys = t.sys.act (.consume slot op)) : t.Follows t' := by
  refine .of_act lawful h moves ?_ (by rintro _ _ ⟨⟩)
  rcases System.act_cases h.sound (.consume slot op) with alike | ⟨_, _, eq, -⟩
  · exact alike
  · cases eq

/-- Setting the queue that a call leaves is that call. -/
theorem modify_sys (known : slot < t.shared.allocated) {op : Op Envelope} (consumes : op.consumes) (quiet : op.purges = false)
    {queue : LeaseQueue Envelope} (eq : queue = (Client.step op { queue := (t.slots slot).queue, permits := [] }).2.queue) :
    (t.modify slot fun s => { s with queue }).sys = t.sys.act (.consume slot op) := by
  have same : { t.slots slot with queue } = (t.slots slot).consume op := by
    subst eq
    unfold Slot.consume
    simp only [consumes, quiet]
    rfl
  simp only [System.act, if_pos (show slot < t.sys.world.shared.allocated from known)]
  exact congrArg (fun s => { t.sys with world := { t.sys.world with shared :=
    { t.sys.world.shared with slots := Function.update t.sys.world.shared.slots slot s } } }) same

theorem modify_sys_same {queue : LeaseQueue Envelope} (eq : queue = (t.slots slot).queue) :
    (t.modify slot fun s => { s with queue }).sys = t.sys := by
  subst eq
  exact congrArg (fun slots => { t.sys with world := { t.sys.world with shared := { t.sys.world.shared with slots } } })
    (Function.update_eq_self ..)

theorem inv_poll (h : t.Inv) (source : SourceId) (name : Str) (req : PollRequest) (start : Instant) :
    (t.step (.poll source name req start)).Inv := by
  simp only [step]
  split
  · exact h
  · rename_i slot found
    obtain ⟨known, pull, comes, claims⟩ := pullConsumerFor_spec h.sys.sound.shared.instances found
    refine h.next (.of_eq h.sys rfl) (fun p mem => ?_) (fun d mem => h.delivering mem) h.own
    rcases List.mem_append.mp mem with mem | mem
    · exact h.polling mem
    · obtain rfl := List.mem_singleton.mp mem
      exact ⟨known, pull, by rintro _ ⟨⟩, .inr comes, claims⟩

theorem inv_advance (lawful : m.Lawful isMatch owns) (h : t.Inv) (i : Nat) (paused : Bool) (now : Instant) :
    (t.step (.advance i paused now)).Inv := by
  simp only [step]
  split
  · exact h
  · rename_i p hp
    have mem := List.mem_of_getElem? hp
    obtain ⟨known, pull, asks, serves, claims⟩ := h.polling mem
    obtain ⟨calls, hands⟩ :=
      PullConsumer.advance_spec (c := (t.slots p.slot).pullConsumer paused) (h.sys.sound.shared.exact p.slot) asks now
    generalize ((t.slots p.slot).pullConsumer paused).advance p.poll now = result at calls hands
    obtain ⟨phase, consumer⟩ := result
    have follows {t' : Traffic m} (same : t'.sys = (t.modify p.slot fun s => { s with queue := consumer.queue }).sys) :
        t.Follows t' := by
      rcases calls with eq | ⟨op, consumes, quiet, eq⟩
      · exact .of_eq h.sys (same.trans (modify_sys_same eq))
      · exact .of_consume lawful h.sys (same.trans (modify_sys known consumes quiet eq))
    dsimp only
    split
    · rename_i response
      refine h.next (follows rfl) (fun q hq => h.polling (List.mem_of_mem_eraseIdx hq)) (fun d hd => h.delivering hd)
        ⟨fun x hx => ?_, h.own.2⟩
      rcases List.mem_append.mp hx with hx | hx
      · exact h.own.1 x hx
      · obtain ⟨item, hitem, rfl⟩ := List.mem_map.mp hx
        obtain ⟨seq, e, stored, rfl⟩ := hands response rfl item hitem
        exact h.single p.slot known e.item.source p.source (.inl (.stored stored)) claims
    · rename_i phase open'
      refine h.next (follows rfl) (fun q hq => ?_) (fun d hd => h.delivering hd) h.own
      rcases List.mem_or_eq_of_mem_set hq with hq | rfl
      · exact h.polling hq
      · exact ⟨known, pull, fun response answered => open' response answered, serves, claims⟩

theorem inv_stop (h : t.Inv) (i : Nat) : (t.step (.stop i)).Inv := by
  simp only [step]
  split
  · exact h.next (.of_eq h.sys rfl) (fun q hq => h.polling (List.mem_of_mem_eraseIdx hq)) (fun d hd => h.delivering hd) h.own
  · exact h

theorem inv_dispatch (lawful : m.Lawful isMatch owns) (h : t.Inv) (slot : Nat) (paused : Bool) (now : Instant) :
    (t.step (.dispatch slot paused now)).Inv := by
  simp only [step]
  split
  · exact h
  · split
    · exact h
    · rename_i targets _ idle
      simp only [Bool.or_eq_true, decide_eq_true_eq, not_or, Nat.not_le] at idle
      have known := idle.1.2
      let op : Op Envelope := .lease Push.HOLDER (targets.options.maxInFlight - t.deliveries.countP (·.slot = slot)) now
      have consumes : op.consumes := rfl
      have consumed := Client.step_consumes consumes (h.sys.sound.shared.exact slot)
      refine h.next (.of_consume lawful h.sys (modify_sys known consumes rfl rfl)) (fun p hp => h.polling hp)
        (fun d hd => ?_) h.own
      rcases List.mem_append.mp hd with hd | hd
      · exact h.delivering hd
      · obtain ⟨lease, hl, rfl⟩ := List.mem_map.mp hd
        obtain ⟨e, stored, item⟩ := consumed.2.2 _ rfl lease hl
        exact ⟨known, item ▸ .inl (.stored stored)⟩

theorem inv_send (h : t.Inv) (i endpoint : Nat) : (t.step (.send i endpoint)).Inv := by
  simp only [step]
  split
  · exact h
  · rename_i d hd
    split
    · exact h
    · rename_i runtime found
      have mem := List.mem_of_getElem? hd
      obtain ⟨known, serves⟩ := h.delivering mem
      have set : (t.slots d.slot).consumer.runtime = some runtime := by
        unfold runtimeAt at found
        split at found
        · cases found
        · rename_i eq
          rw [eq]
          split at found
          · exact found
          · cases found
      refine h.next (.of_eq h.sys rfl) (fun q hq => h.polling hq) (fun d hd => h.delivering hd) ⟨h.own.1, fun x hx => ?_⟩
      rcases List.mem_append.mp hx with hx | hx
      · exact h.own.2 x hx
      · obtain rfl := List.mem_singleton.mp hx
        exact h.single d.slot known _ _ serves (.runtime set rfl)

theorem inv_settle (lawful : m.Lawful isMatch owns) (h : t.Inv) (i : Nat) (acked : Bool) : (t.step (.settle i acked)).Inv := by
  simp only [step]
  split
  · exact h
  · rename_i d hd
    have known := h.deliveries d (List.mem_of_getElem? hd)
    let op : Op Envelope := if acked then .ackSeq Push.HOLDER d.lease.seq else .releaseSeq Push.HOLDER d.lease.seq
    have moves : (t.modify d.slot (·.consume op)).sys = t.sys.act (.consume d.slot op) := (if_pos known).symm
    exact h.next (.of_consume lawful h.sys moves) (fun q hq => h.polling hq)
      (fun d hd => h.delivering (List.mem_of_mem_eraseIdx hd)) h.own

theorem inv_step (lawful : m.Lawful isMatch owns) (h : t.Inv) (e : Event) (clean : t.Clean e) : (t.step e).Inv := by
  cases e with
  | act action =>
    rcases System.act_cases h.sys.sound action with alike | ⟨new, generation, rfl, ok, applied⟩
    · refine h.next (.of_act lawful h.sys rfl alike ?_) (fun p hp => h.polling hp) (fun d hd => h.delivering hd) h.own
      rintro new generation rfl ok
      exact (clean generation ok).1
    · exact h.apply lawful clean ok applied
  | poll source name req start => exact inv_poll h source name req start
  | advance i paused now => exact inv_advance lawful h i paused now
  | stop i => exact inv_stop h i
  | dispatch slot paused now => exact inv_dispatch lawful h slot paused now
  | send i endpoint => exact inv_send h i endpoint
  | settle i acked => exact inv_settle lawful h i acked

/-! ### Runs -/

theorem inv_new {cfg : Config} {tokenKeys : Str → Nat} {engine : Shared m} (made : Shared.new cfg tokenKeys = .ok engine)
    (small : cfg.nodes < 2 ^ 32) : (new engine).Inv := by
  obtain ⟨config, -, retired, runtime⟩ := new_spec made
  have settled := System.new_settled made
  refine ⟨⟨System.sound_new made, settled, ?_, ?_, ?_⟩, ?_, ?_, fun slot _ source claimant served claims => ?_, ?_, ?_⟩
  · change engine.state.config.nodes < 2 ^ 32
    rwa [config]
  · intro t _ r set
    cases (runtime t.slot).symm.trans set
  · rintro _ ⟨⟩
  · rintro _ ⟨⟩
  · rintro _ ⟨⟩
  · have quiet : slot ∉ engine.retired := by simp [retired]
    rcases served with has | comes
    · cases has with
      | stored stored =>
        have empty : ((new engine).slots slot).queue.inner.entries = ∅ := (System.unused_new made slot).entries
        rw [empty] at stored
        simp at stored
      | ahead mem => cases mem
      | polling mem => cases mem
      | delivering mem => cases mem
    · cases comes with
      | current mem here feeds =>
        cases claims with
        | current _ _ hc name one feeds' => exact feeds_unique settled.sourced hc one (name ▸ feeds) feeds'
        | draining mem => exact absurd mem quiet
        | runtime set => cases (runtime slot).symm.trans set
        | polling mem => cases mem
      | draining mem => exact absurd mem quiet
  · rintro _ ⟨⟩
  · rintro _ ⟨⟩

/-- As long as no reload hands an instance on, for a consumer that serves one bot, to another bot than everything at it is for,
    a poll of a bot hands out updates that were admitted for it, and to an endpoint that a bot's `setWebhook` set go updates
    that were admitted for it. -/
theorem run_isolated (lawful : m.Lawful isMatch owns) {cfg : Config} {tokenKeys : Str → Nat} {engine : Shared m}
    (made : Shared.new cfg tokenKeys = .ok engine) (small : cfg.nodes < 2 ^ 32) (events : List Event)
    (clean : ∀ before e after, events = before ++ e :: after → ((new engine).run before).Clean e) :
    ∀ before, before <+: events → ((new engine).run before).Own := by
  have inv (before : List Event) (le : before <+: events) : ((new engine).run before).Inv := by
    induction before using List.reverseRecOn with
    | nil => exact inv_new made small
    | append_singleton before e ih =>
      obtain ⟨after, rfl⟩ := le
      have split : before ++ [e] ++ after = before ++ e :: after := List.append_assoc ..
      have step := inv_step lawful (ih ⟨e :: after, split.symm⟩) e (clean before e after split)
      rwa [run, List.foldl_append]
  exact fun before le => (inv before le).own

end Steps

/-- The rules of `a` and `b` crossed over. -/
def crossed : Config :=
  { both with bots := [oneRule [97] [1] 1, oneRule [98] [2] 0], botNames := by decide, tokens := by decide, owned := by decide }

/-- The admission of an update of a bot, from beginning to end. -/
def admitted (source : SourceId) (updateId : Nat) : List Event :=
  (.begin { source, updateId, payload := [1], facts := default } :: List.replicate 9 (.step updateId 0)).map .act

/-- A poll of a bot on `p`, from beginning to end. -/
def polled (source : SourceId) (offset : Int) : List Event :=
  .poll source [112] { instanceId := "", offset, limit := 8, timeout := 1, limit_range := by decide, timeout_le := by decide } 0 ::
    List.replicate 5 (.advance 0 false 1)

/-- The consumer `p` goes from `a` to `b` when its queue is empty. -/
def handover : List Event :=
  admitted 0 0 ++ polled 0 0 ++ polled 0 1 ++ .act (.control (.apply crossed)) :: (admitted 1 1 ++ polled 1 0)

def reloads : Event → Bool
  | .act (.control (.apply _)) => true
  | _ => false

theorem handover_clean (before : List Event) (e : Event) (after : List Event) (eq : handover = before ++ e :: after) :
    ((new bothEngine).run before).Clean e := by
  cases e with
  | act action =>
    cases action with
    | control control =>
      cases control with
      | apply new' =>
        have here : handover[before.length]? = some (.act (.control (.apply new'))) := by simp [eq]
        have below : before.length < handover.length := by simp [eq]
        have reload : (handover.map reloads)[before.length]? = some true := by rw [List.getElem?_map, here]; rfl
        have once : ∀ i < handover.length, (handover.map reloads)[i]? = some true → i = 22 := by decide
        have last := once _ below reload
        have before_eq : before = handover.take 22 := by rw [← last, eq, List.take_left]
        rw [last] at here
        cases here
        rw [before_eq]
        refine fun generation _ => ⟨by decide, fun c hc _ bot _ _ slot inherited source mem => ?_⟩
        -- At the reload nothing is left at `p`, and `q` had nothing.
        have known : ∀ c ∈ crossed.consumers, ∀ slot ∈ ((new bothEngine).run (handover.take 22)).shared.inherited c, slot < 2 := by
          decide
        have empty : ∀ slot < 2, ((new bothEngine).run (handover.take 22)).bots slot = [] := by decide
        rw [empty slot (known c hc slot inherited)] at mem
        cases mem
      | _ => trivial
    | _ => trivial
  | _ => trivial

theorem run_isolated_handover :
    let reached := (new bothEngine).run handover
    reached.handed.map (fun x => (x.1, x.2.updateId)) = [(0, 0), (1, 1)] ∧ reached.Own := by
  intro reached
  have made : Shared.new both List.length = .ok bothEngine := rfl
  have own := run_isolated literal_lawful made (by decide) handover handover_clean
  exact ⟨by decide, own handover List.prefix_rfl⟩

/-- With an update of `a` in the queue of `p`, the poll of `b` after the reload gets it. -/
theorem run_leaks : ¬ ∀ (cfg : Config) (engine : Shared literal), Shared.new cfg List.length = .ok engine →
    ∀ events, ((new engine).run events).Own := by
  intro h
  have own := (h both bothEngine rfl (admitted 0 0 ++ .act (.control (.apply crossed)) :: polled 1 0)).1
  exact absurd own (by decide)

end Tgin.Engine.Traffic
