import Tgin.Admission.Accounts
import Tgin.Admission.AllOrNothing

/-! What an admitted update came to, whatever acts on the engine in between: the last try deals it to each target it was routed to
    once, queued or counted as dropped. -/

namespace Tgin.Engine
open Queue Rules

variable {m : Matchers}

/-! ### Targets, each once -/

theorem walk_nodup (table : RouteTable m) (fuel : Nat) {node : Nat} {key : Option Nat} {state : List ConsumerId × Cursors}
    (h : state.1.Nodup) : (table.walk fuel node key state).1.Nodup := by
  induction fuel generalizing node key state with
  | zero => exact h
  | succ fuel ih =>
    obtain ⟨out, cursors⟩ := state
    unfold RouteTable.walk
    split
    · exact h
    · dsimp only
      split
      · exact h
      · rename_i absent
        rw [← List.concat_eq_append]
        exact (List.nodup_concat out _).mpr ⟨by simpa using absent, h⟩
    · rename_i children _
      generalize table.childSlice children = children
      generalize (out, cursors) = state at h ⊢
      induction children generalizing state with
      | nil => exact h
      | cons child children each => exact each _ (ih h)
    · dsimp only
      split
      · exact h
      · split
        · exact h
        · exact ih h

/-- A route gives each consumer once. -/
theorem World.route_nodup (world : World m) (state : EngineState m) (update : Update) : (world.route state update).1.2.Nodup := by
  unfold World.route RouteTable.route
  dsimp only
  split
  · exact List.nodup_nil
  · split
    · exact List.nodup_nil
    · split
      · exact List.nodup_nil
      · exact walk_nodup _ _ List.nodup_nil

theorem Instances.slots_nodup {consumers : List Config.Consumer} {targets : List Target} {retired : List Nat} {allocated : Nat}
    {slots : Nat → Slot} (h : Instances consumers targets retired allocated slots) : (targets.map (·.slot)).Nodup := by
  have names := h.consumerNames
  rw [← h.target_names] at names
  refine List.Nodup.of_map (fun slot => (slots slot).name) ?_
  rwa [List.map_map]

theorem visits_nodup {targets : List Target} (h : (targets.map (·.slot)).Nodup) {ids : List ConsumerId} (nodup : ids.Nodup) :
    ((visits targets ids).map (·.slot)).Nodup := by
  rw [((visits_perm targets ids).map _).nodup_iff, routed, List.map_filterMap]
  refine nodup.filterMap fun id id' slot at_id at_id' => ?_
  rw [Option.mem_def, ← List.getElem?_map] at at_id at_id'
  obtain ⟨inside, -⟩ := List.getElem?_eq_some_iff.mp at_id
  exact UInt16.toNat_inj.mp ((List.getElem?_inj inside h).mp (at_id.trans at_id'.symm))

/-! ### Queues and their permits -/

/-- The queue of an instance has the address of its slot. -/
def Shared.Addressed (shared : Shared m) : Prop := ∀ i < shared.allocated, (shared.slots i).queue.address = i

theorem Slot.Kept.address {s s' : Slot} (h : s.Kept s') : s'.queue.address = s.queue.address := by
  obtain ⟨cfg, notified, queue⟩ := h.queue
  rw [queue]

theorem Slot.Effect.address {update : Update} {now : Instant} {commits : Prop} {s s' : Slot} {fate : Fate} {skips : Nat}
    (h : s.Effect update now commits fate skips s') : s'.queue.address = s.queue.address := by
  cases h <;> rfl

/-- A new slot has its own address. -/
theorem newSlot_address (slot : Nat) (c : Config.Consumer) (sourceNames : List Str) : (newSlot slot c sourceNames).queue.address = slot := by
  unfold newSlot
  cases c.kind <;> rfl

theorem Plan.foldl_addressed {old : Option (EngineState m)} {slots : Nat → Slot} {retired : List Nat} {namesGrew : Bool}
    {sourceNames : List Str} (cs : List Config.Consumer) {d : Draft} (h : ∀ i < d.allocated, (d.slots i).queue.address = i) :
    let d' := cs.foldl (consumer old slots retired namesGrew sourceNames) d
    ∀ i < d'.allocated, (d'.slots i).queue.address = i := by
  induction cs generalizing d with
  | nil => exact h
  | cons c cs ih =>
    rw [List.foldl_cons]
    refine ih fun i inside => ?_
    obtain ⟨slot, -, -, -, ⟨-, same, allocated⟩ | ⟨-, -, rfl, made, allocated⟩⟩ :=
      consumer_spec old slots retired namesGrew sourceNames d c
    · rw [same]
      exact h i (allocated ▸ inside)
    · rw [made]
      by_cases new : i = d.allocated
      · subst new
        rw [Function.update_self, newSlot_address]
      · rw [Function.update_of_ne new]
        exact h i (by omega)

namespace Shared

theorem Addressed.congr {shared shared' : Shared m} (h : shared.Addressed) (allocated : shared'.allocated = shared.allocated)
    (slots : ∀ i, (shared'.slots i).queue.address = (shared.slots i).queue.address) : shared'.Addressed :=
  fun i inside => (slots i).trans (h i (allocated ▸ inside))

theorem new_addressed {cfg : Config} {tokenKeys : Str → Nat} {engine : Shared m} (made : Shared.new cfg tokenKeys = .ok engine) :
    engine.Addressed := by
  obtain ⟨shared, slots, changes, built, -, rfl, -⟩ := Shared.new_eq_ok made
  obtain ⟨planned, -, -, -, namesGrew, d, hd, -, slotsEq, allocated, -⟩ := Plan.build_eq_ok built
  have keeps := keeps_commit shared none changes
  refine Addressed.congr (?_ : shared.Addressed) keeps.allocated fun i => (keeps.slots i).address
  unfold Addressed
  rw [slotsEq, allocated, hd]
  exact Plan.foldl_addressed _ fun i inside => absurd inside (Nat.not_lt_zero i)

theorem apply_addressed {shared : Shared m} (h : shared.Addressed) (new : Config) : (shared.control (.apply new)).Addressed := by
  rcases shared.apply_cases new with ⟨error, applied⟩ | ⟨state, changes, slots, allocated, built, applied⟩ <;>
    simp only [control, applied]
  · exact h
  · obtain ⟨planned, -, -, -, namesGrew, d, hd, -, rfl, rfl, -⟩ := Plan.build_eq_ok built
    have keeps := keeps_commit { shared with slots := d.slots, allocated := d.allocated, tables := shared.tables + 1 } (some state) changes
    have drafted : { shared with slots := d.slots, allocated := d.allocated, tables := shared.tables + 1 }.Addressed := by
      rw [hd]
      exact Plan.foldl_addressed _ h
    exact drafted.congr keeps.allocated fun i => (keeps.slots i).address

end Shared

theorem System.control_addressed {sys : System m} (h : sys.world.shared.Addressed) (control : Control) :
    (sys.control control).world.shared.Addressed := by
  cases control with
  | apply new => exact Shared.apply_addressed h new
  | setRuntimeEndpoint consumer source token endpoint =>
    simp only [System.control, Shared.control]
    rcases sys.world.shared.setRuntimeEndpoint_cases consumer source token endpoint with
      same | ⟨target, -, -, -, -, same⟩ <;> rw [same]
    · exact h
    · exact h.congr rfl (sys.world.shared.modify_field (·.queue.address) rfl)
  | setUsername source username =>
    simp only [System.control, Shared.control, Shared.setUsername]
    split
    · exact h
    · split
      · exact h
      · split <;> exact h
  | retire slot drain =>
    simp only [System.control]
    split
    · split
      · exact h
      · rename_i closed hc
        obtain ⟨-, -, rfl⟩ := Shared.close_eq_some hc
        have erased : Shared.Addressed { sys.world.shared with
            tasks := sys.world.shared.tasks.erase (slot, drain), retired := sys.world.shared.retired.erase slot } := h
        exact erased.congr rfl (Shared.modify_field _ (·.queue.address) (f := fun s => { s with drain := none, closed := true }) rfl)
    · exact h

/-! ### What an admission has on its last try -/

/-- What holds of an admission: its permits are of the queues of their targets, and only for want of room it is refused. -/
def Pc.Fit : Pc m → Prop
  | .load | .done _ => True
  | .route state => (state.targets.map (·.slot)).Nodup
  | .visit _ permits | .reserve _ _ permits | .reserving _ _ _ permits | .commit permits | .committed _ permits =>
    ∀ held ∈ permits, held.2.reservations = held.1.slot
  | .cancel _ answer => ∀ outcome ∈ answer, outcome = .backpressure

theorem Admission.step_fit (a : Admission m) (clock : Instant) {world : World m} (sound : world.shared.Sound)
    (addressed : world.shared.Addressed) (known : ∀ t ∈ a.pc.targets, t.slot < world.shared.allocated) (h : a.pc.Fit) :
    (a.step clock world).1.pc.Fit := by
  cases hpc : a.pc with
  | load =>
    simp only [step, hpc]
    exact Instances.slots_nodup sound.instances
  | route state =>
    simp only [step, hpc]
    split
    · trivial
    · exact List.forall_mem_nil _
  | visit left permits =>
    rw [hpc] at h
    cases left <;> simp only [step, hpc]
    · exact h
    · split
      · exact fun outcome absent => by cases absent
      · exact h
  | reserve target left permits =>
    rw [hpc] at h
    simp only [step, hpc]
    exact h
  | reserving items target left permits =>
    rw [hpc] at h known
    simp only [step, hpc]
    rcases LeaseQueue.tryReserveSeeing_cases (sound.exact target.slot) (items, (world.slots target.slot).queue.reservations.bytes)
        a.update.size with ⟨full, tried, -⟩ | ⟨n, inner, tried, -⟩
    · change (world.slots target.slot).queue.tryReserveSeeing _ _ = _ at tried
      rw [tried]
      cases full <;> cases target.onFull <;> first | exact h | exact fun outcome given => (Option.some.inj given).symm
    · change (world.slots target.slot).queue.tryReserveSeeing _ _ = _ at tried
      rw [tried]
      refine List.forall_mem_append.mpr ⟨h, List.forall_mem_singleton.mpr ?_⟩
      exact addressed _ (known target List.mem_cons_self)
  | cancel permits answer =>
    rw [hpc] at h
    rcases permits with _ | ⟨held, permits⟩ <;> rcases answer with _ | outcome <;> simp only [step, hpc]
    · split <;> trivial
    · trivial
    · exact h
    · exact h
  | commit permits =>
    rw [hpc] at h
    rcases permits with _ | ⟨held, permits⟩ <;> simp only [step, hpc]
    · trivial
    · split <;> exact fun held mem => h held (List.mem_cons_of_mem _ mem)
  | committed target permits =>
    rw [hpc] at h
    simp only [step, hpc]
    split <;> exact h
  | done outcome =>
    simp only [step, hpc]
    trivial

/-- What the system keeps besides. -/
structure System.Fit (sys : System m) : Prop where
  addressed : sys.world.shared.Addressed
  admissions : ∀ a ∈ sys.admissions, a.pc.Fit

namespace System

theorem new_fit {cfg : Config} {tokenKeys : Str → Nat} {engine : Shared m} (made : Shared.new cfg tokenKeys = .ok engine) :
    (new engine).Fit := ⟨Shared.new_addressed made, List.forall_mem_nil _⟩

theorem act_fit {sys : System m} (sound : sys.Sound) (h : sys.Fit) (action : Action) : (sys.act action).Fit := by
  have modify {slot : Nat} {f : Slot → Slot} (same : (f (sys.slots slot)).queue.address = (sys.slots slot).queue.address) :
      (sys.world.modify slot f).shared.Addressed :=
    h.addressed.congr rfl (sys.world.shared.modify_field (·.queue.address) same)
  cases action with
  | begin update => exact ⟨h.addressed, List.forall_mem_append.mpr ⟨h.admissions, List.forall_mem_singleton.mpr trivial⟩⟩
  | step j clock =>
    simp only [act]
    cases found : sys.admissions[j]? with
    | none => exact h
    | some a =>
      have mem := List.mem_of_getElem? found
      have known := sound.known a mem
      obtain ⟨slots, same⟩ := a.step_shared clock sys.world
      have effect := a.step_effect clock sound.shared.exact
      refine ⟨h.addressed.congr (by rw [same]) fun i => (effect i).address, fun a' mem' => ?_⟩
      rcases List.mem_or_eq_of_mem_set mem' with mem' | rfl
      · exact h.admissions a' mem'
      · exact a.step_fit clock sound.shared h.addressed known (h.admissions a mem)
  | control control =>
    refine ⟨control_addressed h.addressed control, ?_⟩
    simp only [act, (control_leaves sound.shared control).1]
    exact h.admissions
  | drain slot =>
    simp only [act]
    split
    · exact ⟨modify rfl, h.admissions⟩
    · exact h
  | consume slot op =>
    simp only [act]
    split
    · refine ⟨modify ?_, h.admissions⟩
      rcases Slot.consume_cases (s := sys.slots slot) (sound.shared.exact slot) op with same | ⟨-, queue, consumed, same⟩ <;> rw [same]
      split <;> exact consumed.address
    · exact h

theorem step_fit {sys : System m} (sound : sys.Sound) (h : sys.Fit) (action : Action) : (sys.step action).Fit :=
  ⟨(act_fit sound h action).addressed, (act_fit sound h action).admissions⟩

end System

/-! ### What steps deal -/

/-- What comes of an update at a slot. -/
inductive Dealt where
  | queued (envelope : Envelope)
  | dropped (reason : ConsumerDropReason)

/-- What is dealt to a slot by a step that makes `s'` of it and drops `skips` updates for want of room. -/
def Slot.dealt (skips : Nat) (s s' : Slot) : List Dealt :=
  (s'.queue.inner.entries[s.queue.inner.nextSeq]?.map fun e => Dealt.queued e.item).toList ++
    (List.replicate skips (.dropped .overflow) ++ List.replicate (s'.dropped .oversized - s.dropped .oversized) (.dropped .oversized))

/-- An admission deals its update, or a drop for which it does not count another. -/
def Dealt.Of (update : Update) (now : Instant) : Dealt → Prop
  | .queued envelope => envelope = update.envelope now
  | .dropped reason => reason = .oversized ∨ reason = .overflow

/-- The slots that are still to be dealt an update on the last try to admit it. -/
def Pc.pending : Pc m → Option (List Nat)
  | .visit left permits => some (left.map (·.slot) ++ permits.map (·.1.slot))
  | .reserve target left permits | .reserving _ target left permits =>
    some (target.slot :: (left.map (·.slot) ++ permits.map (·.1.slot)))
  | .commit permits | .committed _ permits => some (permits.map (·.1.slot))
  | .done .admitted => some []
  | _ => none

namespace Slot
variable {s s' : Slot}

/-- Where no update is added and none is too large, the skips are dealt. -/
theorem dealt_skips (exact : Exact s.queue.inner) (entries : ∀ (seq : Nat) e', s'.queue.inner.entries[seq]? = some e' →
    ∃ e, s.queue.inner.entries[seq]? = some e) (dropped : s'.dropped .oversized = s.dropped .oversized) (skips : Nat) :
    s.dealt skips s' = List.replicate skips (.dropped .overflow) := by
  have none : s'.queue.inner.entries[s.queue.inner.nextSeq]? = none := by
    cases found : s'.queue.inner.entries[s.queue.inner.nextSeq]? with
    | none => rfl
    | some e' =>
      obtain ⟨e, taken⟩ := entries _ e' found
      rw [fresh_none exact] at taken
      cases taken
  rw [dealt, none, dropped, Nat.sub_self]
  exact List.append_nil _

theorem dealt_same (exact : Exact s.queue.inner) : s.dealt 0 s = [] := dealt_skips exact (fun _ e he => ⟨e, he⟩) rfl 0

theorem overflowed_oversized (s : Slot) (n : Nat) : (s.overflowed n).dropped .oversized = s.dropped .oversized :=
  count_of_ne (by simp : ConsumerDropReason.oversized ≠ .overflow) s n

theorem dealt_oversized (exact : Exact s.queue.inner) : s.dealt 0 (s.count .oversized 1) = [.dropped .oversized] := by
  have none : (s.count .oversized 1).queue.inner.entries[s.queue.inner.nextSeq]? = none := fresh_none exact
  rw [dealt, none, count_self, Nat.add_sub_cancel_left]
  rfl

theorem dealt_skipped (exact : Exact s.queue.inner) : s.dealt 1 (s.overflowed 1) = [.dropped .overflow] :=
  dealt_skips exact (fun _ e he => ⟨e, he⟩) (overflowed_oversized s 1) 1

/-- The entries that go for room are not dealt. -/
theorem dealt_reserved (exact : Exact s.queue.inner) {seqs : List Nat} {inner : Inner Envelope} (removed : Removed s.queue.inner seqs inner)
    (reservations : Reservations) (n : Nat) :
    s.dealt 0 (Slot.overflowed { s with queue := { s.queue with inner, reservations } } n) = [] := by
  refine dealt_skips exact (fun seq e he => ⟨e, ?_⟩)
    (overflowed_oversized { s with queue := { s.queue with inner, reservations } } n) 0
  change inner.entries[seq]? = some e at he
  rw [removed.entries] at he
  split at he
  · cases he
  · exact he

theorem dealt_drained (exact : Exact s.queue.inner) : s.dealt 0 s.drainLate = [] := by
  have empty : s.drainLate.queue.inner.entries = ∅ := rfl
  have dropped : s.drainLate.dropped .oversized = s.dropped .oversized :=
    count_of_ne (by simp : ConsumerDropReason.oversized ≠ .reload) ..
  refine dealt_skips exact (fun seq e he => ?_) dropped 0
  simp [empty] at he

theorem dealt_committed (queue : LeaseQueue Envelope) {entry : Entry Envelope} {item : Envelope}
    (entries : queue.inner.entries = s.queue.inner.entries.insert s.queue.inner.nextSeq entry) (of : entry.item = item) :
    s.dealt 0 { s with queue } = [.queued item] := by
  rw [dealt, entries, Std.ExtTreeMap.getElem?_insert_self, Nat.sub_self, ← of]
  rfl

end Slot

/-- A step that changes one slot deals to it only. -/
theorem World.dealt_modify {world : World m} (exact : ∀ i, Exact (world.slots i).queue.inner) (slot : Nat) (f : Slot → Slot) (skips i : Nat) :
    (world.slots i).dealt (if i = slot then skips else 0) ((world.modify slot f).slots i) =
      if i = slot then (world.slots slot).dealt skips (f (world.slots slot)) else [] := by
  rw [modify_slots]
  by_cases here : i = slot
  · subst here
    rw [Function.update_self, if_pos rfl, if_pos rfl]
  · rw [Function.update_of_ne here, if_neg here, if_neg here]
    exact Slot.dealt_same (exact i)

theorem World.dealt_modify_zero {world : World m} (exact : ∀ i, Exact (world.slots i).queue.inner) (slot : Nat) (f : Slot → Slot)
    (i : Nat) : (world.slots i).dealt 0 ((world.modify slot f).slots i) =
      if i = slot then (world.slots slot).dealt 0 (f (world.slots slot)) else [] := by
  rw [← dealt_modify exact, ite_self]

/-- What a step of an admission deals to the slots. -/
def Admission.deals (a : Admission m) (clock : Instant) (world : World m) (i : Nat) : List Dealt :=
  (world.slots i).dealt (a.skips world i) ((a.step clock world).2.slots i)

/-- On its last try an admission deals its update to one of the slots that are pending, or to none. -/
theorem Admission.step_deals (a : Admission m) (clock : Instant) {world : World m} (exact : ∀ i, Exact (world.slots i).queue.inner)
    (addressed : world.shared.Addressed) (known : ∀ t ∈ a.pc.targets, t.slot < world.shared.allocated) (fit : a.pc.Fit)
    {pending pending' : List Nat} (before : a.pc.pending = some pending) (after : (a.step clock world).1.pc.pending = some pending') :
    (a.step clock world).1.now = a.now ∧
      (pending.Perm pending' ∧ (∀ i, a.deals clock world i = []) ∨
        ∃ slot dealt, pending.Perm (slot :: pending') ∧ dealt.Of a.update a.now ∧
          ∀ i, a.deals clock world i = if i = slot then [dealt] else []) := by
  have same (i : Nat) : (world.slots i).dealt 0 (world.slots i) = [] := Slot.dealt_same (exact i)
  unfold deals
  cases hpc : a.pc with
  | load | route | cancel =>
    rw [hpc] at before
    cases before
  | visit left permits =>
    rw [hpc] at before
    cases left with
    | nil =>
      simp only [step, skips, hpc, Pc.pending, Option.some.injEq, List.map_nil, List.nil_append] at before after ⊢
      subst before after
      exact ⟨trivial, .inl ⟨.refl _, same⟩⟩
    | cons target left =>
      simp only [step, skips, hpc] at after ⊢
      by_cases closed : (world.slots target.slot).closed
      · rw [if_pos closed] at after
        cases after
      · rw [if_neg closed] at after ⊢
        obtain rfl := Option.some.inj (before.symm.trans after)
        exact ⟨rfl, .inl ⟨.refl _, same⟩⟩
  | reserve target left permits =>
    rw [hpc] at before
    simp only [step, skips, hpc] at after ⊢
    obtain rfl := Option.some.inj (before.symm.trans after)
    exact ⟨trivial, .inl ⟨.refl _, same⟩⟩
  | reserving items target left permits =>
    rw [hpc] at before
    obtain rfl := Option.some.inj before
    simp only [step, skips, hpc] at after ⊢
    rcases LeaseQueue.tryReserveSeeing_cases (exact target.slot) (items, (world.slots target.slot).queue.reservations.bytes)
        a.update.size with ⟨full, tried, -⟩ | ⟨n, inner, tried, -, le, removed, -⟩ <;>
      change (world.slots target.slot).queue.tryReserveSeeing _ _ = _ at tried <;> rw [tried] at after ⊢
    · cases full with
      | tooLarge =>
        obtain rfl := Option.some.inj after
        exact ⟨rfl, .inr ⟨target.slot, .dropped .oversized, .refl _, .inl rfl, fun i =>
          (World.dealt_modify_zero exact ..).trans (if_congr .rfl (Slot.dealt_oversized (exact _)) rfl)⟩⟩
      | items | bytes =>
        cases full : target.onFull with
        | backpressure =>
          rw [full] at after
          cases after
        | dropOldest =>
          rw [full] at after
          obtain rfl := Option.some.inj after
          exact ⟨rfl, .inr ⟨target.slot, .dropped .overflow, .refl _, .inr rfl, fun i =>
            (World.dealt_modify exact ..).trans (if_congr .rfl (Slot.dealt_skipped (exact _)) rfl)⟩⟩
    · obtain rfl := Option.some.inj after
      refine ⟨rfl, .inl ⟨?_, fun i => (World.dealt_modify_zero exact ..).trans ?_⟩⟩
      · rw [List.map_append, ← List.append_assoc]
        exact (List.perm_append_singleton _ _).symm
      · exact (if_congr .rfl (Slot.dealt_reserved (exact _) removed _ n) rfl).trans (ite_self _)
  | commit permits =>
    rw [hpc] at before fit known
    obtain rfl := Option.some.inj before
    rcases permits with _ | ⟨⟨target, permit⟩, permits⟩
    · simp only [step, skips, hpc] at after ⊢
      obtain rfl := Option.some.inj after
      exact ⟨trivial, .inl ⟨.refl _, same⟩⟩
    · have own : permit.reservations = (world.slots target.slot).queue.address :=
        (fit _ List.mem_cons_self).trans (addressed _ (known _ List.mem_cons_self)).symm
      obtain ⟨inner, commit, exact', entries, -⟩ := LeaseQueue.commit_own (exact target.slot) own
        (a.update.envelope a.now) a.update.facts.orderingKey a.update.updateId
      simp only [step, skips, hpc, commit, if_neg (not_not_intro own)] at after ⊢
      obtain rfl := Option.some.inj after
      exact ⟨trivial, .inr ⟨target.slot, .queued (a.update.envelope a.now), .refl _, rfl, fun i =>
        (World.dealt_modify_zero exact ..).trans (if_congr .rfl (Slot.dealt_committed _ entries rfl) rfl)⟩⟩
  | committed target permits =>
    rw [hpc] at before
    simp only [step, skips, hpc] at after ⊢
    split
    · rename_i closed
      rw [if_pos closed] at after
      obtain rfl := Option.some.inj (before.symm.trans after)
      exact ⟨rfl, .inl ⟨.refl _, fun i => (World.dealt_modify_zero exact ..).trans
        ((if_congr .rfl (Slot.dealt_drained (exact _)) rfl).trans (ite_self _))⟩⟩
    · rename_i open'
      rw [if_neg open'] at after
      obtain rfl := Option.some.inj (before.symm.trans after)
      exact ⟨rfl, .inl ⟨.refl _, same⟩⟩
  | done outcome =>
    rw [hpc] at before
    simp only [step, skips, hpc] at after ⊢
    obtain rfl := Option.some.inj (before.symm.trans after)
    exact ⟨trivial, .inl ⟨.refl _, same⟩⟩

/-- A try begins where the update is routed. -/
theorem Admission.step_begins (a : Admission m) (clock : Instant) {world : World m} (fit : a.pc.Fit) (was : a.pc.pending = none)
    {pending : List Nat} (last : (a.step clock world).1.pc.pending = some pending) :
    ∃ state rule ids, a.pc = .route state ∧ (world.route state a.update).1 = (some rule, ids) ∧ (a.step clock world).1.now = clock ∧
      pending = (visits state.targets ids).map (·.slot) ∧ pending.Nodup := by
  cases hpc : a.pc with
  | load =>
    simp only [step, hpc] at last
    cases last
  | route state =>
    rw [hpc] at fit
    have nodup := world.route_nodup state a.update
    simp only [step, hpc] at last ⊢
    generalize routed : world.route state a.update = result at last nodup ⊢
    obtain ⟨⟨matched, ids⟩, after⟩ := result
    cases matched with
    | none => cases last
    | some rule =>
      have all : pending = (visits state.targets ids).map (·.slot) := (Option.some.inj last).symm.trans (List.append_nil _)
      exact ⟨state, rule, ids, rfl, by rw [routed], rfl, all, all ▸ visits_nodup fit nodup⟩
  | cancel permits answer =>
    rw [hpc] at fit
    rcases permits with _ | ⟨held, permits⟩ <;> rcases answer with _ | outcome <;> simp only [step, hpc] at last
    · split at last <;> cases last
    · obtain rfl := fit outcome rfl
      cases last
    · cases last
    · cases last
  | done outcome =>
    simp only [step, hpc] at last
    rw [hpc, last] at was
    cases was
  | visit | reserve | reserving | commit | committed =>
    rw [hpc] at was
    cases was

/-! ### Over a run -/

namespace System

/-- What the admission `k` deals to the slot `i` in a run. -/
def dealt (k i : Nat) : System m → List Action → List Dealt
  | _, [] => []
  | sys, action :: actions =>
    (match action with
      | .step j clock => if j = k then ((sys.admissions[j]?).map fun a => a.deals clock sys.world i).getD [] else []
      | _ => []) ++ dealt k i (sys.step action) actions

theorem dealt_append (k i : Nat) (sys : System m) (actions actions' : List Action) :
    sys.dealt k i (actions ++ actions') = sys.dealt k i actions ++ (sys.run actions).dealt k i actions' := by
  induction actions generalizing sys with
  | nil => rfl
  | cons action actions ih =>
    simp only [List.cons_append, dealt, ih, List.append_assoc]
    rfl

/-- What an action leaves of an admission, unless it is its step. -/
theorem act_admission {sys : System m} (sound : sys.Sound) {k : Nat} (action : Action) {a' : Admission m}
    (after : (sys.act action).admissions[k]? = some a') :
    sys.admissions[k]? = some a' ∧ (∀ i, sys.dealt k i [action] = []) ∨
      (∃ update, a' = .start update) ∨
      ∃ clock a, action = .step k clock ∧ sys.admissions[k]? = some a ∧ a' = (a.step clock sys.world).1 ∧
        ∀ i, sys.dealt k i [action] = a.deals clock sys.world i := by
  cases action with
  | begin update =>
    simp only [act] at after
    by_cases old : k < sys.admissions.length
    · rw [List.getElem?_append_left old] at after
      exact .inl ⟨after, fun _ => rfl⟩
    · rw [List.getElem?_append_right (Nat.le_of_not_lt old), List.getElem?_singleton] at after
      split at after
      · exact .inr (.inl ⟨update, (Option.some.inj after).symm⟩)
      · cases after
  | step j clock =>
    by_cases here : j = k
    · subst here
      simp only [act] at after
      cases found : sys.admissions[j]? with
      | none =>
        rw [found] at after
        simp only [found] at after
        cases after
      | some a =>
        simp only [found] at after
        rw [List.getElem?_set_self (List.getElem?_eq_some_iff.mp found).1] at after
        refine .inr (.inr ⟨clock, a, rfl, rfl, (Option.some.inj after).symm, fun i => ?_⟩)
        simp [dealt, found]
    · simp only [act] at after
      refine .inl ⟨?_, fun i => ?_⟩
      · cases found : sys.admissions[j]? with
        | none =>
          simp only [found] at after
          exact after
        | some a =>
          simp only [found] at after
          rwa [List.getElem?_set_ne here] at after
      · rw [dealt, if_neg here]
        rfl
  | control control =>
    simp only [act, (control_leaves sound.shared control).1] at after
    exact .inl ⟨after, fun _ => rfl⟩
  | drain slot =>
    simp only [act] at after
    split at after <;> exact .inl ⟨after, fun _ => rfl⟩
  | consume slot op =>
    simp only [act] at after
    split at after <;> exact .inl ⟨after, fun _ => rfl⟩

/-- The last try of the admission `k`, begun on `sys` with the targets of `tried`: what is not `pending` was dealt the update once. -/
structure Tried (sys : System m) (k : Nat) (a : Admission m) (actions : List Action) (tried pending : List Nat) : Prop where
  nodup : pending.Nodup
  subset : pending ⊆ tried
  dealt : ∀ slot ∈ tried, slot ∉ pending → ∃ dealt, sys.dealt k slot actions = [dealt] ∧ dealt.Of a.update a.now
  rest : ∀ slot, slot ∉ tried ∨ slot ∈ pending → sys.dealt k slot actions = []

theorem Tried.step {sys : System m} {k : Nat} {a a' : Admission m} {actions : List Action} {tried pending pending' : List Nat}
    (h : sys.Tried k a actions tried pending) {deals : Nat → List Dealt} {action : Action}
    (deal : ∀ i, (sys.run actions).dealt k i [action] = deals i) (update : a'.update = a.update) (now : a'.now = a.now)
    (to' : (pending.Perm pending' ∧ ∀ i, deals i = []) ∨ ∃ slot dealt, pending.Perm (slot :: pending') ∧ dealt.Of a.update a.now ∧
      ∀ i, deals i = if i = slot then [dealt] else []) : sys.Tried k a' (actions ++ [action]) tried pending' := by
  rcases to' with ⟨perm, none⟩ | ⟨slot, given, perm, of, one⟩
  · refine ⟨perm.nodup h.nodup, fun i mem => h.subset (perm.mem_iff.mpr mem), fun i mem gone => ?_, fun i rest => ?_⟩
    · rw [dealt_append, deal, none, List.append_nil, update, now]
      exact h.dealt i mem (mt perm.mem_iff.mp gone)
    · rw [dealt_append, deal, none, List.append_nil]
      exact h.rest i (rest.imp_right perm.mem_iff.mpr)
  · have apart := perm.nodup h.nodup
    rw [List.nodup_cons] at apart
    have inside : slot ∈ pending := perm.mem_iff.mpr List.mem_cons_self
    refine ⟨apart.2, fun i mem => h.subset (perm.mem_iff.mpr (List.mem_cons_of_mem _ mem)), fun i mem gone => ?_, fun i rest => ?_⟩ <;>
      rw [dealt_append, deal, one]
    · by_cases here : i = slot
      · subst here
        rw [h.rest i (.inr inside), if_pos rfl, update, now]
        exact ⟨given, rfl, of⟩
      · rw [if_neg here, List.append_nil, update, now]
        refine h.dealt i mem fun still => gone ?_
        exact (List.mem_cons.mp (perm.mem_iff.mp still)).resolve_left here
    · have ne : i ≠ slot := by
        rintro rfl
        rcases rest with out | pends
        · exact out (h.subset inside)
        · exact apart.1 pends
      rw [if_neg ne, List.append_nil]
      exact h.rest i (rest.imp_right fun mem => perm.mem_iff.mpr (List.mem_cons_of_mem _ mem))

/-- The last try of the admission `k` in a run: where it was routed, and what was dealt from then on. -/
def Trying (origin : System m) (actions : List Action) (k : Nat) (a : Admission m) (pending : List Nat) : Prop :=
  ∃ earlier clock later state rule ids before, actions = earlier ++ .step k clock :: later ∧
    (origin.run earlier).admissions[k]? = some before ∧ before.pc = .route state ∧ before.update = a.update ∧
    ((origin.run earlier).world.route state a.update).1 = (some rule, ids) ∧ a.now = clock ∧
    ((visits state.targets ids).map (·.slot)).Nodup ∧
    ((origin.run earlier).step (.step k clock)).Tried k a later ((visits state.targets ids).map (·.slot)) pending

theorem Trying.more {origin : System m} {actions : List Action} {k : Nat} {a a' : Admission m} {pending pending' : List Nat}
    (h : Trying origin actions k a pending) {deals : Nat → List Dealt} {action : Action}
    (deal : ∀ i, (origin.run actions).dealt k i [action] = deals i) (update : a'.update = a.update) (now : a'.now = a.now)
    (to' : (pending.Perm pending' ∧ ∀ i, deals i = []) ∨ ∃ slot dealt, pending.Perm (slot :: pending') ∧ dealt.Of a.update a.now ∧
      ∀ i, deals i = if i = slot then [dealt] else []) : Trying origin (actions ++ [action]) k a' pending' := by
  obtain ⟨earlier, clock, later, state, rule, ids, before, rfl, found, routed, of, matched, same, nodup, tried⟩ := h
  refine ⟨earlier, clock, later ++ [action], state, rule, ids, before, by simp, found, routed, of.trans update.symm, update ▸ matched,
    now.trans same, nodup, tried.step (fun i => ?_) update now to'⟩
  rw [← deal, run_append]
  rfl

/-- An admission on its last try has dealt its update to every target that is not pending. -/
theorem run_trying {cfg : Config} {tokenKeys : Str → Nat} {engine : Shared m} (made : Shared.new cfg tokenKeys = .ok engine)
    (actions : List Action) {k : Nat} {a : Admission m} (found : ((new engine).run actions).admissions[k]? = some a)
    {pending : List Nat} (last : a.pc.pending = some pending) : Trying (new engine) actions k a pending := by
  induction actions using List.reverseRecOn generalizing a pending with
  | nil => cases found
  | append_singleton actions action ih =>
    obtain ⟨sound, fit⟩ := run_induction (sound_new made) (new_fit made) (fun _ action sound fit => step_fit sound fit action) actions
    rw [run_append] at found
    rcases act_admission sound action found with ⟨old, none⟩ | ⟨update, rfl⟩ | ⟨clock, before, rfl, old, rfl, deals⟩
    · exact (ih old last).more none rfl rfl (.inl ⟨.refl _, fun _ => rfl⟩)
    · cases last
    · have mem := List.mem_of_getElem? old
      have known := sound.known before mem
      have fits := fit.admissions before mem
      cases was : before.pc.pending with
      | some pending =>
        obtain ⟨now, dealt⟩ := before.step_deals clock sound.shared.exact fit.addressed known fits was last
        exact (ih old was).more deals (before.step_update ..) now dealt
      | none =>
        obtain ⟨state, rule, ids, routed, matched, now, rfl, nodup⟩ := before.step_begins clock fits was last
        have update := before.step_update clock ((new engine).run actions).world
        exact ⟨actions, clock, [], state, rule, ids, before, rfl, old, routed, update.symm, update ▸ matched, now, nodup, nodup,
          fun _ mem => mem, fun _ mem gone => absurd mem gone, fun _ _ => rfl⟩

theorem arrived_grows (sys : System m) (actions : List Action) (i : Nat) :
    (sys.traces i).arrived <+: ((sys.run actions).traces i).arrived := by
  induction actions generalizing sys with
  | nil => exact List.prefix_rfl
  | cons action actions ih => exact (List.prefix_append ..).trans (ih (sys.step action))

/-- What was queued is noted as arrived. -/
theorem arrived_of_dealt {k i : Nat} {envelope : Envelope} (sys : System m) (actions : List Action)
    (queued : .queued envelope ∈ sys.dealt k i actions) : envelope ∈ ((sys.run actions).traces i).arrived := by
  induction actions generalizing sys with
  | nil => cases queued
  | cons action actions ih =>
    unfold dealt at queued
    rcases List.mem_append.mp queued with now | later
    · refine (arrived_grows (sys.step action) actions i).subset ?_
      cases action with
      | step j clock =>
        dsimp only at now
        split at now
        · subst j
          cases found : sys.admissions[k]? with
          | none =>
            rw [found] at now
            cases now
          | some a =>
            have same : ((sys.act (.step k clock)).slots i) = (a.step clock sys.world).2.slots i := by
              simp only [act, found]
              rfl
            rw [found] at now
            change Dealt.queued envelope ∈ Slot.dealt .. at now
            simp only [Slot.dealt, List.mem_append, List.mem_replicate, reduceCtorEq, and_false, or_false, Option.mem_toList,
              Option.map_eq_some_iff, Dealt.queued.injEq] at now
            obtain ⟨e, here, rfl⟩ := now
            refine List.mem_append_right _ ?_
            rw [same]
            simp only [Option.mem_toList, Option.map_eq_some_iff]
            exact ⟨e, here, rfl⟩
        · cases now
      | begin | control | drain | consume => cases now
    · exact ih (sys.step action) later

end System

/-- What an admission answers, once it is done. -/
def System.outcome (sys : System m) (k : Nat) : Option Admit :=
  (sys.admissions[k]?).bind fun a =>
    match a.pc with
    | .done outcome => some outcome
    | _ => none

theorem System.outcome_eq_some {sys : System m} {k : Nat} {outcome : Admit} :
    sys.outcome k = some outcome ↔ ∃ a, sys.admissions[k]? = some a ∧ a.pc = .done outcome := by
  unfold System.outcome
  rw [Option.bind_eq_some_iff]
  refine exists_congr fun a => and_congr_right fun _ => ?_
  cases a.pc <;> simp

/-- The update of the admission `k` was routed in the run, to targets with slots of their own; from then on, whatever else went on, each
    of these slots was dealt the update once: it was queued, or counted as dropped for it is too large or finds no room. No other slot
    was dealt any. -/
def System.DealtOnce (origin : System m) (actions : List Action) (k : Nat) (update : Update) : Prop :=
  ∃ earlier clock later state rule ids a, actions = earlier ++ .step k clock :: later ∧
    let sys := origin.run earlier
    sys.admissions[k]? = some a ∧ a.pc = .route state ∧ a.update = update ∧ (sys.world.route state update).1 = (some rule, ids) ∧
    let slots := (visits state.targets ids).map (·.slot)
    slots.Nodup ∧
    (∀ i ∈ slots, ∃ dealt, (sys.step (.step k clock)).dealt k i later = [dealt] ∧
      (dealt = .dropped .oversized ∨ dealt = .dropped .overflow ∨ dealt = .queued (update.envelope clock) ∧
        update.envelope clock ∈ ((origin.run actions).traces i).arrived)) ∧
    ∀ i ∉ slots, (sys.step (.step k clock)).dealt k i later = []

theorem System.dealtOnce_admitted {cfg : Config} {tokenKeys : Str → Nat} {engine : Shared m}
    (made : Shared.new cfg tokenKeys = .ok engine) (actions : List Action) {k : Nat} {a : Admission m}
    (found : ((new engine).run actions).admissions[k]? = some a) (admitted : a.pc = .done .admitted) :
    (new engine).DealtOnce actions k a.update := by
  obtain ⟨earlier, clock, later, state, rule, ids, before, rfl, old, routed, of, matched, now, nodup, tried⟩ :=
    run_trying made actions found (show a.pc.pending = some [] by rw [admitted]; rfl)
  refine ⟨earlier, clock, later, state, rule, ids, before, rfl, old, routed, of, matched, nodup, fun i mem => ?_,
    fun i out => tried.rest i (.inl out)⟩
  obtain ⟨dealt, one, given⟩ := tried.dealt i mem List.not_mem_nil
  refine ⟨dealt, one, ?_⟩
  cases dealt with
  | queued envelope =>
    obtain rfl : envelope = a.update.envelope clock := now ▸ given
    have arrived := arrived_of_dealt _ later (one ▸ List.mem_singleton_self _)
    rw [run_append]
    exact .inr (.inr ⟨rfl, arrived⟩)
  | dropped reason =>
    rcases given with rfl | rfl
    · exact .inl rfl
    · exact .inr (.inl rfl)

/-- What arrived is in its queue or has left it, once. -/
theorem Accounts.arrived_once {s : Slot} {t : Trace} (h : Accounts s t) {seq : Nat} {envelope : Envelope}
    (arrived : t.arrived[seq]? = some envelope) :
    (∃ e, s.queue.inner.entries[seq]? = some e ∧ e.item = envelope ∧ ∀ d ∈ t.left, d.seq ≠ seq) ∨
      s.queue.inner.entries[seq]? = none ∧ (t.left.map (·.seq)).count seq = 1 ∧
        ∃ d ∈ t.left, d.seq = seq ∧ d.entry.item = envelope ∧ d.fate.Apt d.entry := by
  have inside : seq ∈ List.range t.arrived.length := List.mem_range.mpr (List.getElem?_eq_some_iff.mp arrived).1
  have once : (t.left.map (·.seq)).count seq + (seqs s.queue.inner).count seq = 1 := by
    rw [← List.count_append, h.once.count_eq]
    exact List.count_eq_one_of_mem List.nodup_range inside
  cases held : s.queue.inner.entries[seq]? with
  | some e =>
    have stored : 0 < (seqs s.queue.inner).count seq := List.count_pos_iff.mpr (mem_seqs.mpr ⟨e, held⟩)
    have gone : (t.left.map (·.seq)).count seq = 0 := by omega
    refine .inl ⟨e, rfl, Option.some.inj ((h.held seq e held).symm.trans arrived), fun d mem same => ?_⟩
    exact List.count_eq_zero.mp gone (same ▸ List.mem_map_of_mem mem)
  | none =>
    have absent : (seqs s.queue.inner).count seq = 0 := List.count_eq_zero.mpr fun mem => by
      obtain ⟨e, stored⟩ := mem_seqs.mp mem
      rw [held] at stored
      cases stored
    have left : (t.left.map (·.seq)).count seq = 1 := by omega
    obtain ⟨d, mem, rfl⟩ := List.mem_map.mp (List.count_pos_iff.mp (left ▸ Nat.one_pos))
    obtain ⟨was, apt⟩ := h.left d mem
    exact .inr ⟨rfl, left, d, mem, rfl, Option.some.inj (was.symm.trans arrived), apt⟩

/-- Bot `b`'s update gets room at `q`; a reload without `q` drains and closes it before the update is queued. -/
def queuedTooLate : List Action :=
  .begin { source := 1, updateId := 7, payload := [1, 2, 3], facts := default } :: List.replicate 5 (.step 0 0) ++
    [.control (.apply alone), .control (.retire 1 0), .drain 1] ++ List.replicate 4 (.step 0 0)

end Tgin.Engine
