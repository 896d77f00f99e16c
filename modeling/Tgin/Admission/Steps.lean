import Tgin.Admission
import Tgin.Engine.Control
import Tgin.Queue.Reserve

/-! What one step of an admission does to a slot. -/

namespace Tgin.Engine
open Queue Rules

variable {m : Matchers}

/-- How many updates the next step drops for a slot for want of room, without any leaving the queue. -/
def Admission.skips (a : Admission m) (world : World m) (i : Nat) : Nat :=
  match a.pc with
  | .reserving items target _ _ =>
    let queue := (world.slots target.slot).queue
    match (queue.tryReserveSeeing (items, queue.reservations.bytes) a.update.size).1, target.onFull with
    | .ok _, _ => 0
    | .error .tooLarge, _ => 0
    | .error _, .backpressure => 0
    | .error _, .dropOldest => if i = target.slot then 1 else 0
  | .commit ((target, permit) :: _) =>
    if permit.reservations ≠ (world.slots target.slot).queue.address then if i = target.slot then 1 else 0 else 0
  | _ => 0

/-- What becomes of an update that leaves a queue. -/
inductive Fate where
  | acked (holder : HolderId)
  | evicted
  | purged
  | drained
  deriving DecidableEq, Repr

/-- What becomes of the updates that leave a queue with the next step. -/
def Admission.fate (a : Admission m) : Fate :=
  match a.pc with
  | .committed _ _ => .drained
  | _ => .evicted

/-- The admission queues its update to the slot next. -/
def Pc.Commits (slot : Nat) : Pc m → Prop
  | .commit ((target, _) :: _) => target.slot = slot
  | _ => False

/-- What a step of an admission of `update` may do to a slot, which it `commits` to or not, what becomes of the updates
    that leave its queue, and how many updates are skipped for it. -/
inductive Slot.Effect (update : Update) (now : Instant) (commits : Prop) (s : Slot) : Fate → Nat → Slot → Prop where
  | same {fate : Fate} : Effect update now commits s fate 0 s
  /-- Room is reserved, for which the `n` oldest unleased entries go, counted as dropped for overflow. -/
  | reserved {n : Nat} {inner : Inner Envelope} (reservations : Reservations)
    (removed : Removed s.queue.inner (s.queue.inner.available.toList.take n) inner)
    (le : n ≤ s.queue.inner.available.toList.length) :
    Effect update now commits s .evicted 0 (Slot.overflowed { s with queue := { s.queue with inner, reservations } } n)
  /-- The update is too large for the slot. -/
  | oversized {fate : Fate} : Effect update now commits s fate 0 (s.count .oversized 1)
  /-- The update finds no room, or its permit is foreign. -/
  | skipped {fate : Fate} (reservations : Reservations) :
    Effect update now commits s fate 1 (Slot.overflowed { s with queue := { s.queue with reservations } } 1)
  | released {fate : Fate} (permit : Permit) : Effect update now commits s fate 0 (s.dropPermit permit)
  | committed {fate : Fate} (h : commits) {inner : Inner Envelope} (reservations : Reservations) (notified : Nat)
    (exact : Exact inner) (size : Nat) (entries : inner.entries = s.queue.inner.entries.insert s.queue.inner.nextSeq {
      item := update.envelope now, key := update.facts.orderingKey, ackId := update.updateId, size, lease := none })
    (nextSeq : inner.nextSeq = s.queue.inner.nextSeq + 1) (cfg : inner.cfg = s.queue.inner.cfg) :
    Effect update now commits s fate 0 { s with queue := { s.queue with inner, reservations, notified } }
  | drained (closed : s.closed = true) : Effect update now commits s .drained 0 s.drainLate

theorem Slot.Effect.exact {update : Update} {now : Instant} {commits : Prop} {s s' : Slot} {fate : Fate} {skips : Nat}
    (h : s.Effect update now commits fate skips s')
    (exact : Exact s.queue.inner) : Exact s'.queue.inner := by
  cases h with
  | same => exact exact
  | reserved _ removed => exact removed.exact
  | oversized => exact exact
  | skipped _ => exact exact
  | released permit => exact exact
  | committed _ _ _ exact' => exact exact'
  | drained _ => exact LeaseQueue.drainAll_exact _

namespace World
variable {update : Update} {now : Instant} {world : World m}

/-- A step that changes one slot. -/
theorem effect_modify (commits : Nat → Prop) {fate : Fate} {slot skips : Nat} {f : Slot → Slot}
    (h : (world.slots slot).Effect update now (commits slot) fate skips (f (world.slots slot))) (i : Nat) :
    (world.slots i).Effect update now (commits i) fate (if i = slot then skips else 0) ((world.modify slot f).slots i) := by
  rw [modify_slots]
  by_cases hi : i = slot
  · subst hi
    rwa [Function.update_self, if_pos rfl]
  · rw [Function.update_of_ne hi, if_neg hi]
    exact .same

/-- A step that changes one slot and skips no update. -/
theorem effect_modify_zero (commits : Nat → Prop) {fate : Fate} {slot : Nat} {f : Slot → Slot}
    (h : (world.slots slot).Effect update now (commits slot) fate 0 (f (world.slots slot))) (i : Nat) :
    (world.slots i).Effect update now (commits i) fate 0 ((world.modify slot f).slots i) := by
  have effect := effect_modify commits h i
  rwa [ite_self] at effect

theorem modify_field {β : Type} (field : Slot → β) {slot : Nat} {f : Slot → Slot}
    (h : field (f (world.slots slot)) = field (world.slots slot)) (i : Nat) :
    field ((world.modify slot f).slots i) = field (world.slots i) := world.shared.modify_field field h i

end World

theorem Slot.count_self (s : Slot) (reason : ConsumerDropReason) (n : Nat) :
    (s.count reason n).dropped reason = s.dropped reason + n := Function.update_self ..

theorem Slot.count_of_ne {reason reason' : ConsumerDropReason} (h : reason' ≠ reason) (s : Slot) (n : Nat) :
    (s.count reason n).dropped reason' = s.dropped reason' := Function.update_of_ne h ..

theorem Slot.overflowed_zero (s : Slot) : s.overflowed 0 = s := by
  simp [Slot.overflowed, Slot.count]

/-- What asking a queue for room does to its slot. -/
theorem Slot.effect_reserved (update : Update) (now : Instant) (commits : Prop) {s : Slot} (exact : Exact s.queue.inner)
    (reserved : Nat × Nat) (size : Nat) (onFull : OnFull) :
    let tried := s.queue.tryReserveSeeing reserved size
    s.Effect update now commits .evicted (match tried.1, onFull with
      | .ok _, _ => 0
      | .error .tooLarge, _ => 0
      | .error _, .backpressure => 0
      | .error _, .dropOldest => 1) (s.reserved tried onFull) := by
  intro tried
  rcases LeaseQueue.tryReserveSeeing_cases exact reserved size with
    ⟨full, h, -⟩ | ⟨n, inner, h, -, le, removed, -⟩ <;> simp only [tried, h]
  · cases full with
    | tooLarge => exact .oversized
    | items | bytes =>
      cases onFull with
      | backpressure => exact .same
      | dropOldest => exact .skipped s.queue.reservations
  · exact .reserved _ removed le

/-- What a step of an admission does to each slot. -/
theorem Admission.step_effect (a : Admission m) (clock : Instant) {world : World m}
    (exact : ∀ i, Exact (world.slots i).queue.inner) (i : Nat) :
    (world.slots i).Effect a.update a.now (a.pc.Commits i) a.fate (a.skips world i) ((a.step clock world).2.slots i) := by
  cases hpc : a.pc with
  | load => simp only [step, skips, fate, hpc]; exact .same
  | route state =>
    have same : (world.route state a.update).2.slots = world.slots := rfl
    simp only [step, skips, fate, hpc]
    rcases (world.route state a.update).1.1 with _ | index <;> dsimp only <;> rw [same] <;> exact .same
  | visit left permits =>
    cases left <;> simp only [step, skips, fate, hpc]
    · exact .same
    · split <;> exact .same
  | reserve target left permits => simp only [step, skips, fate, hpc]; exact .same
  | reserving items target left permits =>
    have effect := Slot.effect_reserved a.update a.now (a.pc.Commits target.slot) (exact target.slot)
      (items, (world.slots target.slot).queue.reservations.bytes) a.update.size target.onFull
    simp only [step, skips, fate, hpc] at effect ⊢
    generalize (world.slots target.slot).queue.tryReserveSeeing _ _ = tried at effect ⊢
    obtain ⟨answer, queue⟩ := tried
    generalize target.onFull = onFull at effect ⊢
    rcases answer with full | permit
    · cases full <;> cases onFull <;> first | exact World.effect_modify_zero (Pc.Commits · _) effect i | exact World.effect_modify (Pc.Commits · _) effect i
    · exact World.effect_modify_zero (Pc.Commits · _) effect i
  | cancel permits answer =>
    cases permits with
    | nil =>
      cases answer <;> simp only [step, skips, fate, hpc]
      · split <;> exact .same
      · exact .same
    | cons held permits =>
      simp only [step, skips, fate, hpc]
      exact World.effect_modify_zero (Pc.Commits · _) (.released _) i
  | commit permits =>
    cases permits with
    | nil => simp only [step, skips, fate, hpc]; exact .same
    | cons held permits =>
      obtain ⟨target, permit⟩ := held
      simp only [step, skips, fate, hpc]
      by_cases own : permit.reservations = (world.slots target.slot).queue.address
      · obtain ⟨inner, commit, exact', entries, cfg, nextSeq⟩ := LeaseQueue.commit_own (exact target.slot) own
          (a.update.envelope a.now) a.update.facts.orderingKey a.update.updateId
        rw [commit, if_neg (not_not_intro own)]
        exact World.effect_modify_zero (Pc.Commits · _) (.committed rfl _ _ exact' _ entries nextSeq cfg) i
      · have foreign : (world.slots target.slot).queue.commit permit (a.update.envelope a.now) a.update.facts.orderingKey
            a.update.updateId = (.error { permit, item := a.update.envelope a.now }, (world.slots target.slot).queue) :=
          if_pos own
        rw [foreign, if_pos own]
        dsimp only
        rw [World.modify_slots, World.dropPermit, World.modify_slots]
        by_cases hi : i = target.slot
        · subst hi
          rw [Function.update_self, if_pos rfl]
          by_cases hp : target.slot = permit.reservations
          · rw [← hp, Function.update_self]
            exact .skipped _
          · rw [Function.update_of_ne hp]
            exact .skipped _
        · rw [Function.update_of_ne hi, if_neg hi]
          by_cases hp : i = permit.reservations
          · rw [← hp, Function.update_self]
            exact .released _
          · rw [Function.update_of_ne hp]
            exact .same
  | committed target permits =>
    simp only [step, skips, fate, hpc]
    split
    · exact World.effect_modify_zero (Pc.Commits · _) (.drained ‹_›) i
    · exact .same
  | done outcome => simp only [step, skips, fate, hpc]; exact .same

/-- Where a step of an admission of `update` leads, whatever the queues answer. -/
inductive Pc.Next (world : World m) (update : Update) : Pc m → Pc m → Prop where
  | load : Next world update .load (.route world.shared.state)
  | unroutable {state} : Next world update (.route state) (.done .unroutable)
  | routed {state rule ids} (matched : (world.route state update).1 = (some rule, ids)) :
    Next world update (.route state) (.visit (visits state.targets ids) [])
  | visited {permits} : Next world update (.visit [] permits) (.commit permits)
  | closed {target left permits} : Next world update (.visit (target :: left) permits) (.cancel permits none)
  | reserve {target left permits} : Next world update (.visit (target :: left) permits) (.reserve target left permits)
  | reserving {items target left permits} :
    Next world update (.reserve target left permits) (.reserving items target left permits)
  | reserved {items target left permits} (permit : Permit) :
    Next world update (.reserving items target left permits) (.visit left (permits ++ [(target, permit)]))
  | skipped {items target left permits} :
    Next world update (.reserving items target left permits) (.visit left permits)
  | backpressure {items target left permits} :
    Next world update (.reserving items target left permits) (.cancel permits (some .backpressure))
  | dropped {held permits answer} : Next world update (.cancel (held :: permits) answer) (.cancel permits answer)
  | answered {answer outcome} : Next world update (.cancel [] answer) (.done outcome)
  | again : Next world update (.cancel [] none) .load
  | admitted : Next world update (.commit []) (.done .admitted)
  | committed {target permit permits} : Next world update (.commit ((target, permit) :: permits)) (.committed target permits)
  | drained {target permits} : Next world update (.committed target permits) (.commit permits)
  | done {outcome} : Next world update (.done outcome) (.done outcome)

theorem Admission.step_next (a : Admission m) (clock : Instant) (world : World m) :
    Pc.Next world a.update a.pc (a.step clock world).1.pc := by
  cases hpc : a.pc with
  | load =>
    simp only [step, hpc]
    exact .load
  | route state =>
    simp only [step, hpc]
    generalize hroute : world.route state a.update = result
    obtain ⟨⟨_ | rule, ids⟩, world'⟩ := result
    · exact .unroutable
    · exact .routed (congrArg Prod.fst hroute)
  | visit left permits =>
    cases left with
    | nil =>
      simp only [step, hpc]
      exact .visited
    | cons target left =>
      simp only [step, hpc]
      split
      · exact .closed
      · exact .reserve
  | reserve target left permits =>
    simp only [step, hpc]
    exact .reserving
  | reserving items target left permits =>
    simp only [step, hpc]
    split
    · exact .reserved _
    · exact .skipped
    · exact .backpressure
    · exact .skipped
  | cancel permits answer =>
    cases permits with
    | nil =>
      cases answer with
      | none =>
        simp only [step, hpc]
        split
        · exact .answered
        · exact .again
      | some outcome =>
        simp only [step, hpc]
        exact .answered
    | cons held permits =>
      simp only [step, hpc]
      exact .dropped
  | commit permits =>
    cases permits with
    | nil =>
      simp only [step, hpc]
      exact .admitted
    | cons held permits =>
      simp only [step, hpc]
      split <;> exact .committed
  | committed target permits =>
    simp only [step, hpc]
    split <;> exact .drained
  | done outcome =>
    simp only [step, hpc]
    exact .done

theorem Admission.step_update (a : Admission m) (clock : Instant) (world : World m) :
    (a.step clock world).1.update = a.update := by
  cases hpc : a.pc with
  | load | reserve => simp only [step, hpc]
  | done => simp only [step, hpc]
  | route state =>
    simp only [step, hpc]
    split <;> rfl
  | visit left permits =>
    cases left <;> simp only [step, hpc]
    split <;> rfl
  | reserving items target left permits =>
    simp only [step, hpc]
    split <;> rfl
  | cancel permits answer =>
    rcases permits with _ | ⟨held, permits⟩ <;> rcases answer with _ | outcome <;> simp only [step, hpc]
    split <;> rfl
  | commit permits =>
    rcases permits with _ | ⟨held, permits⟩ <;> simp only [step, hpc]
    split <;> rfl
  | committed target permits =>
    simp only [step, hpc]
    split <;> rfl

end Tgin.Engine
