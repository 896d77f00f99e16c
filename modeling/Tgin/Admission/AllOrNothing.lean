import Tgin.Admission.Steps
import Tgin.Engine.Sources

/-! Admission is all or nothing on the queues: a refused update leaves them as they would be without it, an admitted
    one is in each target's queue or counted as dropped for it. -/

namespace Tgin.Engine
open Queue Rules

variable {m : Matchers}

/-- What happens while an update is admitted: the admission takes a step, or a permit of another admission is dropped. -/
inductive Event where
  | step (clock : Instant)
  | drop (slot : Nat) (permit : Permit)

namespace Event

def apply : Event → Admission m × World m → Admission m × World m
  | .step clock, (a, world) => a.step clock world
  | .drop slot permit, (a, world) => (a, world.dropPermit slot permit)

def run (events : List Event) (state : Admission m × World m) : Admission m × World m :=
  events.foldl (fun state event => event.apply state) state

/-- What would happen without the admission. -/
def without (events : List Event) (world : World m) : World m :=
  events.foldl (fun world event => match event with
    | .step _ => world
    | .drop slot permit => world.dropPermit slot permit) world

/-- How many permits of a slot's queue are dropped. -/
def drops (events : List Event) (slot : Nat) : Nat :=
  events.countP fun
    | .step _ => false
    | .drop slot' _ => slot' = slot

end Event

/-- The targets of the routed consumers. -/
def routed (targets : List Target) (ids : List ConsumerId) : List Target := ids.filterMap fun id => targets[id.toNat]?

/-- The queue got the update, once, and counts the entries it evicted for it. -/
structure Received (update : Update) (now : Instant) (s s' : Slot) : Prop where
  queued : ∃ n, (∀ seq : Nat, s'.queue.inner.entries[seq]? =
      if seq = s.queue.inner.nextSeq then some {
        item := update.envelope now, key := update.facts.orderingKey, ackId := update.updateId, size := update.size,
        lease := none }
      else if seq ∈ s.queue.inner.available.toList.take n then none
      else s.queue.inner.entries[seq]?) ∧
    n ≤ s.queue.inner.available.toList.length ∧
    s'.dropped = Function.update s.dropped .overflow (s.dropped .overflow + n)
  nextSeq : s'.queue.inner.nextSeq = s.queue.inner.nextSeq + 1
  reservations : s'.queue.reservations = s.queue.reservations

/-- The update is counted as dropped, once, and the queue is as it was. -/
structure Dropped (s s' : Slot) : Prop where
  queue : s'.queue = s.queue
  counted : ∃ reason ∈ [ConsumerDropReason.oversized, .overflow],
    s'.dropped = Function.update s.dropped reason (s.dropped reason + 1)

theorem Received.not_dropped {update : Update} {now : Instant} {s s' : Slot} (h : Received update now s s') :
    ¬Dropped s s' := by
  intro hd
  have := h.nextSeq
  rw [hd.queue] at this
  exact Nat.ne_of_lt (Nat.lt_succ_self _) this

/-! ### What an admission does to one slot -/

/-- What an admission has done to a slot. -/
inductive Mark where
  | untouched
  /-- Room is reserved; the queue's inner state is now `inner`. -/
  | holds (permit : Permit) (inner : Inner Envelope)
  /-- The update is dropped for the slot. -/
  | counted (reason : ConsumerDropReason)
  /-- The update is queued. -/
  | queued (permit : Permit) (inner : Inner Envelope)

namespace Mark

/-- The slot with the mark, when `s` is the slot without the admission. -/
def apply : Mark → Slot → Slot
  | .untouched, s => s
  | .holds permit inner, s =>
    { s with queue := { s.queue with
        inner, reservations := {
          items := s.queue.reservations.items + 1, bytes := wrappingAdd s.queue.reservations.bytes permit.size } }
      }.overflowed permit.evicted
  | .counted reason, s => s.count reason 1
  | .queued permit inner, s =>
    { s with queue := { s.queue with inner, notified := s.queue.notified + 1 } }.overflowed permit.evicted

def permits : Mark → List Permit
  | .holds permit _ => [permit]
  | .untouched | .counted _ | .queued _ _ => []

/-- What a mark says of the slot without the admission. -/
def Valid (update : Update) (now : Instant) (s : Slot) : Mark → Prop
  | .untouched => True
  | .holds permit inner =>
    permit.reservations = s.queue.address ∧ permit.size = update.size ∧
      permit.evicted ≤ s.queue.inner.available.toList.length ∧
      Removed s.queue.inner (s.queue.inner.available.toList.take permit.evicted) inner ∧
      (s.queue.inner.cfg.onFull = .backpressure → permit.evicted = 0 ∧ inner = s.queue.inner)
  | .counted reason => reason = .oversized ∨ reason = .overflow ∧ s.queue.inner.cfg.onFull = .dropOldest
  | .queued permit inner =>
    permit.evicted ≤ s.queue.inner.available.toList.length ∧
      ∃ before, Removed s.queue.inner (s.queue.inner.available.toList.take permit.evicted) before ∧
        inner.entries = before.entries.insert s.queue.inner.nextSeq {
          item := update.envelope now, key := update.facts.orderingKey, ackId := update.updateId, size := update.size,
          lease := none } ∧
        inner.nextSeq = s.queue.inner.nextSeq + 1

end Mark

theorem wrappingSub_add {bytes : Nat} (h : bytes < wordSize) (size : Nat) :
    wrappingSub (wrappingAdd bytes size) size = bytes := by
  rw [wrappingAdd, wrappingSub_mod, Nat.mod_eq_of_lt h]

/-- Adding and taking out wrap in either order. -/
theorem wrappingAdd_sub (bytes a b : Nat) : wrappingSub (wrappingAdd bytes a) b = wrappingAdd (wrappingSub bytes b) a := by
  simp only [wrappingAdd, wrappingSub, wordSize]
  omega

/-- The admission's marks and other admissions' drops do not see each other, as long as a permit is out. -/
theorem Mark.apply_dropPermit (mark : Mark) {s : Slot} (permit : Permit) (live : 0 < s.queue.reservations.items) :
    (mark.apply s).dropPermit permit = mark.apply (s.dropPermit permit) := by
  cases mark with
  | untouched => rfl
  | holds held inner =>
    have items : s.queue.reservations.items + 1 - 1 = s.queue.reservations.items - 1 + 1 := by omega
    simp only [Mark.apply, Slot.dropPermit, Slot.overflowed, Slot.count, LeaseQueue.dropPermit, Reservations.release,
      wrappingAdd_sub, items]
  | counted reason => rfl
  | queued held inner => rfl

/-- Dropping the permit of a reservation that evicted nothing takes its mark off. -/
theorem Mark.release {s : Slot} (bytes : s.queue.reservations.bytes < wordSize) {permit : Permit} (evicted : permit.evicted = 0) :
    ((Mark.holds permit s.queue.inner).apply s).dropPermit permit = s := by
  simp only [Mark.apply, evicted, Slot.overflowed_zero, Slot.dropPermit, LeaseQueue.dropPermit, Reservations.release,
    wrappingSub_add bytes, Nat.add_sub_cancel]

/-- Committing the update with its permit makes the slot's mark a queued one. -/
theorem Mark.commit {s : Slot} (bytes : s.queue.reservations.bytes < wordSize) {update : Update} {now : Instant}
    {permit : Permit} {inner : Inner Envelope} (valid : (Mark.holds permit inner).Valid update now s) :
    ∃ inner', (Mark.queued permit inner').Valid update now s ∧
      ((Mark.holds permit inner).apply s).queue.commit permit (update.envelope now) update.facts.orderingKey
          update.updateId = (.ok inner.nextSeq, ((Mark.queued permit inner').apply s).queue) := by
  obtain ⟨own, size, le, removed, -⟩ := valid
  obtain ⟨inner', commit, -, entries, -, nextSeq⟩ := LeaseQueue.commit_own
    (q := ((Mark.holds permit inner).apply s).queue) removed.exact own (update.envelope now) update.facts.orderingKey
    update.updateId
  refine ⟨inner', ⟨le, inner, removed, ?_, nextSeq.trans (congrArg (· + 1) removed.nextSeq)⟩, commit.trans ?_⟩
  · rw [entries, ← removed.nextSeq, ← size]
    rfl
  · simp only [Mark.apply, Slot.overflowed, Slot.count, Reservations.release, wrappingSub_add bytes, Nat.add_sub_cancel]

/-! ### Where the marks stand -/

/-- The permits of a slot's queue. -/
def permitsAt (slot : Nat) (permits : List (Target × Permit)) : List Permit :=
  permits.filterMap fun (target, permit) => if target.slot = slot then some permit else none

theorem permitsAt_append (slot : Nat) (permits permits' : List (Target × Permit)) :
    permitsAt slot (permits ++ permits') = permitsAt slot permits ++ permitsAt slot permits' := List.filterMap_append

theorem permitsAt_cons_self (target : Target) (permit : Permit) (permits : List (Target × Permit)) :
    permitsAt target.slot ((target, permit) :: permits) = permit :: permitsAt target.slot permits := by
  simp [permitsAt]

theorem permitsAt_cons_of_ne {slot : Nat} {target : Target} (h : slot ≠ target.slot) (permit : Permit)
    (permits : List (Target × Permit)) : permitsAt slot ((target, permit) :: permits) = permitsAt slot permits := by
  simp [permitsAt, Ne.symm h]

/-- The targets before `left` were visited, and left their marks. -/
structure Visited (targets : List Target) (slot : Nat) (mark : Mark) (left : List Target)
    (permits : List (Target × Permit)) : Prop where
  permits : permitsAt slot permits = mark.permits
  unqueued : ∀ permit inner, mark ≠ .queued permit inner
  visited : ∃ visited, targets = visited ++ left ∧ (mark = .untouched ↔ slot ∉ visited.map (·.slot))

/-- A mark that a refusal takes back, but for an update counted as too large. -/
def Mark.Refused (pass : OnFull) : Mark → Prop
  | .untouched => True
  | .holds _ _ => pass = .backpressure
  | .counted reason => reason = .oversized
  | .queued _ _ => False

/-- The mark of a slot fits where the admission is; `targets` are those it visits, `pass` is what the slot's queue does
    when it is full. -/
def Fits (targets : List Target) (slot : Nat) (pass : OnFull) (mark : Mark) : Pc m → Prop
  | .visit left permits => Visited targets slot mark left permits
  | .reserve target left permits => Visited targets slot mark (target :: left) permits
  | .reserving _ target left permits => Visited targets slot mark (target :: left) permits
  | .cancel permits answer => answer = some .backpressure ∧ permitsAt slot permits = mark.permits ∧ mark.Refused pass
  | .commit permits => permitsAt slot permits = mark.permits ∧ (mark = .untouched ↔ slot ∉ targets.map (·.slot))
  | .committed target permits =>
    target.slot ∈ targets.map (·.slot) ∧ permitsAt slot permits = mark.permits ∧
      (mark = .untouched ↔ slot ∉ targets.map (·.slot))
  | .done .backpressure => mark = .untouched ∨ mark = .counted .oversized
  | .done .admitted => mark.permits = [] ∧ (mark = .untouched ↔ slot ∉ targets.map (·.slot))
  | .done .unroutable => False
  | .load => False
  | .route _ => False

/-- The slots with their marks, when `base` are the slots without the admission. -/
structure Stands (targets : List Target) (update : Update) (now : Instant) (base : Nat → Slot) (a : Admission m)
    (world : World m) : Prop where
  ofUpdate : a.update = update
  at_now : a.now = now
  slots : ∀ i, ∃ mark : Mark, world.slots i = mark.apply (base i) ∧ mark.Valid update now (base i) ∧
    Fits targets i (base i).queue.inner.cfg.onFull mark a.pc

/-- What is assumed of the targets: two passes over distinct slots, none retired, each with a queue that does what
    the target says when it is full. -/
structure Ready (targets : List Target) (base : Nat → Slot) : Prop where
  distinct : (targets.map (·.slot)).Nodup
  passes : targets.Pairwise fun t t' => t.onFull = .dropOldest → t'.onFull = .dropOldest
  current : ∀ t ∈ targets, (base t.slot).closed = false
  configured : ∀ t ∈ targets, (base t.slot).queue.inner.cfg.onFull = t.onFull
  exact : ∀ t ∈ targets, Exact (base t.slot).queue.inner
  bytes : ∀ i, (base i).queue.reservations.bytes < wordSize

theorem Mark.apply_closed (mark : Mark) (s : Slot) : (mark.apply s).closed = s.closed := by
  cases mark <;> rfl

section
variable {targets : List Target} {update : Update} {now : Instant} {base : Nat → Slot} {a : Admission m} {world : World m}

/-- A step that changes no slot. -/
theorem Stands.goto (h : Stands targets update now base a world) {pc : Pc m}
    (fits : ∀ i mark, Mark.Valid update now (base i) mark → Fits targets i (base i).queue.inner.cfg.onFull mark a.pc →
      Fits targets i (base i).queue.inner.cfg.onFull mark pc) :
    Stands targets update now base { a with pc } world where
  ofUpdate := h.ofUpdate
  at_now := h.at_now
  slots i := by
    obtain ⟨mark, apply, valid, here⟩ := h.slots i
    exact ⟨mark, apply, valid, fits i mark valid here⟩

/-- A step that changes one slot. -/
theorem Stands.modify (h : Stands targets update now base a world) {pc : Pc m} {slot : Nat} {f : Slot → Slot}
    (others : ∀ i ≠ slot, ∀ mark, Mark.Valid update now (base i) mark →
      Fits targets i (base i).queue.inner.cfg.onFull mark a.pc → Fits targets i (base i).queue.inner.cfg.onFull mark pc)
    (here : ∀ mark : Mark, world.slots slot = mark.apply (base slot) → mark.Valid update now (base slot) →
      Fits targets slot (base slot).queue.inner.cfg.onFull mark a.pc →
        ∃ mark' : Mark, f (world.slots slot) = mark'.apply (base slot) ∧ mark'.Valid update now (base slot) ∧
          Fits targets slot (base slot).queue.inner.cfg.onFull mark' pc) :
    Stands targets update now base { a with pc } (world.modify slot f) where
  ofUpdate := h.ofUpdate
  at_now := h.at_now
  slots i := by
    obtain ⟨mark, apply, valid, fits⟩ := h.slots i
    by_cases hi : i = slot
    · subst hi
      obtain ⟨mark', apply', valid', fits'⟩ := here mark apply valid fits
      exact ⟨mark', (Function.update_self ..).trans apply', valid', fits'⟩
    · exact ⟨mark, (Function.update_of_ne hi ..).trans apply, valid, others i hi mark valid fits⟩

/-- A visited target adds its mark. -/
theorem Visited.snoc {slot : Nat} {mark mark' : Mark} {target : Target} {left : List Target}
    {permits added : List (Target × Permit)} (h : Visited targets slot mark (target :: left) permits)
    (permits' : permitsAt slot (permits ++ added) = mark'.permits) (unqueued : ∀ permit inner, mark' ≠ .queued permit inner)
    (touched : mark' = .untouched ↔ mark = .untouched ∧ slot ≠ target.slot) :
    Visited targets slot mark' left (permits ++ added) := by
  obtain ⟨visited, hsplit, hmark⟩ := h.visited
  refine ⟨permits', unqueued, visited ++ [target], by rw [hsplit, List.append_assoc]; rfl, ?_⟩
  rw [touched, hmark, List.map_append, List.mem_append, not_or, List.map_singleton, List.mem_singleton]

/-- The next target is not touched yet, and is one of those the admission visits. -/
theorem Visited.next {mark : Mark} {target : Target} {left : List Target} {permits : List (Target × Permit)}
    (distinct : (targets.map (·.slot)).Nodup) (h : Visited targets target.slot mark (target :: left) permits) :
    mark = .untouched ∧ target ∈ targets := by
  obtain ⟨visited, rfl, hmark⟩ := h.visited
  rw [List.map_append, List.map_cons] at distinct
  refine ⟨hmark.mpr fun hmem => ?_, List.mem_append_right _ List.mem_cons_self⟩
  exact (List.nodup_append.mp distinct).2.2 _ hmem _ List.mem_cons_self rfl

/-- With a `backpressure` target still to come, only such targets were visited. -/
theorem Visited.refused (ready : Ready targets base) {slot : Nat} {mark : Mark} {target : Target} {left : List Target}
    {permits : List (Target × Permit)} (h : Visited targets slot mark (target :: left) permits)
    (hfull : target.onFull = .backpressure) (valid : mark.Valid update now (base slot)) :
    mark.Refused (base slot).queue.inner.cfg.onFull := by
  obtain ⟨visited, rfl, hmark⟩ := h.visited
  have pass (ne : mark ≠ .untouched) : (base slot).queue.inner.cfg.onFull = .backpressure := by
    obtain ⟨t, ht, rfl⟩ := List.mem_map.mp (not_not.mp fun hn => ne (hmark.mpr hn))
    rw [ready.configured t (List.mem_append_left _ ht)]
    cases hpass : t.onFull with
    | backpressure => rfl
    | dropOldest =>
      have := (List.pairwise_append.mp ready.passes).2.2 t ht target List.mem_cons_self hpass
      rw [hfull] at this
      cases this
  cases mark with
  | untouched => trivial
  | holds permit inner => exact pass nofun
  | counted reason =>
    rcases valid with rfl | ⟨-, drops⟩
    · rfl
    · rw [pass nofun] at drops
      cases drops
  | queued permit inner => exact absurd rfl (h.unqueued permit inner)

/-- A slot without the next permit keeps its mark. -/
theorem permitsAt_tail {slot : Nat} {target : Target} {permit : Permit} {permits : List (Target × Permit)} {mark : Mark}
    (ne : slot ≠ target.slot) (h : permitsAt slot ((target, permit) :: permits) = mark.permits) :
    permitsAt slot permits = mark.permits := permitsAt_cons_of_ne ne permit permits ▸ h

/-- The slot of the next permit holds it, and no other. -/
theorem permitsAt_head {target : Target} {permit : Permit} {permits : List (Target × Permit)} {mark : Mark}
    (h : permitsAt target.slot ((target, permit) :: permits) = mark.permits) :
    (∃ inner, mark = .holds permit inner) ∧ permitsAt target.slot permits = [] := by
  rw [permitsAt_cons_self] at h
  cases mark with
  | holds held inner =>
    obtain ⟨rfl, rest⟩ := List.cons.inj h
    exact ⟨⟨inner, rfl⟩, rest⟩
  | untouched => cases h
  | counted reason => cases h
  | queued held inner => cases h

/-- What asking a target for room leaves there, and where the admission is then. -/
theorem stands_reserving (ready : Ready targets base) (h : Stands targets update now base a world) {items : Nat}
    {target : Target} {left : List Target} {permits : List (Target × Permit)}
    (hpc : a.pc = .reserving items target left permits) (clock : Instant) :
    Stands targets update now base (a.step clock world).1 (a.step clock world).2 := by
  obtain rfl := h.ofUpdate
  obtain ⟨mark, apply, -, fits⟩ := h.slots target.slot
  rw [hpc] at fits
  obtain ⟨rfl, mem⟩ := Visited.next ready.distinct fits
  have same : world.slots target.slot = base target.slot := apply
  -- Slots of other targets keep their marks.
  have others {added : List (Target × Permit)} (none : ∀ i ≠ target.slot, permitsAt i added = []) (i : Nat)
      (ne : i ≠ target.slot) (mark : Mark) (fits : Fits targets i (base i).queue.inner.cfg.onFull mark a.pc) :
      Visited targets i mark left (permits ++ added) := by
    rw [hpc] at fits
    refine Visited.snoc fits ?_ fits.unqueued (by simp [ne])
    rw [permitsAt_append, none i ne, List.append_nil]
    exact fits.permits
  have counted (reason : ConsumerDropReason) (fits : Visited targets target.slot .untouched (target :: left) permits) :
      Visited targets target.slot (.counted reason) left permits := by
    have : Visited targets target.slot (.counted reason) left (permits ++ []) :=
      Visited.snoc fits (by rw [List.append_nil]; exact fits.permits) (by rintro _ _ ⟨⟩) (by simp)
    rwa [List.append_nil] at this
  have uncounted {i : Nat} (ne : i ≠ target.slot) {mark : Mark}
      (fits : Fits targets i (base i).queue.inner.cfg.onFull mark a.pc) : Visited targets i mark left permits :=
    List.append_nil permits ▸ others (fun _ _ => rfl) i ne mark fits
  rcases LeaseQueue.tryReserveSeeing_cases (ready.exact target mem)
      (items, (base target.slot).queue.reservations.bytes) a.update.size with
    ⟨full, tried, -⟩ | ⟨n, inner, tried, -, le, removed, clean⟩ <;>
    simp only [Admission.step, hpc, same, tried]
  · -- There is no room: the update is dropped here, or refused everywhere.
    have drop {f : Slot → Slot} {reason : ConsumerDropReason} (hf : f (base target.slot) = (base target.slot).count reason 1)
        (valid : Mark.Valid a.update now (base target.slot) (.counted reason)) :
        Stands targets a.update now base { a with pc := .visit left permits } (world.modify target.slot f) :=
      h.modify (fun i ne _ _ => uncounted ne) fun _ _ _ _ =>
        ⟨.counted reason, by rw [same, hf]; rfl, valid, counted reason fits⟩
    have refuse {f : Slot → Slot} (hf : f (base target.slot) = base target.slot) (hpass : target.onFull = .backpressure) :
        Stands targets a.update now base { a with pc := .cancel permits (some .backpressure) }
          (world.modify target.slot f) :=
      h.modify
        (fun i ne mark valid fits => by
          rw [hpc] at fits
          exact ⟨rfl, fits.permits, Visited.refused ready fits hpass valid⟩)
        fun _ _ _ _ => ⟨.untouched, by rw [same, hf]; rfl, trivial, rfl, fits.permits, trivial⟩
    have configured := ready.configured target mem
    cases full with
    | tooLarge => exact drop rfl (.inl rfl)
    | items | bytes =>
      cases hpass : target.onFull with
      | backpressure => exact refuse rfl hpass
      | dropOldest => exact drop rfl (.inr ⟨rfl, configured.trans hpass⟩)
  · refine h.modify (fun i ne mark _ fits => ?_) fun _ _ _ _ =>
      ⟨.holds { evicted := n, size := a.update.size, reservations := (base target.slot).queue.address } inner, ?_,
        ⟨rfl, rfl, le, removed, fun hb => clean (.inr hb)⟩, ?_⟩
    · exact others (fun i ne => permitsAt_cons_of_ne ne ..) i ne mark fits
    · rw [same]
      rfl
    · refine Visited.snoc fits ?_ (by rintro _ _ ⟨⟩) (by simp)
      rw [permitsAt_append, permitsAt_cons_self, fits.permits]
      rfl

/-- A step of the admission keeps the marks in place. -/
theorem stands_step (ready : Ready targets base) (h : Stands targets update now base a world) (clock : Instant) :
    Stands targets update now base (a.step clock world).1 (a.step clock world).2 := by
  obtain rfl := h.ofUpdate
  obtain rfl := h.at_now
  have current {slot : Nat} (hs : slot ∈ targets.map (·.slot)) : (world.slots slot).closed = false := by
    obtain ⟨t, ht, rfl⟩ := List.mem_map.mp hs
    obtain ⟨mark, apply, -⟩ := h.slots t.slot
    rw [apply, mark.apply_closed, ready.current t ht]
  cases hpc : a.pc with
  | load =>
    obtain ⟨mark, -, -, fits⟩ := h.slots 0
    rw [hpc] at fits
    cases fits
  | route state =>
    obtain ⟨mark, -, -, fits⟩ := h.slots 0
    rw [hpc] at fits
    cases fits
  | visit left permits =>
    cases left with
    | nil =>
      simp only [Admission.step, hpc]
      refine h.goto fun i mark valid fits => ?_
      rw [hpc] at fits
      obtain ⟨visited, hsplit, hmark⟩ := fits.visited
      rw [List.append_nil] at hsplit
      exact ⟨fits.permits, hsplit ▸ hmark⟩
    | cons target left =>
      obtain ⟨mark, -, -, fits⟩ := h.slots target.slot
      rw [hpc] at fits
      have mem := (Visited.next ready.distinct fits).2
      simp only [Admission.step, hpc, current (List.mem_map_of_mem mem)]
      refine h.goto fun i mark valid fits => ?_
      rw [hpc] at fits
      exact fits
  | reserve target left permits =>
    simp only [Admission.step, hpc]
    refine h.goto fun i mark valid fits => ?_
    rw [hpc] at fits
    exact fits
  | reserving items target left permits => exact stands_reserving ready h hpc clock
  | cancel permits answer =>
    obtain ⟨mark, -, -, fits⟩ := h.slots 0
    rw [hpc] at fits
    obtain rfl := fits.1
    cases permits with
    | nil =>
      simp only [Admission.step, hpc]
      refine h.goto fun i mark valid fits => ?_
      rw [hpc] at fits
      obtain ⟨-, hp, refused⟩ := fits
      cases mark with
      | untouched => exact .inl rfl
      | holds permit inner => cases hp
      | counted reason => exact .inr (congrArg _ refused)
      | queued permit inner => cases refused
    | cons held permits =>
      obtain ⟨target, permit⟩ := held
      simp only [Admission.step, hpc]
      refine h.modify (fun i ne mark valid fits => ?_) fun mark apply valid fits => ?_ <;> rw [hpc] at fits
      · exact ⟨rfl, permitsAt_tail ne fits.2.1, fits.2.2⟩
      · obtain ⟨⟨inner, rfl⟩, rest⟩ := permitsAt_head fits.2.1
        obtain ⟨-, -, -, -, same⟩ := valid
        obtain ⟨evicted, rfl⟩ := same fits.2.2
        exact ⟨.untouched, apply ▸ Mark.release (ready.bytes _) evicted, trivial, rfl, rest, trivial⟩
  | commit permits =>
    cases permits with
    | nil =>
      simp only [Admission.step, hpc]
      refine h.goto fun i mark valid fits => ?_
      rw [hpc] at fits
      exact ⟨fits.1.symm, fits.2⟩
    | cons held permits =>
      obtain ⟨target, permit⟩ := held
      obtain ⟨mark, apply, valid, fits⟩ := h.slots target.slot
      rw [hpc] at fits
      obtain ⟨⟨inner, rfl⟩, rest⟩ := permitsAt_head fits.1
      have mem : target.slot ∈ targets.map (·.slot) := not_not.mp fun hn => by cases fits.2.mpr hn
      obtain ⟨inner', valid', commit⟩ := Mark.commit (ready.bytes _) valid
      simp only [Admission.step, hpc, apply, commit]
      refine h.modify (fun i ne mark valid fits => ?_) fun _ _ _ _ => ?_
      · rw [hpc] at fits
        exact ⟨mem, permitsAt_tail ne fits.1, fits.2⟩
      · refine ⟨.queued permit inner', ?_, valid', mem, rest, ?_⟩
        · rw [apply]
          rfl
        · simp [mem]
  | committed target permits =>
    obtain ⟨mark, -, -, fits⟩ := h.slots target.slot
    rw [hpc] at fits
    simp only [Admission.step, hpc, current fits.1]
    refine h.goto fun i mark valid fits => ?_
    rw [hpc] at fits
    exact fits.2
  | done outcome =>
    simp only [Admission.step, hpc]
    exact h

/-! ### Runs -/

/-- A mark says nothing about the permits of other admissions. -/
theorem Mark.Valid.dropPermit {mark : Mark} {s : Slot} (h : mark.Valid update now s) (permit : Permit) :
    mark.Valid update now (s.dropPermit permit) := by
  cases mark <;> exact h

theorem Ready.dropPermit {without : World m} (h : Ready targets without.slots) (slot : Nat) (permit : Permit) :
    Ready targets (without.dropPermit slot permit).slots := by
  have same (i : Nat) : ((without.dropPermit slot permit).slots i).closed = (without.slots i).closed ∧
      ((without.dropPermit slot permit).slots i).queue.inner = (without.slots i).queue.inner ∧
      ((without.dropPermit slot permit).slots i).queue.reservations.bytes < wordSize := by
    by_cases hi : i = slot
    · subst hi
      rw [World.dropPermit, World.modify_slots, Function.update_self]
      exact ⟨rfl, rfl, Nat.mod_lt _ (by decide)⟩
    · rw [World.dropPermit, World.modify_slots, Function.update_of_ne hi]
      exact ⟨rfl, rfl, h.bytes i⟩
  refine ⟨h.distinct, h.passes, fun t ht => ?_, fun t ht => ?_, fun t ht => ?_, fun i => (same i).2.2⟩
  · rw [(same t.slot).1, h.current t ht]
  · rw [(same t.slot).2.1, h.configured t ht]
  · rw [(same t.slot).2.1]
    exact h.exact t ht

/-- Another admission's drop of a permit that is out keeps the marks in place. -/
theorem Stands.dropPermit {without : World m} (h : Stands targets update now without.slots a world) (slot : Nat)
    (permit : Permit) (live : 0 < (without.slots slot).queue.reservations.items) :
    Stands targets update now (without.dropPermit slot permit).slots a (world.dropPermit slot permit) where
  ofUpdate := h.ofUpdate
  at_now := h.at_now
  slots i := by
    obtain ⟨mark, apply, valid, fits⟩ := h.slots i
    refine ⟨mark, ?_⟩
    rw [World.dropPermit, World.dropPermit, World.modify_slots, World.modify_slots]
    by_cases hi : i = slot
    · subst hi
      rw [Function.update_self, Function.update_self]
      exact ⟨(congrArg (Slot.dropPermit · permit) apply).trans (mark.apply_dropPermit permit live), valid.dropPermit permit, fits⟩
    · rw [Function.update_of_ne hi, Function.update_of_ne hi]
      exact ⟨apply, valid, fits⟩

theorem stands_run {without : World m} (ready : Ready targets without.slots) (h : Stands targets update now without.slots a world)
    (events : List Event) (live : ∀ i, Event.drops events i ≤ (without.slots i).queue.reservations.items) :
    Stands targets update now (Event.without events without).slots (Event.run events (a, world)).1
      (Event.run events (a, world)).2 := by
  induction events generalizing a world without with
  | nil => exact h
  | cons event events ih =>
    cases event with
    | step clock =>
      refine ih ready (stands_step ready h clock) fun i => ?_
      simpa [Event.drops] using live i
    | drop slot permit =>
      have out : 0 < (without.slots slot).queue.reservations.items := by
        have := live slot
        simp only [Event.drops, List.countP_cons, decide_true, if_true] at this
        exact Nat.lt_of_lt_of_le (Nat.succ_pos _) this
      refine ih (ready.dropPermit slot permit) (h.dropPermit slot permit out) fun i => ?_
      have := live i
      simp only [Event.drops, List.countP_cons] at this
      change Event.drops events i ≤ ((without.dropPermit slot permit).slots i).queue.reservations.items
      rw [World.dropPermit, World.modify_slots]
      by_cases hi : i = slot
      · subst hi
        rw [Function.update_self]
        simp only [decide_true, if_true] at this
        exact Nat.le_sub_of_add_le this
      · rw [Function.update_of_ne hi]
        simpa [Event.drops, Ne.symm hi] using this

end

/-- The mark of a queued update: the queue received it. -/
theorem Mark.received {update : Update} {now : Instant} {s : Slot} {permit : Permit} {inner : Inner Envelope}
    (valid : (Mark.queued permit inner).Valid update now s) : Received update now s ((Mark.queued permit inner).apply s) := by
  obtain ⟨le, before, removed, entries, nextSeq⟩ := valid
  refine ⟨⟨permit.evicted, fun seq => ?_, le, rfl⟩, nextSeq, rfl⟩
  simp only [Mark.apply, Slot.overflowed, Slot.count, entries]
  by_cases hseq : seq = s.queue.inner.nextSeq
  · rw [if_pos hseq, hseq, Std.ExtTreeMap.getElem?_insert_self]
  · rw [if_neg hseq, Ordered.getElem?_insert_of_ne hseq, removed.entries]

theorem visits_eq (targets : List Target) (ids : List ConsumerId) :
    visits targets ids = (routed targets ids).filter (·.onFull = .backpressure) ++
      (routed targets ids).filter (·.onFull = .dropOldest) := by
  simp [visits, routed]

theorem visits_perm (targets : List Target) (ids : List ConsumerId) : (visits targets ids).Perm (routed targets ids) := by
  have split := List.filter_append_perm (fun t : Target => decide (t.onFull = .backpressure)) (routed targets ids)
  rw [visits_eq]
  convert split using 4 with t
  cases t.onFull <;> rfl

theorem visits_passes (targets : List Target) (ids : List ConsumerId) :
    (visits targets ids).Pairwise fun t t' => t.onFull = .dropOldest → t'.onFull = .dropOldest := by
  rw [visits_eq, List.pairwise_append]
  refine ⟨List.pairwise_of_forall_mem_list fun t ht t' _ drops => ?_, List.pairwise_of_forall_mem_list fun _ _ t' ht' _ => ?_,
    fun _ _ t' ht' _ => ?_⟩
  · have := (List.mem_filter.mp ht).2
    rw [drops] at this
    cases this
  · simpa using (List.mem_filter.mp ht').2
  · simpa using (List.mem_filter.mp ht').2

/-- While an update is admitted to distinct current targets and permits of other admissions are dropped: refused, it
    leaves every queue as it would be without it, with no eviction counted; admitted, each target either received it
    once or counted one drop for it, not both, and no other slot has changed. -/
theorem admission_allOrNothing (world : World m) (a : Admission m) (targets : List Target) (ids : List ConsumerId)
    (start : a.pc = .visit (visits targets ids) []) (distinct : ((routed targets ids).map (·.slot)).Nodup)
    (current : ∀ t ∈ routed targets ids, (world.slots t.slot).closed = false)
    (configured : ∀ t ∈ routed targets ids, (world.slots t.slot).queue.inner.cfg.onFull = t.onFull)
    (exact : ∀ t ∈ routed targets ids, Exact (world.slots t.slot).queue.inner)
    (bytes : ∀ i, (world.slots i).queue.reservations.bytes < wordSize) (events : List Event)
    (live : ∀ i, Event.drops events i ≤ (world.slots i).queue.reservations.items) :
    let after := Event.run events (a, world)
    let without := Event.without events world
    (after.1.pc = .done .backpressure → ∀ i, (after.2.slots i).queue = (without.slots i).queue ∧
      (after.2.slots i).dropped .overflow = (without.slots i).dropped .overflow) ∧
    (after.1.pc = .done .admitted →
      (∀ t ∈ routed targets ids, Xor (Received a.update a.now (without.slots t.slot) (after.2.slots t.slot))
        (Dropped (without.slots t.slot) (after.2.slots t.slot))) ∧
      ∀ i ∉ (routed targets ids).map (·.slot), after.2.slots i = without.slots i) := by
  intro after without
  have perm := visits_perm targets ids
  have mem {t : Target} : t ∈ visits targets ids ↔ t ∈ routed targets ids := perm.mem_iff
  have ready : Ready (visits targets ids) world.slots := by
    refine ⟨(perm.map _).nodup_iff.mpr distinct, visits_passes targets ids, ?_, ?_, ?_, bytes⟩
    · exact fun t ht => current t (mem.mp ht)
    · exact fun t ht => configured t (mem.mp ht)
    · exact fun t ht => exact t (mem.mp ht)
  have stands : Stands (visits targets ids) a.update a.now world.slots a world := by
    refine ⟨rfl, rfl, fun i => ⟨.untouched, rfl, trivial, ?_⟩⟩
    rw [start]
    exact ⟨rfl, nofun, [], rfl, by simp⟩
  have stands : Stands _ _ _ without.slots after.1 after.2 := stands_run ready stands events live
  refine ⟨fun refused i => ?_, fun admitted => ⟨fun t ht => ?_, fun i hi => ?_⟩⟩
  · obtain ⟨mark, apply, -, fits⟩ := stands.slots i
    rw [refused] at fits
    rcases fits with rfl | rfl <;> rw [apply]
    · exact ⟨rfl, rfl⟩
    · have other : ConsumerDropReason.overflow ≠ .oversized := nofun
      exact ⟨rfl, Slot.count_of_ne other (without.slots i) 1⟩
  · obtain ⟨mark, apply, valid, fits⟩ := stands.slots t.slot
    rw [admitted] at fits
    obtain ⟨permits, touched⟩ := fits
    rw [apply]
    cases mark with
    | untouched => exact absurd (List.mem_map_of_mem (mem.mpr ht)) (touched.mp rfl)
    | holds permit inner => cases permits
    | counted reason =>
      have dropped : Dropped (without.slots t.slot) ((Mark.counted reason).apply (without.slots t.slot)) := by
        refine ⟨rfl, reason, ?_, rfl⟩
        rcases valid with rfl | ⟨rfl, -⟩ <;> simp
      exact .inr ⟨dropped, fun received => received.not_dropped dropped⟩
    | queued permit inner => exact .inl ⟨Mark.received valid, (Mark.received valid).not_dropped⟩
  · obtain ⟨mark, apply, -, fits⟩ := stands.slots i
    rw [admitted] at fits
    have notMem : i ∉ (visits targets ids).map (·.slot) := fun h => hi ((perm.map _).mem_iff.mp h)
    rw [apply, fits.2.mpr notMem]
    rfl

/-! ### A refusal by the second target -/

/-- A slot with one permit out; the second takes no update at all. -/
def narrowSlot (i : Nat) : Slot :=
  let s := Slot.new i [] .pull { roomy with capacity := if i = 1 then 0 else 8 }
  { s with queue := { s.queue with reservations := { items := 1, bytes := 5 } } }

def narrow : World literal where
  shared := { bothEngine with slots := narrowSlot }
  cursors _ _ := 0
  scratch := []

def narrowTargets : List Target :=
  [{ slot := 0, onFull := .backpressure, capacityBytes := 1024 }, { slot := 1, onFull := .backpressure, capacityBytes := 1024 }]

/-- An update that comes to both targets. -/
def toBoth : Admission literal :=
  { Admission.start (m := literal) { source := 0, updateId := 7, payload := [1, 2, 3], facts := default } with
    pc := .visit (visits narrowTargets [0, 1]) [] }

/-- It gets room at the first target, a permit of another update is dropped there, and the second refuses it. -/
def refusal : List Event :=
  List.replicate 3 (.step 1) ++ .drop 0 { evicted := 0, size := 5, reservations := 0 } :: List.replicate 5 (.step 1)

theorem admission_allOrNothing_refusal :
    (Event.run refusal (toBoth, narrow)).1.pc = .done .backpressure ∧
      ∀ i, ((Event.run refusal (toBoth, narrow)).2.slots i).queue = ((Event.without refusal narrow).slots i).queue := by
  have refused : (Event.run refusal (toBoth, narrow)).1.pc = .done .backpressure := rfl
  have all := admission_allOrNothing narrow toBoth narrowTargets [0, 1] rfl (by decide) (by decide) (by decide)
    (fun t _ => exact_new t.slot _) (fun _ => (by decide : 5 < wordSize)) refusal fun i => by
      by_cases hi : 0 = i <;> simp [refusal, Event.drops, hi, narrow, World.slots, narrowSlot]
  exact ⟨refused, fun i => (all.1 refused i).1⟩

end Tgin.Engine
