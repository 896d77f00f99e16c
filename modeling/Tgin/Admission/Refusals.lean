import Tgin.Admission.Steps
import Tgin.Engine.Sources

/-! Drop counters when a source offers an update again and again until it is admitted. -/

namespace Tgin.Engine
open Queue Rules

variable {m : Matchers}

/-- A queue that was asked for room, with the reservations that were read off it. -/
structure Asked where
  slot : Nat
  queue : LeaseQueue Envelope
  reserved : Nat × Nat

variable (m) in
/-- A source offering one update; `asked` are the queues the current call asked for room, as they stood. -/
structure Offer where
  update : Update
  call : Admission m
  world : World m
  asked : List Asked

variable (m) in
/-- What happens next: the call takes a step, others change the world, or the source offers the update again. -/
inductive Turn where
  | step (clock : Instant)
  | others (change : World m → World m)
  | retry

namespace Offer

def start (update : Update) (world : World m) : Offer m := { update, call := .start update, world, asked := [] }

/-- What the call is about to ask. -/
def asks (offer : Offer m) : List Asked :=
  match offer.call.pc with
  | .reserving items target _ _ =>
    let queue := (offer.world.slots target.slot).queue
    [{ slot := target.slot, queue, reserved := (items, queue.reservations.bytes) }]
  | _ => []

def step (offer : Offer m) (clock : Instant) : Offer m :=
  { offer with
    call := (offer.call.step clock offer.world).1, world := (offer.call.step clock offer.world).2
    asked := offer.asked ++ offer.asks }

/-- The world after others changed it, less what they counted as dropped. -/
def otherwise (change : World m → World m) (world : World m) : World m :=
  let changed := change world
  { changed with shared := { changed.shared with
    slots := fun i => { changed.slots i with dropped := (world.slots i).dropped } } }

def turn (offer : Offer m) : Turn m → Offer m
  | .step clock => offer.step clock
  | .others change => { offer with world := otherwise change offer.world }
  | .retry =>
    match offer.call.pc with
    | .done .backpressure => .start offer.update offer.world
    | _ => offer

def run (offer : Offer m) (turns : List (Turn m)) : Offer m := turns.foldl turn offer

end Offer

/-- Others leave each queue's indexes as its entries imply. -/
def Turn.Sound : Turn m → Prop
  | .step _ => True
  | .others change => ∀ world, (∀ i, Exact (world.slots i).queue.inner) → ∀ i, Exact ((change world).slots i).queue.inner
  | .retry => True

/-- The update is larger than the queue takes. -/
def Asked.TooLarge (x : Asked) (size : Nat) : Prop := x.queue.inner.cfg.capacityBytes < size

instance (x : Asked) (size : Nat) : Decidable (x.TooLarge size) := Nat.decLt ..

/-- A call at this point is refused: a `backpressure` target is full, or a target is closed for the second time. -/
def Pc.Refuses (world : World m) (again : Bool) (size : Nat) : Pc m → Prop
  | .visit (target :: _) _ => again ∧ (world.slots target.slot).closed
  | .reserving items target _ _ =>
    let queue := (world.slots target.slot).queue
    target.onFull = .backpressure ∧ queue.IsFull (items, queue.reservations.bytes) size
  | _ => False

instance (world : World m) (again : Bool) (size : Nat) : (pc : Pc m) → Decidable (pc.Refuses world again size)
  | .visit (_ :: _) _ => inferInstanceAs (Decidable (_ ∧ _))
  | .reserving .. => inferInstanceAs (Decidable (_ ∧ _))
  | .load | .route _ | .visit [] _ | .reserve .. | .cancel .. | .commit _ | .committed .. | .done _ => .isFalse nofun

/-- The call is refused at this step. -/
def Offer.Refuses (offer : Offer m) : Prop := offer.call.pc.Refuses offer.world offer.call.again offer.update.size

instance (offer : Offer m) : Decidable offer.Refuses := inferInstanceAs (Decidable (offer.call.pc.Refuses ..))

/-- When a step counts nothing that the update must not count: a call that is refused has found room wherever it
    asked before, and no queue that is asked twice in a call finds the update too large twice. -/
def Offer.Clean (offer : Offer m) : Prop :=
  (offer.Refuses → ∀ x ∈ offer.asked, x.queue.HasRoom x.reserved offer.update.size) ∧
    ∀ x ∈ offer.asks, x.TooLarge offer.update.size → ∀ y ∈ offer.asked, y.slot = x.slot → ¬y.TooLarge offer.update.size

instance (offer : Offer m) : Decidable offer.Clean := inferInstanceAs (Decidable (_ ∧ _))

/-- What must hold at every turn. -/
def Offer.Harmless (offer : Offer m) : Turn m → Prop
  | .step _ => offer.Clean
  | .others _ => True
  | .retry => True

instance (offer : Offer m) : (turn : Turn m) → Decidable (offer.Harmless turn)
  | .step _ => inferInstanceAs (Decidable offer.Clean)
  | .others _ | .retry => .isTrue trivial

def Offer.AllHarmless (offer : Offer m) : List (Turn m) → Prop
  | [] => True
  | turn :: turns => offer.Harmless turn ∧ (offer.turn turn).AllHarmless turns

instance Offer.decidableAllHarmless (offer : Offer m) : (turns : List (Turn m)) → Decidable (offer.AllHarmless turns)
  | [] => .isTrue trivial
  | turn :: turns =>
    have := (offer.turn turn).decidableAllHarmless turns
    inferInstanceAs (Decidable (_ ∧ _))

/-- Each consumer has counted the update as oversized at most once, and no drop at all if the call is refused. -/
structure Offer.CountsOnce (world : World m) (offer : Offer m) : Prop where
  oversized : ∀ i, (offer.world.slots i).dropped .oversized ≤ (world.slots i).dropped .oversized + 1
  refused : offer.call.pc = .done .backpressure → ∀ i, (offer.world.slots i).dropped = (world.slots i).dropped

/-! ### The counters -/

/-- The call is refused, or about to be. -/
def Admission.Refused (a : Admission m) : Prop :=
  match a.pc with
  | .cancel _ (some _) => True
  | .cancel _ none => a.again = true
  | .done outcome => outcome = .backpressure
  | _ => False

/-- The call may still be refused, or was. -/
def Pc.Open : Pc m → Prop
  | .commit _ => False
  | .committed _ _ => False
  | .done outcome => outcome = .backpressure
  | _ => True

/-- How often a slot's queue was asked in this call and found the update too large. -/
def tooLarge (asked : List Asked) (slot size : Nat) : Nat := asked.countP fun x => x.slot = slot ∧ x.TooLarge size

/-- The drop counters against those at first, `origin`. -/
structure Tally (origin : Nat → ConsumerDropReason → Nat) (offer : Offer m) : Prop where
  ofUpdate : offer.call.update = offer.update
  exact : ∀ i, Exact (offer.world.slots i).queue.inner
  oversized : ∀ i, (offer.world.slots i).dropped .oversized =
    origin i .oversized + tooLarge offer.asked i offer.update.size
  once : ∀ i, tooLarge offer.asked i offer.update.size ≤ 1
  clean : offer.call.pc.Open → (∀ x ∈ offer.asked, x.queue.HasRoom x.reserved offer.update.size) →
    ∀ i, (offer.world.slots i).dropped = origin i
  refused : offer.call.Refused → ∀ i, (offer.world.slots i).dropped = origin i

section
variable {origin : Nat → ConsumerDropReason → Nat} {offer : Offer m}

/-- A step that asks nothing and counts no update as too large. -/
theorem Tally.quiet (h : Tally origin offer) {call : Admission m} {world : World m} (ofUpdate : call.update = offer.update)
    (exact : ∀ i, Exact (world.slots i).queue.inner)
    (oversized : ∀ i, (world.slots i).dropped .oversized = (offer.world.slots i).dropped .oversized)
    (same : call.pc.Open → offer.call.pc.Open ∧ ∀ i, (world.slots i).dropped = (offer.world.slots i).dropped)
    (refused : call.Refused → ∀ i, (world.slots i).dropped = origin i) :
    Tally origin { offer with call, world } where
  ofUpdate := ofUpdate
  exact := exact
  oversized i := (oversized i).trans (h.oversized i)
  once := h.once
  clean hopen room i := ((same hopen).2 i).trans (h.clean (same hopen).1 room i)
  refused := refused

theorem tooLarge_append (asked asked' : List Asked) (slot size : Nat) :
    tooLarge (asked ++ asked') slot size = tooLarge asked slot size + tooLarge asked' slot size := List.countP_append

/-- A step that asks a queue: what it does to the slot decides the rest. -/
theorem Tally.ask (h : Tally origin offer) (before : offer.call.pc.Open) (x : Asked)
    (clean : offer.Refuses → ∀ y ∈ offer.asked, y.queue.HasRoom y.reserved offer.update.size)
    (twice : x.TooLarge offer.update.size → ∀ y ∈ offer.asked, y.slot = x.slot → ¬y.TooLarge offer.update.size)
    {f : Slot → Slot} {call : Admission m} (ofUpdate : call.update = offer.update)
    (exact : ∀ i, Exact ((offer.world.modify x.slot f).slots i).queue.inner)
    (large : x.TooLarge offer.update.size → (f (offer.world.slots x.slot)).dropped .oversized =
      (offer.world.slots x.slot).dropped .oversized + 1)
    (small : ¬x.TooLarge offer.update.size → (f (offer.world.slots x.slot)).dropped .oversized =
      (offer.world.slots x.slot).dropped .oversized)
    (room : call.pc.Open → x.queue.HasRoom x.reserved offer.update.size →
      (f (offer.world.slots x.slot)).dropped = (offer.world.slots x.slot).dropped)
    (refused : call.Refused → offer.Refuses ∧
      (f (offer.world.slots x.slot)).dropped = (offer.world.slots x.slot).dropped) :
    Tally origin { offer with call, world := offer.world.modify x.slot f, asked := offer.asked ++ [x] } where
  ofUpdate := ofUpdate
  exact := exact
  oversized i := by
    rw [tooLarge_append, tooLarge, tooLarge, List.countP_singleton, ← Nat.add_assoc, World.modify_slots]
    refine Eq.trans ?_ (congrArg (· + _) (h.oversized i))
    by_cases hi : i = x.slot
    · subst hi
      rw [Function.update_self]
      by_cases hx : x.TooLarge offer.update.size
      · simp [hx, large hx]
      · simp [hx, small hx]
    · rw [Function.update_of_ne hi]
      simp [Ne.symm hi]
  once i := by
    rw [tooLarge_append]
    by_cases large : x.slot = i ∧ x.TooLarge offer.update.size
    · obtain ⟨rfl, large⟩ := large
      have none : tooLarge offer.asked x.slot offer.update.size = 0 :=
        List.countP_eq_zero.mpr fun y hy hl => by
          have hl := of_decide_eq_true hl
          exact twice large y hy hl.1 hl.2
      rw [none, Nat.zero_add]
      exact List.countP_le_length
    · rw [show tooLarge [x] i offer.update.size = 0 from List.countP_eq_zero.mpr (by simpa using large)]
      exact h.once i
  clean hopen all i := by
    have all := List.forall_mem_append.mp all
    refine (World.modify_field Slot.dropped (room hopen (all.2 x (List.mem_singleton_self x))) i).trans ?_
    exact h.clean before all.1 i
  refused hr i := by
    obtain ⟨refuses, same⟩ := refused hr
    exact (World.modify_field Slot.dropped same i).trans (h.clean before (clean refuses) i)

/-- The step that asks a target for room. -/
theorem tally_reserving (h : Tally origin offer) {items : Nat} {target : Target} {left : List Target}
    {permits : List (Target × Permit)} (hpc : offer.call.pc = .reserving items target left permits) (clean : offer.Clean)
    (clock : Instant) : Tally origin (offer.step clock) := by
  have exact := fun i => (offer.call.step_effect clock h.exact i).exact (h.exact i)
  have before : offer.call.pc.Open := by rw [hpc]; trivial
  obtain ⟨refuses, twice⟩ := clean
  have asks : offer.asks = [{
      slot := target.slot, queue := (offer.world.slots target.slot).queue
      reserved := (items, (offer.world.slots target.slot).queue.reservations.bytes) }] := by rw [Offer.asks, hpc]
  rw [asks] at twice
  have twice := twice _ (List.mem_singleton_self _)
  have other : ConsumerDropReason.oversized ≠ .overflow := by rintro ⟨⟩
  rw [Offer.step, asks]
  rcases LeaseQueue.tryReserveSeeing_cases (h.exact target.slot)
      (items, (offer.world.slots target.slot).queue.reservations.bytes) offer.update.size with
    ⟨full, tried, hfull⟩ | ⟨n, inner, tried, fits, -, -, clean⟩ <;>
    simp only [Admission.step, hpc, h.ofUpdate, tried] at exact ⊢
  · cases full with
    | tooLarge =>
      have large : (offer.world.slots target.slot).queue.inner.cfg.capacityBytes < offer.update.size := by
        rcases hfull with ⟨-, large⟩ | ⟨ne, -⟩
        · exact large
        · exact absurd rfl ne
      exact h.ask before _ refuses twice rfl exact (fun _ => Slot.count_self ..) (absurd large ·)
        (fun _ room => absurd large (Nat.not_lt.mpr room.1)) (by rintro ⟨⟩)
    | items | bytes =>
      have full : (offer.world.slots target.slot).queue.IsFull
          (items, (offer.world.slots target.slot).queue.reservations.bytes) offer.update.size := by
        rcases hfull with ⟨large, -⟩ | ⟨-, full⟩
        · cases large
        · exact full
      cases hpass : target.onFull with
      | backpressure =>
        rw [hpass] at exact
        refine h.ask before _ refuses twice rfl exact (absurd · (Nat.not_lt.mpr full.1)) (fun _ => rfl) (fun _ _ => rfl)
          fun _ => ⟨?_, rfl⟩
        rw [Offer.Refuses, hpc]
        exact ⟨hpass, full⟩
      | dropOldest =>
        rw [hpass] at exact
        exact h.ask before _ refuses twice rfl exact (absurd · (Nat.not_lt.mpr full.1)) (fun _ => Slot.count_of_ne other ..)
          (fun _ room => absurd room full.2.1) (by rintro ⟨⟩)
  · refine h.ask before _ refuses twice rfl exact (absurd · (Nat.not_lt.mpr fits)) (fun _ => Slot.count_of_ne other ..)
      (fun _ room => ?_) (by rintro ⟨⟩)
    obtain ⟨rfl, -⟩ := clean (.inl room)
    simp [Slot.reserved, Slot.overflowed, Slot.count]

theorem tally_step (h : Tally origin offer) (clean : offer.Clean) (clock : Instant) :
    Tally origin (offer.step clock) := by
  have exact := fun i => (offer.call.step_effect clock h.exact i).exact (h.exact i)
  -- A step that is not about to ask leaves `asked` as it is.
  have silent (hasks : offer.asks = []) (h : Tally origin { offer with
      call := (offer.call.step clock offer.world).1, world := (offer.call.step clock offer.world).2 }) :
      Tally origin (offer.step clock) := by
    rw [Offer.step, hasks, List.append_nil]
    exact h
  cases hpc : offer.call.pc with
  | load =>
    refine silent (by rw [Offer.asks, hpc]) ?_
    simp only [Admission.step, hpc]
    refine h.quiet h.ofUpdate h.exact (fun _ => rfl) (fun _ => ⟨by rw [hpc]; trivial, fun _ => rfl⟩) (by rintro ⟨⟩)
  | route state =>
    refine silent (by rw [Offer.asks, hpc]) ?_
    have same : (offer.world.route state offer.call.update).2.slots = offer.world.slots := rfl
    simp only [Admission.step, hpc]
    rcases (offer.world.route state offer.call.update).1.1 with _ | index
    · refine h.quiet h.ofUpdate h.exact (fun _ => rfl) (by rintro ⟨⟩) (by rintro ⟨⟩)
    · refine h.quiet h.ofUpdate h.exact (fun _ => rfl) (fun _ => ⟨by rw [hpc]; trivial, fun _ => rfl⟩) (by rintro ⟨⟩)
  | visit left permits =>
    refine silent (by rw [Offer.asks, hpc]) ?_
    have before : offer.call.pc.Open := by rw [hpc]; trivial
    cases left with
    | nil =>
      simp only [Admission.step, hpc]
      exact h.quiet h.ofUpdate h.exact (fun _ => rfl) (by rintro ⟨⟩) (by rintro ⟨⟩)
    | cons target left =>
      simp only [Admission.step, hpc]
      split
      · rename_i closed
        refine h.quiet h.ofUpdate h.exact (fun _ => rfl) (fun _ => ⟨before, fun _ => rfl⟩) fun again => ?_
        refine h.clean before (clean.1 ?_)
        rw [Offer.Refuses, hpc]
        exact ⟨again, closed⟩
      · exact h.quiet h.ofUpdate h.exact (fun _ => rfl) (fun _ => ⟨before, fun _ => rfl⟩) (by rintro ⟨⟩)
  | reserve target left permits =>
    refine silent (by rw [Offer.asks, hpc]) ?_
    simp only [Admission.step, hpc]
    refine h.quiet h.ofUpdate h.exact (fun _ => rfl) (fun _ => ⟨by rw [hpc]; trivial, fun _ => rfl⟩) (by rintro ⟨⟩)
  | reserving items target left permits => exact tally_reserving h hpc clean clock
  | cancel permits answer =>
    refine silent (by rw [Offer.asks, hpc]) ?_
    have before : offer.call.pc.Open := by rw [hpc]; trivial
    have refused (hr : answer = none → offer.call.again = true) (i : Nat) :
        (offer.world.slots i).dropped = origin i := by
      refine h.refused ?_ i
      rw [Admission.Refused, hpc]
      cases answer with
      | none => exact hr rfl
      | some outcome => trivial
    cases permits with
    | nil =>
      cases answer with
      | some outcome =>
        simp only [Admission.step, hpc]
        exact h.quiet h.ofUpdate h.exact (fun _ => rfl) (fun _ => ⟨before, fun _ => rfl⟩) fun _ => refused (by rintro ⟨⟩)
      | none =>
        simp only [Admission.step, hpc]
        split
        · exact h.quiet h.ofUpdate h.exact (fun _ => rfl) (fun _ => ⟨before, fun _ => rfl⟩) fun _ => refused fun _ => ‹_›
        · exact h.quiet h.ofUpdate h.exact (fun _ => rfl) (fun _ => ⟨before, fun _ => rfl⟩) (by rintro ⟨⟩)
    | cons held permits =>
      obtain ⟨target, permit⟩ := held
      simp only [Admission.step, hpc] at exact ⊢
      have same := @World.modify_field _ offer.world _ Slot.dropped target.slot (·.dropPermit permit) rfl
      refine h.quiet h.ofUpdate exact (fun i => congrFun (same i) _) (fun _ => ⟨before, same⟩) fun hr i => ?_
      refine (same i).trans (refused (fun none => ?_) i)
      subst none
      exact hr
  | commit permits =>
    refine silent (by rw [Offer.asks, hpc]) ?_
    cases permits with
    | nil =>
      simp only [Admission.step, hpc]
      exact h.quiet h.ofUpdate h.exact (fun _ => rfl) (by rintro ⟨⟩) (by rintro ⟨⟩)
    | cons held permits =>
      obtain ⟨target, permit⟩ := held
      have other : ConsumerDropReason.oversized ≠ .overflow := by rintro ⟨⟩
      simp only [Admission.step, hpc] at exact ⊢
      split at exact <;> simp only
      · exact h.quiet h.ofUpdate exact (World.modify_field (·.dropped .oversized) rfl) (by rintro ⟨⟩) (by rintro ⟨⟩)
      · refine h.quiet h.ofUpdate exact (fun i => ?_) (by rintro ⟨⟩) (by rintro ⟨⟩)
        refine (World.modify_field (·.dropped .oversized) (Slot.count_of_ne other ..) i).trans ?_
        exact World.modify_field (·.dropped .oversized) rfl i
  | committed target permits =>
    refine silent (by rw [Offer.asks, hpc]) ?_
    simp only [Admission.step, hpc] at exact ⊢
    split
    · rename_i closed
      rw [if_pos closed] at exact
      have other : ConsumerDropReason.oversized ≠ .reload := by rintro ⟨⟩
      exact h.quiet h.ofUpdate exact (World.modify_field (·.dropped .oversized) (Slot.count_of_ne other ..))
        (by rintro ⟨⟩) (by rintro ⟨⟩)
    · exact h.quiet h.ofUpdate h.exact (fun _ => rfl) (by rintro ⟨⟩) (by rintro ⟨⟩)
  | done outcome =>
    refine silent (by rw [Offer.asks, hpc]) ?_
    simp only [Admission.step, hpc]
    exact h

theorem tally_turn (h : Tally origin offer) {turn : Turn m} (sound : turn.Sound) (harmless : offer.Harmless turn) :
    Tally origin (offer.turn turn) := by
  cases turn with
  | step clock => exact tally_step h harmless clock
  | others change => exact ⟨h.ofUpdate, sound offer.world h.exact, h.oversized, h.once, h.clean, h.refused⟩
  | retry =>
    rw [Offer.turn]
    split
    · rename_i hpc
      -- The new call has asked nothing yet, and the one refused has counted nothing.
      have same : ∀ i, (offer.world.slots i).dropped = origin i := h.refused (by rw [Admission.Refused, hpc])
      exact ⟨rfl, h.exact, fun i => congrFun (same i) _, fun _ => Nat.zero_le 1, fun _ _ => same, nofun⟩
    · exact h

theorem tally_run (h : Tally origin offer) {turns : List (Turn m)} (sound : ∀ turn ∈ turns, turn.Sound)
    (harmless : offer.AllHarmless turns) (n : Nat) : Tally origin (offer.run (turns.take n)) := by
  induction turns generalizing offer n with
  | nil => simpa [Offer.run] using h
  | cons turn turns ih =>
    obtain ⟨first, rest⟩ := harmless
    rw [List.forall_mem_cons] at sound
    cases n with
    | zero => exact h
    | succ n => exact ih (tally_turn h sound.1 first) sound.2 rest n

end

/-- A step that finds the update too large for a target. -/
theorem step_tooLarge {a : Admission m} {items : Nat} {target : Target} {left : List Target}
    {permits : List (Target × Permit)} (hpc : a.pc = .reserving items target left permits) {world : World m}
    (large : (world.slots target.slot).queue.inner.cfg.capacityBytes < a.update.size) (clock : Instant) :
    a.step clock world = ({ a with pc := .visit left permits }, world.modify target.slot (·.count .oversized 1)) := by
  simp only [Admission.step, hpc, LeaseQueue.tryReserveSeeing, if_pos large]
  rfl

/-- A step that finds a `backpressure` target full. -/
theorem step_full {a : Admission m} {items : Nat} {target : Target} {left : List Target}
    {permits : List (Target × Permit)} (hpc : a.pc = .reserving items target left permits)
    (pass : target.onFull = .backpressure) {world : World m}
    (fits : a.update.size ≤ (world.slots target.slot).queue.inner.cfg.capacityBytes)
    (waits : (world.slots target.slot).queue.inner.cfg.onFull = .backpressure)
    (full : (world.slots target.slot).queue.inner.cfg.capacity ≤
      saturatingAdd (world.slots target.slot).queue.inner.entries.size items) (clock : Instant) :
    a.step clock world = ({ a with pc := .cancel permits (some .backpressure) }, world) := by
  have same : world.modify target.slot (fun s => { s with queue := (world.slots target.slot).queue }) = world := by
    have slots : (world.modify target.slot fun s => { s with queue := (world.slots target.slot).queue }).slots =
        world.slots := by rw [World.modify_slots, Function.update_eq_self_iff]
    unfold World.modify Shared.modify
    rw [show Function.update world.shared.slots _ _ = world.slots from slots]
    rfl
  simp only [Admission.step, hpc, LeaseQueue.tryReserveSeeing, if_neg (Nat.not_lt.mpr fits), LeaseQueue.makeRoom, Inner.room,
    if_pos full, if_pos waits, pass, Slot.reserved, same]

theorem Offer.run_step {offer : Offer m} {clock : Instant} {turns : List (Turn m)} {call call' : Admission m}
    {world world' : World m} (h : offer.call.step clock offer.world = (call, world))
    (rest : ∀ asked, ∃ asked', Offer.run { offer with call, world, asked } turns =
      { offer with call := call', world := world', asked := asked' }) :
    ∃ asked', offer.run (.step clock :: turns) = { offer with call := call', world := world', asked := asked' } := by
  obtain ⟨asked', h'⟩ := rest (offer.asked ++ offer.asks)
  refine ⟨asked', Eq.trans ?_ h'⟩
  rw [Offer.run, List.foldl_cons, Offer.turn, Offer.step, h]
  rfl

/-- A call whose first target finds the update too large and whose second, full, refuses it. -/
theorem run_refused (offer : Offer m) {p q : Target} (hpc : offer.call.pc = .visit [p, q] []) (ne : q.slot ≠ p.slot)
    (hp : (offer.world.slots p.slot).closed = false) (hq : (offer.world.slots q.slot).closed = false)
    (large : (offer.world.slots p.slot).queue.inner.cfg.capacityBytes < offer.call.update.size)
    (pass : q.onFull = .backpressure)
    (fits : offer.call.update.size ≤ (offer.world.slots q.slot).queue.inner.cfg.capacityBytes)
    (waits : (offer.world.slots q.slot).queue.inner.cfg.onFull = .backpressure)
    (full : (offer.world.slots q.slot).queue.inner.cfg.capacity ≤
      saturatingAdd (offer.world.slots q.slot).queue.inner.entries.size (offer.world.slots q.slot).queue.reservations.items)
    (clock : Instant) :
    ∃ asked, offer.run (List.replicate 7 (.step clock)) = { offer with
      call := { offer.call with pc := .done .backpressure }
      world := offer.world.modify p.slot (·.count .oversized 1)
      asked } := by
  obtain ⟨update, ⟨update', again, now, pc⟩, world, asked⟩ := offer
  dsimp only at *
  subst hpc
  let call (pc : Pc m) : Admission m := { update := update', again, now, pc }
  let counted := world.modify p.slot (·.count .oversized 1)
  have same : counted.slots q.slot = world.slots q.slot := by rw [World.modify_slots, Function.update_of_ne ne]
  have first : (call (.visit [p, q] [])).step clock world = (call (.reserve p [q] []), world) :=
    if_neg (Bool.eq_false_iff.mp hp)
  have tooLarge : (call (.reserving (world.slots p.slot).queue.reservations.items p [q] [])).step clock world =
      (call (.visit [q] []), counted) := step_tooLarge rfl large clock
  rw [← same] at hq fits waits full
  have second : (call (.visit [q] [])).step clock counted = (call (.reserve q [] []), counted) :=
    if_neg (Bool.eq_false_iff.mp hq)
  have refused : (call (.reserving (counted.slots q.slot).queue.reservations.items q [] [])).step clock counted =
      (call (.cancel [] (some .backpressure)), counted) := step_full rfl pass fits waits full clock
  refine Offer.run_step first fun _ => Offer.run_step rfl fun _ => Offer.run_step tooLarge fun _ => ?_
  exact Offer.run_step second fun _ => Offer.run_step rfl fun _ => Offer.run_step refused fun _ => Offer.run_step rfl
    fun _ => ⟨_, rfl⟩

/-- Takes 1 MiB of updates. -/
def mebibyte : QueueConfig := { roomy with capacityBytes := 1024 * 1024 }

/-- Takes one update, of up to 1 GiB. -/
def single : QueueConfig := { roomy with capacity := 1, capacityBytes := 1024 * 1024 * 1024 }

/-- Bot `a`, whose updates go to the pull consumers `p` and `q`. -/
def paired : Config where
  bots := [{ name := [97], token := [1], rules := [{ predicates := {}, targets := [.all [.consumer 0, .consumer 1]] }] }]
  consumers := [
    { id := 0, name := [112], kind := .pull { queue := mebibyte, honorDropPending := false } },
    { id := 1, name := [113], kind := .pull { queue := single, honorDropPending := false } }]
  botNames := by decide
  tokens := by decide
  consumerNames := by decide
  ids := by decide
  owned := by decide

def pairedEngine : Shared literal := (Shared.new paired List.length).toOption.get rfl

def pairedWorld : World literal where
  shared := pairedEngine
  cursors _ _ := 0
  scratch := []

/-- Another update gets the only room at `q`. -/
def another (world : World literal) : World literal :=
  world.modify 1 fun s => s.reserved (s.queue.tryReserve 2) .backpressure

theorem pairedWorld_exact : ∀ i, Exact (pairedWorld.slots i).queue.inner
  | 0 => exact_new ..
  | 1 => exact_new ..
  | _ + 2 => exact_new ..

theorem another_exact {world : World literal} (exact : ∀ i, Exact (world.slots i).queue.inner) (i : Nat) :
    Exact ((another world).slots i).queue.inner :=
  (World.effect_modify (fun _ => False)
    (Slot.effect_reserved { source := 0, updateId := 0, payload := [], facts := default } 0 False (exact 1) ..) i).exact
    (exact i)

/-- Two calls, both refused by `q`. -/
def offeredTwice : List (Turn literal) :=
  [.others another] ++ List.replicate 2 (.step 0) ++ List.replicate 7 (.step 0) ++
    [.retry] ++ List.replicate 2 (.step 0) ++ List.replicate 7 (.step 0)

theorem offeredTwice_sound : ∀ turn ∈ offeredTwice, turn.Sound := by
  have steps (n : Nat) : ∀ turn ∈ List.replicate n (Turn.step (m := literal) 0), turn.Sound := fun turn ht => by
    rw [List.eq_of_mem_replicate ht]
    trivial
  simp only [offeredTwice, List.forall_mem_append, List.forall_mem_singleton]
  exact ⟨⟨⟨⟨⟨fun _ => another_exact, steps 2⟩, steps 7⟩, trivial⟩, steps 2⟩, steps 7⟩

def ofPayload (payload : List UInt8) : Update := { source := 0, updateId := 7, payload, facts := default }

/-- Both calls are refused, and both count the update. -/
theorem offeredTwice_counts {payload : List UInt8} (large : 1024 * 1024 < payload.length)
    (fits : payload.length ≤ 1024 * 1024 * 1024) :
    (((Offer.start (ofPayload payload) pairedWorld).run offeredTwice).world.slots 0).dropped .oversized = 2 := by
  let routed := ((Offer.start (ofPayload payload) pairedWorld).turn (.others another)).run (List.replicate 2 (.step 0))
  let p : Target := { slot := 0, onFull := .backpressure, capacityBytes := 1024 * 1024 }
  let q : Target := { slot := 1, onFull := .backpressure, capacityBytes := 1024 * 1024 * 1024 }
  have ne : q.slot ≠ p.slot := by decide
  obtain ⟨asked, first⟩ := run_refused routed (p := p) (q := q) rfl ne rfl rfl large rfl fits rfl (Nat.le_refl 1) 0
  let again (offer : Offer literal) := (offer.turn .retry).run (List.replicate 2 (.step 0))
  have all : (Offer.start (ofPayload payload) pairedWorld).run offeredTwice =
      (again (routed.run (List.replicate 7 (.step 0)))).run (List.replicate 7 (.step 0)) := by
    simp only [offeredTwice, Offer.run, List.foldl_append]
    rfl
  let refused : Offer literal := { routed with
    call := { routed.call with pc := .done .backpressure }
    world := routed.world.modify p.slot (·.count .oversized 1)
    asked }
  obtain ⟨_, second⟩ := run_refused (again refused) (p := p) (q := q) rfl ne rfl rfl large rfl fits rfl
    (Nat.le_refl 1) 0
  rw [all, first, second]
  rfl

end Tgin.Engine
