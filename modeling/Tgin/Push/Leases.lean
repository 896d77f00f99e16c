import Mathlib.Data.List.Perm.Basic
import Tgin.Push.Delivery
import Tgin.Push.Dispatch

/-! What the deliveries of a push consumer hold. Each lease taken ends in one call on the queue, and the in-flight counts of the
    consumer and of its endpoints count what is held. -/

namespace Tgin.Push
open Engine (Envelope PushOptions RuntimeEndpoint)
open Queue Rules

/-! ### Requests -/

/-- The delivery's request is on the wire to the slot. -/
def Delivery.sends (d : Delivery) (slot : Address) : Bool :=
  match d.phase with
  | .sending sent => sent.slot = slot
  | _ => false

section
variable {c c' : PushConsumer} {d d' : Delivery} {sent : Sending} {slot : Address} {now : Instant}

theorem Delivery.sends_sending (h : d.phase = .sending sent) : d.sends slot = decide (sent.slot = slot) := by
  rw [sends, h]

theorem Delivery.not_sends (h : ∀ sent, d.phase ≠ .sending sent) : d.sends slot = false := by
  unfold sends
  split
  · rename_i sent sending
    exact absurd sending (h sent)
  · rfl

theorem report_load (sent : Sending) (up : Bool) (now : Instant) (c : PushConsumer) (slot : Address) :
    ((c.report sent up now).2.heap slot).inFlight = (c.heap slot).inFlight := by
  simp only [PushConsumer.report, PushConsumer.modify, Function.update_apply]
  split
  · rename_i same
    rw [same]
  · rfl

theorem dropSending_load (sent : Sending) (now : Instant) (c : PushConsumer) (slot : Address) :
    ((c.dropSending sent now).heap slot).inFlight = (c.heap slot).inFlight - (decide (sent.slot = slot)).toNat := by
  simp only [PushConsumer.dropSending, PushConsumer.modify, Function.update_apply]
  by_cases same : slot = sent.slot
  · rw [if_pos same, decide_eq_true same.symm, same]
    rfl
  · rw [if_neg same, decide_eq_false (Ne.symm same)]
    rfl

/-- `pick` takes the in-flight count. -/
theorem take_load (c : PushConsumer) (chosen : Address) (breaker : Breaker) (slot : Address) :
    (((c.modify chosen fun s => { s with breaker }).modify chosen fun s => { s with inFlight := s.inFlight + 1 }).heap slot).inFlight =
      (c.heap slot).inFlight + (decide (chosen = slot)).toNat := by
  simp only [PushConsumer.modify, Function.update_apply, if_true]
  by_cases same : slot = chosen
  · rw [if_pos same, decide_eq_true same.symm, same]
    rfl
  · rw [if_neg same, if_neg same, decide_eq_false (Ne.symm same)]
    rfl

/-- From one await to the next the delivery `d` became `d'` and the consumer `c` became `c'`: the counts of the slots follow the
    delivery's request. -/
structure Moves (c c' : PushConsumer) (d d' : Delivery) : Prop where
  made : c'.made = c.made
  targets : c'.targets = c.targets
  inFlight : c'.inFlight = c.inFlight
  load : ∀ slot, (c'.heap slot).inFlight + (d.sends slot).toNat = (c.heap slot).inFlight + (d'.sends slot).toNat
  sends : ∀ slot, d'.sends slot = true → d.sends slot = true ∨ slot ∈ c.targets.slots

theorem Moves.idle (h : ∀ slot, d'.sends slot = d.sends slot) : Moves c c d d' :=
  ⟨rfl, rfl, rfl, fun slot => by rw [h], fun slot sends => .inl (h slot ▸ sends)⟩

theorem Moves.trans {c'' : PushConsumer} {d'' : Delivery} (h : Moves c c' d d') (h' : Moves c' c'' d' d'') : Moves c c'' d d'' where
  made := h'.made.trans h.made
  targets := h'.targets.trans h.targets
  inFlight := h'.inFlight.trans h.inFlight
  load slot := by
    have first := h.load slot
    have second := h'.load slot
    omega
  sends slot sends := by
    rcases h'.sends slot sends with before | mem
    · exact h.sends slot before
    · exact .inr (h.targets ▸ mem)

/-- The request has come to its end. -/
theorem Moves.dropSending (sending : d.phase = .sending sent) (taken : 0 < (c.heap sent.slot).inFlight) (done : ∀ sent, d'.phase ≠ .sending sent)
    (made : c'.made = c.made) (targets : c'.targets = c.targets) (inFlight : c'.inFlight = c.inFlight)
    (load : ∀ slot, (c'.heap slot).inFlight = (c.heap slot).inFlight - (decide (sent.slot = slot)).toNat) : Moves c c' d d' := by
  refine ⟨made, targets, inFlight, fun slot => ?_, fun slot sends => ?_⟩
  · rw [load, Delivery.not_sends done, Delivery.sends_sending sending]
    by_cases same : sent.slot = slot
    · rw [same] at taken
      rw [decide_eq_true same]
      exact Nat.sub_add_cancel taken
    · rw [decide_eq_false same]
      rfl
  · rw [Delivery.not_sends done] at sends
    cases sends

theorem Moves.settle (sending : d.phase = .sending sent) (taken : 0 < (c.heap sent.slot).inFlight) (now : Instant) (drawn : Nat)
    (result : Except Failure Bool) : Moves c (d.settle sent now drawn result c).2 d (d.settle sent now drawn result c).1 := by
  have ends (sent' : Sending) (same : sent'.slot = sent.slot) (up : Bool) (slot : Address) :
      (((c.report sent up now).2.dropSending sent' now).heap slot).inFlight =
        (c.heap slot).inFlight - (decide (sent.slot = slot)).toNat := by
    rw [dropSending_load, report_load, same]
  rcases result with (retryAfter | _) | reply
  · refine .dropSending sending taken ?_ rfl rfl rfl (ends { sent with reported := true } rfl false)
    obtain ⟨_, eq⟩ := Delivery.settle_transient d c now sent drawn retryAfter rfl
    rw [eq]
    split <;> nofun
  · exact .dropSending sending taken nofun rfl rfl rfl (ends { sent with reported := true } rfl true)
  · refine .dropSending sending taken ?_ rfl rfl rfl (ends { sent with reported := true } rfl true)
    rw [Delivery.settle_ok]
    cases reply <;> nofun

theorem Moves.drop (taken : ∀ slot, d.sends slot = true → 0 < (c.heap slot).inFlight) (now : Instant) :
    Moves c (d.drop now c).2 d (d.drop now c).1 := by
  unfold Delivery.drop
  split
  · exact .idle fun _ => rfl
  · rename_i sent sending
    have own : d.sends sent.slot = true := by rw [Delivery.sends_sending sending, decide_eq_true rfl]
    exact .dropSending sending (taken _ own) nofun rfl rfl rfl (dropSending_load sent now c)
  · rename_i quiet
    exact .idle fun slot => by rw [Delivery.not_sends quiet]; rfl

theorem Moves.look (looks : d.looks now = true) (cancelled : Bool) : Moves c (d.look cancelled now c).2 d (d.look cancelled now c).1 := by
  have quiet (slot : Address) : d.sends slot = false := Delivery.not_sends fun sent sending => by
    rw [Delivery.looks, sending] at looks
    cases looks
  have idle {phase : Phase} (done : ∀ sent, phase ≠ .sending sent) : Moves c c d { d with phase } :=
    .idle fun slot => by rw [quiet, Delivery.not_sends done]
  rcases choose_cases c d.envelope cancelled now with ⟨-, eq⟩ | ⟨-, -, eq⟩ | ⟨-, -, eq, -⟩ | ⟨-, till, eq⟩ | ⟨-, index, cursor, breaker, lt, eq⟩
  · rw [Delivery.look, eq]
    exact idle (by rintro _ ⟨⟩)
  · rw [Delivery.look, eq]
    exact idle (by rintro _ ⟨⟩)
  · rw [Delivery.look, eq]
    exact idle (by rintro _ ⟨⟩)
  · rw [Delivery.look, eq]
    exact idle (by rintro _ ⟨⟩)
  · rw [Delivery.look, eq]
    let sent : Sending := { targets := c.targets, index, reported := false }
    have mem : sent.slot ∈ c.targets.slots := by
      rw [Sending.slot, List.getD_eq_getElem?_getD, List.getElem?_eq_getElem lt]
      exact List.getElem_mem lt
    generalize hc : ({ c with cursor }.modify (c.targets.slots.getD index 0) _).modify (c.targets.slots.getD index 0) _ = c'
    have load (slot : Address) : (c'.heap slot).inFlight = (c.heap slot).inFlight + (decide (sent.slot = slot)).toNat := by
      rw [← hc]
      exact take_load { c with cursor } sent.slot breaker slot
    have took : Moves c c' d { d with attempt := min (d.attempt + 1) (2 ^ 32 - 1), phase := .sending sent } := by
      refine ⟨hc ▸ rfl, hc ▸ rfl, hc ▸ rfl, fun slot => ?_, fun slot sends => .inr ?_⟩
      · rw [quiet, load, Delivery.sends_sending rfl]
        rfl
      · rw [Delivery.sends_sending rfl] at sends
        exact of_decide_eq_true sends ▸ mem
    dsimp only
    split
    · have pos : 0 < (c'.heap sent.slot).inFlight := by
        rw [load, decide_eq_true rfl]
        exact Nat.succ_pos _
      have ends := Moves.settle (d := { d with attempt := min (d.attempt + 1) (2 ^ 32 - 1), phase := .sending sent }) rfl pos now 0
        (.error .permanent)
      exact took.trans ends
    · exact took

theorem Moves.poll (taken : ∀ slot, d.sends slot = true → 0 < (c.heap slot).inFlight) (cancelled : Bool) (wake : Wake) :
    Moves c (d.poll cancelled wake c).2 d (d.poll cancelled wake c).1 := by
  have polled := Delivery.poll_polled d cancelled wake c
  generalize h : d.poll cancelled wake c = result at polled
  cases polled with
  | look looks => exact .look looks cancelled
  | @settle sent _ _ _ sending =>
    have own : d.sends sent.slot = true := by rw [Delivery.sends_sending sending, decide_eq_true rfl]
    exact .settle sending (taken _ own) ..
  | reply replying => exact .idle fun slot => by rw [d.not_sends (replying ▸ nofun)]; rfl
  | woken asleep =>
    have quiet (sent : Sending) (sending : d.phase = .sending sent) : False := by
      unfold Delivery.poll at h
      rw [sending] at h
      exact nomatch sending.symm.trans (congrArg (·.1.phase) h)
    exact .idle fun slot => by rw [d.not_sends quiet]; rfl
  | idle asleep quiet => exact .idle fun _ => rfl

end

/-! ### Endpoints -/

section
variable {c c' : PushConsumer} (sendable : Str → Bool)

/-- The heap got new slots only. -/
structure Grown (c c' : PushConsumer) : Prop where
  made : c.made ≤ c'.made
  load : ∀ slot, (c'.heap slot).inFlight = (c.heap slot).inFlight ∨ c.made ≤ slot ∧ (c'.heap slot).inFlight = 0
  inFlight : c'.inFlight = c.inFlight

theorem Grown.refl (c : PushConsumer) : Grown c c := ⟨Nat.le_refl _, fun _ => .inl rfl, rfl⟩

theorem Grown.trans {c'' : PushConsumer} (h : Grown c c') (h' : Grown c' c'') : Grown c c'' where
  made := Nat.le_trans h.made h'.made
  load slot := by
    rcases h'.load slot with same | ⟨new, zero⟩
    · rw [same]
      exact h.load slot
    · exact .inr ⟨Nat.le_trans h.made new, zero⟩
  inFlight := h'.inFlight.trans h.inFlight

theorem Grown.make (c : PushConsumer) (secret : SecretHeader) (breaker : Breaker) : Grown c (c.make secret breaker).2 := by
  refine ⟨Nat.le_succ _, fun slot => ?_, rfl⟩
  simp only [PushConsumer.make, Function.update_apply]
  split
  · rename_i new
    exact .inr ⟨Nat.le_of_eq new.symm, rfl⟩
  · exact .inl rfl

/-- The endpoints of the current set are on the heap. -/
def Placed (c : PushConsumer) : Prop := ∀ slot ∈ c.targets.slots, slot < c.made

theorem configuredSlots_grown (endpoints : List Endpoint) (c : PushConsumer) :
    Grown c (c.configuredSlots sendable endpoints).2 ∧
      (∀ slot ∈ (c.configuredSlots sendable endpoints).1, slot < (c.configuredSlots sendable endpoints).2.made) ∧
      (c.configuredSlots sendable endpoints).2.targets = c.targets := by
  refine List.foldlRecOn (motive := fun (result : List Address × PushConsumer) =>
    Grown c result.2 ∧ (∀ slot ∈ result.1, slot < result.2.made) ∧ result.2.targets = c.targets)
    endpoints _ ⟨.refl c, nofun, rfl⟩ ?_
  rintro ⟨slots, c'⟩ ⟨grown, placed, same⟩ endpoint -
  refine ⟨grown.trans (.make ..), List.forall_mem_append.mpr ⟨fun slot mem => ?_, ?_⟩, same⟩
  · exact Nat.lt_succ_of_lt (placed slot mem)
  · exact List.forall_mem_singleton.mpr (Nat.lt_succ_self _)

theorem new_placed (endpoints : List Endpoint) (opts : PushOptions) :
    Placed (.new sendable endpoints opts) ∧ (∀ slot, ((PushConsumer.new sendable endpoints opts).heap slot).inFlight = 0) ∧
      (PushConsumer.new sendable endpoints opts).inFlight = 0 := by
  obtain ⟨grown, placed, -⟩ := configuredSlots_grown sendable endpoints {
    heap := fun _ => { secret := .none, breaker := .new opts.breaker 0, inFlight := 0 }
    made := 0
    targets := { slots := [], runtime := none, opts }
    cursor := 0
    inFlight := 0
    paused := false }
  exact ⟨placed, fun slot => (grown.load slot).elim id And.right, grown.inFlight⟩

theorem setEndpoints_grown (placed : Placed c) (endpoints : List Endpoint) (opts : PushOptions) (now : Instant) :
    Grown c (c.setEndpoints sendable endpoints opts now) ∧ Placed (c.setEndpoints sendable endpoints opts now) := by
  obtain ⟨grown, configured, -⟩ := configuredSlots_grown sendable endpoints c
  unfold PushConsumer.setEndpoints
  generalize c.configuredSlots sendable endpoints = result at grown configured ⊢
  obtain ⟨slots, c'⟩ := result
  dsimp only
  split
  · rename_i runtime slot _ last
    split
    · refine ⟨⟨grown.made, grown.load, grown.inFlight⟩, List.forall_mem_append.mpr ⟨configured, List.forall_mem_singleton.mpr ?_⟩⟩
      exact Nat.lt_of_lt_of_le (placed slot (List.mem_of_getLast? last)) grown.made
    · have more := grown.trans (.make c' (secretHeader sendable runtime.secretToken) (.new opts.breaker now))
      refine ⟨⟨more.made, more.load, more.inFlight⟩, List.forall_mem_append.mpr ⟨fun slot mem => ?_, ?_⟩⟩
      · exact Nat.lt_succ_of_lt (configured slot mem)
      · exact List.forall_mem_singleton.mpr (Nat.lt_succ_self _)
  · exact ⟨⟨grown.made, grown.load, grown.inFlight⟩, configured⟩

theorem setRuntimeEndpoint_grown (placed : Placed c) (endpoint : Option RuntimeEndpoint) (now : Instant) :
    Grown c (c.setRuntimeEndpoint sendable endpoint now) ∧ Placed (c.setRuntimeEndpoint sendable endpoint now) := by
  have configured (slot : Address) (mem : slot ∈ c.targets.configured) : slot < c.made := placed slot (List.mem_of_mem_take mem)
  unfold PushConsumer.setRuntimeEndpoint
  cases endpoint with
  | none => exact ⟨⟨Nat.le_refl _, fun _ => .inl rfl, rfl⟩, configured⟩
  | some runtime =>
    have grown := Grown.make c (secretHeader sendable runtime.secretToken) (.new c.targets.opts.breaker now)
    refine ⟨⟨grown.made, grown.load, grown.inFlight⟩, List.forall_mem_append.mpr ⟨fun slot mem => ?_, ?_⟩⟩
    · exact Nat.lt_succ_of_lt (configured slot mem)
    · exact List.forall_mem_singleton.mpr (Nat.lt_succ_self _)

end

/-! ### Leases -/

/-- The call that a delivery ends its lease with. -/
def End.op (how : End) (seq : Nat) : Op Envelope :=
  match how with
  | .delivered | .deadLettered => .ackSeq HOLDER seq
  | .released => .releaseSeq HOLDER seq

/-- What the call leaves of the update: nothing, or the update as it was stored, for another lease. -/
def End.leaves (how : End) (e : Entry Envelope) : Option (Entry Envelope) :=
  match how with
  | .delivered | .deadLettered => none
  | .released => some { e with lease := none }

/-- The call ends the lease by how its delivery ended. Only after a drain it finds nothing. -/
def LeaseCall.Settles (call : LeaseCall) (lease : Lease Envelope) : Prop :=
  ∃ how, call.live.delivery.phase = .ended how ∧ call.op = how.op lease.seq ∧
    if call.live.drained then call.result = .found false ∧ call.before = none ∧ call.after = none
    else call.result = .found true ∧
      ∃ e, call.before = some e ∧ e.heldBy HOLDER ∧ e.item = lease.item ∧ call.after = how.leaves e

/-- The update of a lease that is held: drained, or stored and leased. -/
def Live.Stored (queue : LeaseQueue Envelope) (live : Live) (lease : Lease Envelope) : Prop :=
  if live.drained then live.held.seq < queue.inner.nextSeq ∧ queue.at live.held.seq = none
  else ∃ e, queue.at live.held.seq = some e ∧ e.heldBy HOLDER ∧ e.item = lease.item

structure Live.Holds (queue : LeaseQueue Envelope) (taken : List (Lease Envelope)) (live : Live) : Prop where
  unacked : live.held.acked = false
  lease : ∃ lease, taken[live.id]? = some lease ∧ lease.seq = live.held.seq ∧ live.Stored queue lease

/-- What a push consumer, its queue and its deliveries know of each other. -/
structure Sound (c : PushConsumer) (client : Client Envelope) (live : List Live) (taken : List (Lease Envelope))
    (calls : List LeaseCall) : Prop where
  refines : ∃ m, ClientRefines client m
  holds : ∀ l ∈ live, l.Holds client.queue taken
  seqs : (live.map (·.held.seq)).Nodup
  /-- A lease is held or has been settled. -/
  once : ∀ id, calls.countP (·.live.id = id) + live.countP (·.id = id) = if id < taken.length then 1 else 0
  settled : ∀ call ∈ calls, ∃ lease, taken[call.live.id]? = some lease ∧ call.Settles lease
  inFlight : c.inFlight = live.length
  load : ∀ slot, (c.heap slot).inFlight = live.countP (·.delivery.sends slot)
  made : ∀ l ∈ live, ∀ slot, l.delivery.sends slot = true → slot < c.made
  placed : Placed c

section
variable {c c' : PushConsumer} {client : Client Envelope} {queue queue' : LeaseQueue Envelope} {l : Live} {live : List Live}
  {lease : Lease Envelope} {taken : List (Lease Envelope)} {calls : List LeaseCall}

theorem End.op_touches {how : End} {seq other : Nat} (ne : other ≠ seq) : ¬(how.op seq).touches other := by
  cases how <;> exact ne

theorem heldBy_leased {e : Entry Envelope} (held : e.heldBy HOLDER) : e.lease.isSome := by
  obtain ⟨holding, leased, -⟩ := heldBy_iff.mp held
  rw [leased]
  rfl

theorem Live.Holds.onward {touched : Nat → Prop} (h : l.Holds queue taken) (on : Onward touched queue queue')
    (untouched : ¬touched l.held.seq) : l.Holds queue' taken := by
  obtain ⟨unacked, lease, at', seq, stored⟩ := h
  refine ⟨unacked, lease, at', seq, ?_⟩
  unfold Stored at stored ⊢
  split at stored
  · rename_i drained
    rw [if_pos drained]
    exact ⟨Nat.lt_of_lt_of_le stored.1 on.nextSeq, on.gone _ stored.1 stored.2⟩
  · rename_i undrained
    obtain ⟨e, stored, held, item⟩ := stored
    rw [if_neg undrained]
    exact ⟨e, on.leased _ e stored (heldBy_leased held) untouched, held, item⟩

theorem append_getElem? {α : Type} {as : List α} {i : Nat} {a : α} (h : as[i]? = some a) (bs : List α) : (as ++ bs)[i]? = some a := by
  rw [List.getElem?_append_left (List.getElem?_eq_some_iff.mp h).1]
  exact h

theorem Live.Holds.taken_append (h : l.Holds queue taken) (leases : List (Lease Envelope)) : l.Holds queue (taken ++ leases) := by
  obtain ⟨unacked, lease, at', rest⟩ := h
  exact ⟨unacked, lease, append_getElem? at' leases, rest⟩

theorem Sound.perm (h : Sound c client live taken calls) {live' : List Live} (perm : live'.Perm live) :
    Sound c client live' taken calls where
  refines := h.refines
  holds l mem := h.holds l (perm.mem_iff.mp mem)
  seqs := (perm.map _).nodup_iff.mpr h.seqs
  once id := by rw [perm.countP_eq, h.once]
  settled := h.settled
  inFlight := by rw [perm.length_eq, h.inFlight]
  load slot := by rw [perm.countP_eq, h.load]
  made l mem := h.made l (perm.mem_iff.mp mem)
  placed := h.placed

/-- A delivery goes on. -/
theorem Sound.moves (h : Sound c client (l :: live) taken calls) {d : Delivery} (moves : Moves c c' l.delivery d) :
    Sound c' client ({ l with delivery := d } :: live) taken calls where
  refines := h.refines
  holds := by
    obtain ⟨here, there⟩ := List.forall_mem_cons.mp h.holds
    exact List.forall_mem_cons.mpr ⟨⟨here.unacked, here.lease⟩, there⟩
  seqs := h.seqs
  once := h.once
  settled := h.settled
  inFlight := moves.inFlight.trans h.inFlight
  load slot := by
    have before := h.load slot
    have moved := moves.load slot
    have one (d : Delivery) : (if d.sends slot = true then 1 else 0) = (d.sends slot).toNat := by cases d.sends slot <;> rfl
    rw [List.countP_cons, one] at before ⊢
    dsimp only
    omega
  made := by
    obtain ⟨here, there⟩ := List.forall_mem_cons.mp h.made
    rw [moves.made]
    refine List.forall_mem_cons.mpr ⟨fun slot sends => ?_, there⟩
    rcases moves.sends slot sends with before | mem
    · exact here slot before
    · exact h.placed slot mem
  placed := by
    rw [Placed, moves.targets, moves.made]
    exact h.placed

/-- The endpoints change. -/
theorem Sound.grown (h : Sound c client live taken calls) (grown : Grown c c') (placed : Placed c') :
    Sound c' client live taken calls where
  refines := h.refines
  holds := h.holds
  seqs := h.seqs
  once := h.once
  settled := h.settled
  inFlight := grown.inFlight.trans h.inFlight
  load slot := by
    rcases grown.load slot with same | ⟨new, zero⟩
    · rw [same, h.load]
    · rw [zero]
      refine (List.countP_eq_zero.mpr fun l mem sends => ?_).symm
      exact absurd new (Nat.not_le_of_lt (h.made l mem slot sends))
  made l mem slot sends := Nat.lt_of_lt_of_le (h.made l mem slot sends) grown.made
  placed := placed

/-- A delivery that has ended lets go of its lease, with one call. -/
theorem Sound.settle (h : Sound c client (l :: live) taken calls) {how : End} (ended : l.delivery.phase = .ended how) :
    Sound { c with inFlight := c.inFlight - 1 } (Client.step (how.op l.held.seq) client).2 live taken (calls ++ [{
      live := l
      op := how.op l.held.seq
      result := (Client.step (how.op l.held.seq) client).1
      before := client.queue.at l.held.seq
      after := (Client.step (how.op l.held.seq) client).2.queue.at l.held.seq }]) where
  refines := by
    obtain ⟨m, refines⟩ := h.refines
    exact ⟨_, (step_refines _ refines).2⟩
  holds := by
    obtain ⟨m, refines⟩ := h.refines
    have on := step_onward refines (how.op l.held.seq)
    obtain ⟨fresh, -⟩ := List.nodup_cons.mp h.seqs
    intro other mem
    have ne : other.held.seq ≠ l.held.seq := fun same => fresh (List.mem_map.mpr ⟨other, mem, same⟩)
    exact ((List.forall_mem_cons.mp h.holds).2 other mem).onward on (End.op_touches ne)
  seqs := (List.nodup_cons.mp h.seqs).2
  once id := by
    have before := h.once id
    rw [List.countP_cons] at before
    rw [List.countP_append, List.countP_cons, List.countP_nil]
    dsimp only
    omega
  settled := by
    refine List.forall_mem_append.mpr ⟨h.settled, List.forall_mem_singleton.mpr ?_⟩
    obtain ⟨m, refines⟩ := h.refines
    obtain ⟨-, lease, at', seq, stored⟩ := (List.forall_mem_cons.mp h.holds).1
    refine ⟨lease, at', how, ended, by rw [seq], ?_⟩
    unfold Live.Stored at stored
    dsimp only
    split at stored
    · rename_i drained
      rw [if_pos drained]
      have none : Client.step (how.op l.held.seq) client = (.found false, client) := by
        cases how with
        | released => exact releaseSeq_gone refines HOLDER stored.2
        | _ => exact ackSeq_gone refines HOLDER stored.2
      rw [none]
      exact ⟨rfl, stored.2, stored.2⟩
    · rename_i undrained
      rw [if_neg undrained]
      obtain ⟨e, stored, held, item⟩ := stored
      have done : (Client.step (how.op l.held.seq) client).1 = .found true ∧
          (Client.step (how.op l.held.seq) client).2.queue.at l.held.seq = how.leaves e := by
        cases how with
        | released => exact releaseSeq_held refines stored held
        | _ => exact ackSeq_held refines stored held
      exact ⟨done.1, e, stored, held, item, done.2⟩
  inFlight := by
    dsimp only
    rw [h.inFlight]
    rfl
  load slot := by
    have done : l.delivery.sends slot = false := Delivery.not_sends fun sent sending => nomatch ended.symm.trans sending
    have before := h.load slot
    rw [List.countP_cons, done] at before
    exact before
  made := (List.forall_mem_cons.mp h.made).2
  placed := h.placed

/-- The queue's other callers. -/
theorem Sound.call (h : Sound c client live taken calls) (op : Op Envelope) {drains : Bool} (drain : drains = true → op = .drainAll)
    (other : drains = false → ∀ seq, ¬op.touches seq) :
    Sound c (Client.step op client).2 (live.map fun l => { l with drained := l.drained || drains }) taken calls where
  refines := by
    obtain ⟨m, refines⟩ := h.refines
    exact ⟨_, (step_refines _ refines).2⟩
  holds := by
    obtain ⟨m, refines⟩ := h.refines
    have on := step_onward refines op
    refine List.forall_mem_map.mpr fun l mem => ?_
    cases drains with
    | false =>
      have same := (h.holds l mem).onward on (other rfl _)
      rw [Bool.or_false]
      exact same
    | true =>
      obtain ⟨unacked, lease, at', seq, stored⟩ := h.holds l mem
      refine ⟨unacked, lease, at', seq, ?_⟩
      rw [Live.Stored, if_pos (Bool.or_true _)]
      have old : l.held.seq < client.queue.inner.nextSeq := by
        unfold Live.Stored at stored
        split at stored
        · exact stored.1
        · obtain ⟨e, stored, -⟩ := stored
          exact refines.old stored
      refine ⟨Nat.lt_of_lt_of_le old on.nextSeq, ?_⟩
      rw [drain rfl]
      exact drainAll_empties refines _
  seqs := by
    rw [List.map_map]
    exact h.seqs
  once id := by
    rw [List.countP_map]
    exact h.once id
  settled := h.settled
  inFlight := h.inFlight.trans (List.length_map _).symm
  load slot := by
    rw [List.countP_map]
    exact h.load slot
  made := List.forall_mem_map.mpr fun l mem => h.made l mem
  placed := h.placed

/-- What a delivery of a new lease holds. -/
def Live.take (x : Lease Envelope × Nat) : Live :=
  { id := x.2, held := { seq := x.1.seq, acked := false }, delivery := .new x.1, drained := false }

theorem countP_take (leases : List (Lease Envelope)) (n id : Nat) :
    ((leases.zipIdx n).map Live.take).countP (·.id = id) = if n ≤ id ∧ id < n + leases.length then 1 else 0 := by
  have ids : ((leases.zipIdx n).map Live.take).map (·.id) = List.range' n leases.length := by
    rw [List.map_map]
    exact List.zipIdx_map_snd n leases
  have count : ((leases.zipIdx n).map Live.take).countP (·.id = id) = (List.range' n leases.length).count id := by
    rw [← ids, List.count]
    exact (List.countP_map (p := (· == id)) (f := fun l : Live => l.id)).symm
  rw [count]
  split
  · rename_i among
    exact List.count_eq_one_of_mem List.nodup_range' (List.mem_range'_1.mpr among)
  · rename_i beyond
    exact List.count_eq_zero.mpr fun mem => beyond (List.mem_range'_1.mp mem)

theorem Sound.take (h : Sound c client live taken calls) (room : Nat) (now : Instant) :
    Sound { c with inFlight := c.inFlight + (client.queue.lease HOLDER room now).1.length }
      { client with queue := (client.queue.lease HOLDER room now).2 }
      (live ++ ((client.queue.lease HOLDER room now).1.zipIdx taken.length).map Live.take)
      (taken ++ (client.queue.lease HOLDER room now).1) calls := by
  obtain ⟨m, refines⟩ := h.refines
  obtain ⟨takes, nodup⟩ := lease_takes refines HOLDER room now
  have on : Onward (fun _ => False) client.queue (client.queue.lease HOLDER room now).2 :=
    step_onward refines (.lease HOLDER room now)
  have after : ∃ m, ClientRefines { client with queue := (client.queue.lease HOLDER room now).2 } m :=
    ⟨_, (step_refines (.lease HOLDER room now) refines).2⟩
  generalize client.queue.lease HOLDER room now = result at *
  obtain ⟨leases, queue⟩ := result
  dsimp only at *
  have idle (l : Live) (mem : l ∈ (leases.zipIdx taken.length).map Live.take) (slot : Address) : l.delivery.sends slot = false := by
    obtain ⟨x, -, rfl⟩ := List.mem_map.mp mem
    rfl
  exact {
    refines := after
    holds := by
      refine List.forall_mem_append.mpr ⟨fun l mem => ((h.holds l mem).onward on id).taken_append leases, ?_⟩
      refine List.forall_mem_map.mpr fun x mem => ?_
      obtain ⟨lease, id⟩ := x
      obtain ⟨le, at'⟩ := List.mk_mem_zipIdx_iff_le_and_getElem?_sub.mp mem
      obtain ⟨_, -, -, -, e, stored, held, item⟩ := takes lease (List.mem_of_getElem? at')
      exact ⟨rfl, lease, (List.getElem?_append_right le).trans at', rfl, e, stored, held, item⟩
    seqs := by
      have seqs : ((leases.zipIdx taken.length).map Live.take).map (·.held.seq) = leases.map (·.seq) := by
        rw [List.map_map]
        conv => rhs; rw [← List.zipIdx_map_fst taken.length leases, List.map_map]
        rfl
      rw [List.map_append, seqs]
      refine List.nodup_append.mpr ⟨h.seqs, nodup, ?_⟩
      rintro seq old _ new rfl
      obtain ⟨l, mem, rfl⟩ := List.mem_map.mp old
      obtain ⟨lease, mem', same⟩ := List.mem_map.mp new
      obtain ⟨e, stored, free, -⟩ := takes lease mem'
      obtain ⟨-, _, -, -, kept⟩ := h.holds l mem
      unfold Live.Stored at kept
      rw [same] at stored
      split at kept
      · exact nomatch kept.2.symm.trans stored
      · obtain ⟨e', stored', held, -⟩ := kept
        obtain rfl := Option.some.inj (stored'.symm.trans stored)
        have leased := heldBy_leased held
        rw [free] at leased
        cases leased
    once := fun id => by
      have before := h.once id
      rw [List.countP_append, countP_take, List.length_append]
      split at before <;> split <;> split <;> omega
    settled := fun call mem => by
      obtain ⟨lease, at', settles⟩ := h.settled call mem
      exact ⟨lease, append_getElem? at' leases, settles⟩
    inFlight := by rw [List.length_append, List.length_map, List.length_zipIdx, h.inFlight]
    load := fun slot => by
      have none := List.countP_eq_zero.mpr fun l mem => Bool.eq_false_iff.mp (idle l mem slot)
      rw [List.countP_append, none]
      exact h.load slot
    made := List.forall_mem_append.mpr ⟨h.made, fun l mem slot sends => by
      rw [idle l mem slot] at sends
      cases sends⟩
    placed := h.placed }

end

/-! ### Runs -/

namespace System

structure Inv (s : System) : Prop where
  sound : Sound s.consumer s.client s.live s.taken s.calls
  /-- A delivery that has ended is not held any more. -/
  going : ∀ l ∈ s.live, ∀ how, l.delivery.phase ≠ .ended how

section
variable {s : System} {d : Dispatcher} {i : Nat} {l l' : Live}

/-- A delivery lets go of its lease once, whether it acks or not. -/
theorem finish_eq (unacked : l.held.acked = false) (how : End) (s : System) :
    s.finish how l = { s.callFor l (how.op l.held.seq) with
      consumer := { s.consumer with inFlight := s.consumer.inFlight - 1 } } := by
  cases how with
  | released =>
    rw [finish, dropHeld, unacked]
    rfl
  | _ => rfl

theorem goOn_inv (at' : d.deliveries[i]? = some l') (s : System)
    (sound : Sound s.consumer s.client (l :: d.deliveries.eraseIdx i) s.taken s.calls)
    (going : ∀ x ∈ d.deliveries.eraseIdx i, ∀ how, x.delivery.phase ≠ .ended how) : Inv (s.goOn d i l) := by
  unfold goOn
  split
  · rename_i how ended
    rw [finish_eq (List.forall_mem_cons.mp sound.holds).1.unacked]
    exact ⟨sound.settle ended, going⟩
  · rename_i goes
    have perm := List.set_perm_cons_eraseIdx (List.getElem?_eq_some_iff.mp at').1 l
    refine ⟨sound.perm perm, fun x mem => ?_⟩
    rcases List.mem_cons.mp (perm.mem_iff.mp mem) with rfl | mem
    · exact goes
    · exact going x mem

theorem Inv.head (h : Inv s) (dispatcher : s.dispatcher = some d) (at' : d.deliveries[i]? = some l) :
    Sound s.consumer s.client (l :: d.deliveries.eraseIdx i) s.taken s.calls ∧
      (∀ x ∈ d.deliveries.eraseIdx i, ∀ how, x.delivery.phase ≠ .ended how) ∧
      ∀ slot, l.delivery.sends slot = true → 0 < (s.consumer.heap slot).inFlight := by
  have live : s.live = d.deliveries := by rw [System.live, dispatcher, Option.elim_some]
  obtain ⟨lt, rfl⟩ := List.getElem?_eq_some_iff.mp at'
  have perm := List.getElem_cons_eraseIdx_perm lt
  refine ⟨h.sound.perm (perm.trans (.of_eq live.symm)), fun x mem => h.going x (live ▸ List.mem_of_mem_eraseIdx mem), fun slot sends => ?_⟩
  rw [h.sound.load, live]
  exact List.countP_pos_iff.mpr ⟨_, List.getElem_mem lt, sends⟩

theorem Inv.dropAt (h : Inv s) (i : Nat) (now : Instant) : Inv (s.dropAt i now) ∧ (s.dropAt i now).live = s.live.eraseIdx i := by
  unfold System.dropAt
  cases hd : s.dispatcher with
  | none => exact ⟨h, by rw [live, hd]; rfl⟩
  | some d =>
    have live : s.live = d.deliveries := by rw [System.live, hd, Option.elim_some]
    dsimp only
    split
    · rename_i none
      refine ⟨h, ?_⟩
      rw [live, List.eraseIdx_of_length_le (List.getElem?_eq_none_iff.mp none)]
    · rename_i l at'
      obtain ⟨sound, going, taken⟩ := h.head hd at'
      have moves := Moves.drop taken now
      refine ⟨goOn_inv at' _ (sound.moves moves) going, ?_⟩
      have ended : ∃ how, (l.delivery.drop now s.consumer).1.phase = .ended how := by
        unfold Delivery.drop
        split
        · rename_i how ended
          exact ⟨how, ended⟩
        · exact ⟨_, rfl⟩
        · exact ⟨_, rfl⟩
      obtain ⟨how, ended⟩ := ended
      rw [live, goOn]
      dsimp only
      rw [ended]
      dsimp only
      rw [finish_eq]
      · rfl
      · exact (List.forall_mem_cons.mp sound.holds).1.unacked

theorem Inv.dropAll (h : Inv s) (now : Instant) : Inv (s.dropAll now) ∧ (s.dropAll now).live = [] := by
  have all (list : List Live) : ∀ s : System, Inv s → s.live.length = list.length →
      Inv (list.foldl (fun s _ => s.dropAt 0 now) s) ∧ (list.foldl (fun s _ => s.dropAt 0 now) s).live = [] := by
    induction list with
    | nil => exact fun s h length => ⟨h, List.length_eq_zero_iff.mp length⟩
    | cons x list ih =>
      intro s h length
      obtain ⟨next, live⟩ := h.dropAt 0 now
      refine ih _ next ?_
      rw [live, List.length_eraseIdx, length]
      exact if_pos (Nat.succ_pos _)
  exact all s.live s h rfl

theorem Inv.lease (h : Inv s) (dispatcher : s.dispatcher = some d) (now : Instant) : Inv (s.lease d now) := by
  have live : s.live = d.deliveries := by rw [System.live, dispatcher, Option.elim_some]
  unfold System.lease
  dsimp only
  split
  · have sound := h.sound.take (s.consumer.targets.opts.maxInFlight - d.deliveries.length) now
    rw [live] at sound
    refine ⟨sound, List.forall_mem_append.mpr ⟨live ▸ h.going, fun x mem how ended => ?_⟩⟩
    obtain ⟨x, -, rfl⟩ := List.mem_map.mp mem
    cases ended
  · exact h

theorem foreign_touches {op : Op Envelope} (callable : foreign op = true) (other : op ≠ .drainAll) (seq : Nat) : ¬op.touches seq := by
  cases op with
  | drainAll => exact absurd rfl other
  | held | ackBelow | ackAll | expire | ackSeq | releaseSeq => cases callable
  | _ => exact id

theorem Inv.of_live (h : Inv s) {dispatcher : Option Dispatcher} (same : dispatcher.elim [] (·.deliveries) = s.live) :
    Inv { s with dispatcher } := by
  have live : System.live { s with dispatcher } = s.live := same
  refine ⟨?_, ?_⟩
  · rw [live]
    exact h.sound
  · rw [live]
    exact h.going

theorem Inv.call (h : Inv s) (op : Op Envelope) (drains : Bool) (drain : drains = true → op = .drainAll)
    (other : drains = false → ∀ seq, ¬op.touches seq) :
    Inv { s with
      client := (Client.step op s.client).2
      dispatcher := s.dispatcher.map fun d =>
        { d with deliveries := d.deliveries.map fun l => { l with drained := l.drained || drains } } } := by
  let drained (l : Live) : Live := { l with drained := l.drained || drains }
  have live : (s.dispatcher.map fun d => { d with deliveries := d.deliveries.map drained }).elim [] (·.deliveries) =
      s.live.map drained := by
    rw [System.live]
    cases s.dispatcher <;> rfl
  have sound := h.sound.call op drain other
  have going : ∀ x ∈ s.live.map drained, ∀ how, x.delivery.phase ≠ .ended how := List.forall_mem_map.mpr h.going
  rw [← live] at sound going
  exact ⟨sound, going⟩

theorem Inv.step (h : Inv s) (sendable : Str → Bool) (e : Event) : Inv (s.step sendable e) := by
  have endpoints {c : PushConsumer} (grown : Grown s.consumer c) (placed : Placed c) : Inv { s with consumer := c } :=
    ⟨h.sound.grown grown placed, h.going⟩
  cases e with
  | call op =>
    simp only [System.step]
    split
    · rename_i callable
      refine h.call op _ (fun on => ?_) fun off => foreign_touches callable ?_
      · cases op <;> first | rfl | cases on
      · rintro rfl
        cases off
    · exact h
  | setEndpoints targets opts now =>
    obtain ⟨grown, placed⟩ := setEndpoints_grown sendable h.sound.placed targets opts now
    exact endpoints grown placed
  | setOptions opts => exact endpoints ⟨Nat.le_refl _, fun _ => .inl rfl, rfl⟩ h.sound.placed
  | setRuntimeEndpoint endpoint now =>
    obtain ⟨grown, placed⟩ := setRuntimeEndpoint_grown sendable h.sound.placed endpoint now
    exact endpoints grown placed
  | pause => exact endpoints ⟨Nat.le_refl _, fun _ => .inl rfl, rfl⟩ h.sound.placed
  | resume => exact endpoints ⟨Nat.le_refl _, fun _ => .inl rfl, rfl⟩ h.sound.placed
  | spawn =>
    refine h.of_live ?_
    cases hd : s.dispatcher <;> simp [System.live, hd]
  | cancel =>
    refine h.of_live ?_
    cases hd : s.dispatcher <;> simp [System.live, hd]
  | dispatch now =>
    simp only [System.step]
    cases hd : s.dispatcher with
    | none => exact h
    | some d =>
      dsimp only
      split
      · split
        · rename_i none
          refine h.of_live ?_
          rw [System.live, hd, Option.elim_none, Option.elim_some, List.isEmpty_iff.mp none]
        · exact h
      · split
        · exact h
        · exact h.lease hd now
  | poll i wake =>
    simp only [System.step]
    cases hd : s.dispatcher with
    | none => exact h
    | some d =>
      dsimp only
      split
      · exact h
      · rename_i l at'
        obtain ⟨sound, going, taken⟩ := h.head hd at'
        exact goOn_inv at' _ (sound.moves (.poll taken d.cancelled wake)) going
  | drop i now => exact (h.dropAt i now).1
  | force now =>
    obtain ⟨dropped, none⟩ := h.dropAll now
    have sound := dropped.sound
    rw [none] at sound
    exact ⟨sound, List.forall_mem_nil _⟩

theorem inv_new (sendable : Str → Bool) (endpoints : List Endpoint) (opts : PushOptions) (address : Nat) (cfg : QueueConfig) :
    Inv (new sendable endpoints opts address cfg) := by
  obtain ⟨placed, load, inFlight⟩ := new_placed sendable endpoints opts
  have none (id : Nat) : 0 = if id < 0 then 1 else 0 := (if_neg (Nat.not_lt_zero id)).symm
  exact ⟨⟨⟨_, clientRefines_new address cfg⟩, List.forall_mem_nil _, .nil, none, List.forall_mem_nil _, inFlight, load,
    List.forall_mem_nil _, placed⟩, List.forall_mem_nil _⟩

theorem inv_run (sendable : Str → Bool) (endpoints : List Endpoint) (opts : PushOptions) (address : Nat) (cfg : QueueConfig)
    (events : List Event) : Inv (run sendable endpoints opts address cfg events) :=
  List.foldlRecOn events (System.step sendable) (inv_new sendable endpoints opts address cfg) fun _ h e _ => h.step sendable e

/-- Each lease taken is held by one delivery that goes on, or has been ended by one call: an ack of what was delivered or
    dead-lettered, else a release that leaves the update in its place. The consumer counts the deliveries, each slot the requests. -/
theorem leases_settled (sendable : Str → Bool) (endpoints : List Endpoint) (opts : PushOptions) (address : Nat) (cfg : QueueConfig)
    (events : List Event) :
    let s := run sendable endpoints opts address cfg events
    (∀ id < s.taken.length, s.calls.countP (·.live.id = id) + s.live.countP (·.id = id) = 1) ∧
      (∀ call ∈ s.calls, ∃ lease, s.taken[call.live.id]? = some lease ∧ call.Settles lease) ∧
      (∀ l ∈ s.live, l.Holds s.client.queue s.taken ∧ ∀ how, l.delivery.phase ≠ .ended how) ∧
      s.consumer.inFlight = s.live.length ∧
      ∀ slot, (s.consumer.heap slot).inFlight = s.live.countP (·.delivery.sends slot) := by
  intro s
  obtain ⟨sound, going⟩ := inv_run sendable endpoints opts address cfg events
  refine ⟨fun id lt => ?_, sound.settled, fun l mem => ⟨sound.holds l mem, going l mem⟩, sound.inFlight, sound.load⟩
  rw [sound.once, if_pos lt]

end

end System

end Tgin.Push
