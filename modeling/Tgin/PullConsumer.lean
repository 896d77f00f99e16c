import Tgin.Queue.Holders

/-! A consumer that downstream bots poll (`tgin-core/src/consumer/pull.rs`). Each poll acks by offset, gets back what
    its instance still holds, and otherwise leases new updates. Every call on the queue is one atomic step; between
    two of them any other poll, admission or expiry may run. -/

namespace Tgin
open Queue

variable {T : Type}

structure PollRequest where
  instanceId : HolderId
  /-- Acks the instance's updates below it when positive, all of them when negative. -/
  offset : Int
  limit : Nat
  timeout : Duration
  limit_range : 1 ≤ limit ∧ limit ≤ 100
  timeout_le : timeout ≤ 50 * 10 ^ 9

/-- The payloads handed to the instance, in queue order. -/
structure PollResponse (T : Type) where
  items : List T
  deriving DecidableEq, Repr

def PollResponse.fromLeases (leases : List (Lease T)) : PollResponse T := { items := leases.map (·.item) }

structure PullConsumer (T : Type) where
  queue : LeaseQueue T
  draining : Bool
  paused : Bool

namespace PullConsumer

/-- Longest an empty poll waits once the consumer drains. -/
def DRAIN_HOLD : Duration := 500 * 10 ^ 6

def new (address : Nat) (cfg : QueueConfig) : PullConsumer T :=
  { queue := .new address cfg, draining := false, paused := false }

/-- Acks the instance's leases by `offset`: how many there were and their items. -/
def ack (c : PullConsumer T) (instanceId : HolderId) (offset : Int) : (Nat × List T) × PullConsumer T :=
  if offset = 0 then ((0, []), c)
  else
    let (acked, queue) := if offset > 0 then c.queue.ackBelow instanceId offset else c.queue.ackAll instanceId
    (acked, { c with queue })

/-- Where a poll is. -/
inductive Phase (T : Type) where
  | acking
  | holding
  /-- At the head of the loop, with the end of the drain hold once one began. -/
  | looking (drainDeadline : Option Instant)
  /-- It read the clock and found the consumer not paused. -/
  | leasing (now : Instant) (drainDeadline : Option Instant)
  /-- It leased nothing, and is about to see how long it may wait. -/
  | settling (now : Instant) (drainDeadline : Option Instant)
  | waiting (drainDeadline : Option Instant)
  | answered (response : PollResponse T)
  deriving DecidableEq, Repr

structure Poll (T : Type) where
  req : PollRequest
  start : Instant
  phase : Phase T

/-- The next step of `poll`; `now` is what the clock reads if this step reads it. -/
def advance (c : PullConsumer T) (poll : Poll T) (now : Instant) : Phase T × PullConsumer T :=
  let { req, start, phase } := poll
  match phase with
  | .acking => (.holding, (c.ack req.instanceId req.offset).2)
  | .holding =>
    let (held, queue) := c.queue.held req.instanceId req.offset start
    -- The rest stay leased and come back on a later poll.
    let held := held.take req.limit
    (if held.isEmpty then .looking none else .answered (.fromLeases held), { c with queue })
  | .looking drainDeadline => (if c.paused then .settling now drainDeadline else .leasing now drainDeadline, c)
  | .leasing now drainDeadline =>
    let (leased, queue) := c.queue.lease req.instanceId req.limit now
    (if leased.isEmpty then .settling now drainDeadline else .answered (.fromLeases leased), { c with queue })
  | .settling now drainDeadline =>
    let deadline := (Instant.checkedAdd start req.timeout).getD start
    let hold := drainDeadline.getD (now + DRAIN_HOLD)
    let (waitEnd, drainDeadline) := if c.draining then (min deadline hold, some hold) else (deadline, drainDeadline)
    (if now ≥ waitEnd then .answered ⟨[]⟩ else .waiting drainDeadline, c)
  -- A change of the queue or a resume woke it.
  | .waiting drainDeadline => (.looking drainDeadline, c)
  | .answered response => (.answered response, c)

/-- A consumer with the polls that came to it and the permits its admissions hold. -/
structure System (T : Type) where
  consumer : PullConsumer T
  permits : List Permit
  polls : List (Poll T)

/-- The calls only a poll, or the worker of a push consumer, makes. -/
def holderCall : Op T → Bool
  | .lease .. | .held .. | .ackBelow .. | .ackAll _ | .ackSeq .. | .releaseSeq .. => true
  | _ => false

inductive Event (T : Type) where
  /-- An admission, the expiry task, a purge or a reload calls the queue. -/
  | call (op : Op T)
  | poll (req : PollRequest) (start : Instant)
  | advance (poll : Nat) (now : Instant)
  /-- The wait of a poll ends by its timeout or by its cancellation. -/
  | stop (poll : Nat)
  | pause
  | resume
  | beginDrain
  | endDrain

namespace System

def new (address : Nat) (cfg : QueueConfig) : System T := { consumer := .new address cfg, permits := [], polls := [] }

def client (s : System T) : Client T := { queue := s.consumer.queue, permits := s.permits }

/-- The queue in its order, each update with its seq. -/
def entries (s : System T) : List (Nat × Entry T) := s.consumer.queue.inner.entries.toList

/-- A step that is not due does not happen. -/
def step (s : System T) (e : Event T) : System T :=
  match e with
  | .call op =>
    if holderCall op then s
    else
      let client := (Client.step op s.client).2
      { s with consumer := { s.consumer with queue := client.queue }, permits := client.permits }
  | .poll req start => { s with polls := s.polls ++ [{ req, start, phase := .acking }] }
  | .advance i now =>
    match s.polls[i]? with
    | none => s
    | some poll =>
      let (phase, consumer) := s.consumer.advance poll now
      { s with consumer, polls := s.polls.set i { poll with phase } }
  | .stop i =>
    match s.polls[i]? with
    | some ⟨req, start, .waiting _⟩ => { s with polls := s.polls.set i { req, start, phase := .answered ⟨[]⟩ } }
    | _ => s
  | .pause => { s with consumer := { s.consumer with paused := true } }
  | .resume => { s with consumer := { s.consumer with paused := false } }
  | .beginDrain => { s with consumer := { s.consumer with draining := true } }
  | .endDrain => { s with consumer := { s.consumer with draining := false } }

def runFrom (s : System T) (events : List (Event T)) : System T := events.foldl step s

def run (address : Nat) (cfg : QueueConfig) (events : List (Event T)) : System T := (new address cfg).runFrom events

/-! ### Every event makes at most one call on the queue -/

/-- The call on the queue an event makes. -/
def called (s : System T) : Event T → Option (Op T)
  | .call op => if holderCall op then none else some op
  | .advance i _ =>
    match s.polls[i]? with
    | some ⟨req, start, phase⟩ =>
      match phase with
      | .acking => if req.offset = 0 then none
        else if req.offset > 0 then some (.ackBelow req.instanceId req.offset) else some (.ackAll req.instanceId)
      | .holding => some (.held req.instanceId req.offset start)
      | .leasing now _ => some (.lease req.instanceId req.limit now)
      | _ => none
    | none => none
  | _ => none

/-- What a call leaves of a queue and the permits around it. -/
def after (client : Client T) : Option (Op T) → Client T
  | none => client
  | some op => (Client.step op client).2

theorem client_step (s : System T) (e : Event T) : (s.step e).client = after s.client (s.called e) := by
  cases e with
  | call op =>
    simp only [step, called]
    split <;> rfl
  | advance i now =>
    simp only [step, called]
    cases hp : s.polls[i]? with
    | none => rfl
    | some poll =>
      obtain ⟨req, start, phase⟩ := poll
      cases phase with
      | acking =>
        simp only [advance, ack]
        by_cases zero : req.offset = 0
        · rw [if_pos zero, if_pos zero]
          rfl
        · rw [if_neg zero, if_neg zero]
          split <;> rfl
      | settling now drainDeadline =>
        simp only [advance]
        split <;> rfl
      | _ => rfl
  | stop i =>
    simp only [step]
    split <;> rfl
  | _ => rfl

theorem endsLease_of_called {s : System T} {e : Event T} {op : Op T} (h : s.called e = some op) {x : Nat × Entry T}
    (ends : op.endsLease x) : ∃ now, e = .call (.expire now) ∧ op = .expire now := by
  cases e with
  | call op' =>
    simp only [called] at h
    by_cases holders : holderCall op'
    · rw [if_pos holders] at h
      cases h
    · rw [if_neg holders] at h
      obtain rfl := Option.some.inj h
      cases op' with
      | expire now => exact ⟨now, rfl, rfl⟩
      | releaseSeq holder seq => exact absurd rfl holders
      | _ => exact ends.elim
  | advance i _ =>
    simp only [called] at h
    split at h
    · split at h
      · split at h
        · cases h
        · split at h <;> obtain rfl := Option.some.inj h <;> exact ends.elim
      · obtain rfl := Option.some.inj h
        exact ends.elim
      · obtain rfl := Option.some.inj h
        exact ends.elim
      · cases h
    · cases h
  | _ => cases h

theorem refines_step {s : System T} {m : Model T} (h : ClientRefines s.client m) (e : Event T) :
    ∃ m, ClientRefines (s.step e).client m := by
  rw [client_step]
  cases s.called e with
  | none => exact ⟨m, h⟩
  | some op => exact ⟨_, (step_refines op h).2⟩

theorem refines_run (address : Nat) (cfg : QueueConfig) (events : List (Event T)) :
    ∃ m, ClientRefines (run address cfg events).client m := by
  suffices ∀ s : System T, (∃ m, ClientRefines s.client m) → ∃ m, ClientRefines (s.runFrom events).client m from
    this _ ⟨_, clientRefines_new address cfg⟩
  induction events with
  | nil => exact fun s h => h
  | cons e events ih => exact fun s ⟨_, h⟩ => ih (s.step e) (refines_step h e)

/-! ### One holder after the other -/

/-- The update `seq` was stored, and nobody but `holder` has it if it still is. -/
structure HeldOrGone (s : System T) (seq : Nat) (holder : HolderId) : Prop where
  old : seq < s.consumer.queue.inner.nextSeq
  held : ∀ e, (seq, e) ∈ s.entries → e.heldBy holder

/-- The expiry at `now` is due for the lease that `holder` has on the update `seq`. -/
def Expires (s : System T) (seq : Nat) (holder : HolderId) (now : Instant) : Prop :=
  ∃ e deadline, (seq, e) ∈ s.entries ∧ e.lease = some { holder, deadline := some deadline } ∧ deadline ≤ now

theorem heldOrGone_step {s : System T} {m : Model T} (refines : ClientRefines s.client m) {seq : Nat} {holder : HolderId}
    (h : s.HeldOrGone seq holder) (e : Event T) :
    (s.step e).HeldOrGone seq holder ∨ ∃ now, e = .call (.expire now) ∧ s.Expires seq holder now := by
  have nodup := refines.queue.inner.nodup_entries
  have entries : s.entries = m.entries := refines.queue.inner.entries
  have nextSeq : s.consumer.queue.inner.nextSeq = m.nextSeq := refines.queue.inner.nextSeq
  by_cases due : ∃ now, e = .call (.expire now) ∧ s.Expires seq holder now
  · exact .inr due
  · have client := client_step s e
    cases call : s.called e with
    | none =>
      rw [call] at client
      have queue : (s.step e).consumer.queue = s.consumer.queue := congrArg Client.queue client
      refine .inl ⟨queue ▸ h.old, fun e' he => h.held e' ?_⟩
      rw [System.entries, queue] at he
      exact he
    | some op =>
      rw [call] at client
      have after := (step_refines op refines).2
      have queue : (s.step e).consumer.queue = (Client.step op s.client).2.queue := congrArg Client.queue client
      left
      constructor
      · rw [queue, after.queue.inner.nextSeq]
        exact Nat.lt_of_lt_of_le (nextSeq ▸ h.old) (Model.step_nextSeq nodup op)
      · intro e' he
        rw [System.entries, queue, after.queue.inner.entries] at he
        obtain ⟨⟨_, x⟩, hx, ⟨rfl, leftOf⟩⟩ := Model.step_leftOf nodup op _ he (nextSeq ▸ h.old)
        have held := h.held x (entries ▸ hx)
        rcases leftOf holder held with held | ends
        · exact held
        · obtain ⟨now, rfl, rfl⟩ := endsLease_of_called call ends
          obtain ⟨holding, hl, deadline, hd, le⟩ := ends
          obtain ⟨holding', hl', rfl⟩ := heldBy_iff.mp held
          obtain rfl := Option.some.inj (hl.symm.trans hl')
          refine absurd ⟨now, rfl, x, deadline, entries ▸ hx, ?_, le⟩ due
          rw [hl', ← Option.mem_def.mp hd]

/-- Between a holder's having an update and anyone else's, an expiry was due for the holder's lease. -/
theorem runFrom_heldOrGone {s : System T} {m : Model T} (refines : ClientRefines s.client m) {seq : Nat} {holder : HolderId}
    (h : s.HeldOrGone seq holder) (later : List (Event T)) :
    (s.runFrom later).HeldOrGone seq holder ∨
      ∃ mid now rest, later = mid ++ .call (.expire now) :: rest ∧ (s.runFrom mid).Expires seq holder now := by
  induction later generalizing s m with
  | nil => exact .inl h
  | cons e later ih =>
    rcases heldOrGone_step refines h e with h | ⟨now, rfl, expires⟩
    · obtain ⟨m, refines⟩ := refines_step refines e
      rcases ih refines h with h | ⟨mid, now, rest, rfl, expires⟩
      · exact .inl h
      · exact .inr ⟨e :: mid, now, rest, rfl, expires⟩
    · exact .inr ⟨[], now, later, rfl, expires⟩

/-! ### What a poll acknowledges and answers -/

/-- The instance has leased the update, and the offset acknowledges it. -/
def acknowledges (req : PollRequest) (e : Entry T) : Bool :=
  e.heldBy req.instanceId && (0 < req.offset && e.ackId < req.offset || req.offset < 0)

/-- The instance has leased the update, at or above the offset. -/
def redelivers (req : PollRequest) (e : Entry T) : Bool := e.heldBy req.instanceId && req.offset ≤ e.ackId

/-- The updates with the leases that match `p` now `holder`'s from `now` on. -/
def leasing (s : System T) (p : Nat × Entry T → Prop) [DecidablePred p] (holder : HolderId) (now : Instant) :
    List (Nat × Entry T) :=
  let lease := some { holder, deadline := Instant.checkedAdd now s.consumer.queue.inner.cfg.leaseTimeout }
  s.entries.map fun x => (x.1, if p x then { x.2 with lease } else x.2)

def answer (updates : List (Nat × Entry T)) : Phase T := .answered ⟨updates.map (·.2.item)⟩

/-- What the next step of the `i`-th poll does. -/
structure StepOf (s : System T) (i : Nat) (poll : Poll T) (now : Instant) (s' : System T) (phase : Phase T) : Prop where
  polls : s'.polls = s.polls.set i { poll with phase }
  /-- It acknowledges what the offset says of its own leases. -/
  acking : poll.phase = .acking → s'.entries = s.entries.filter fun x => !acknowledges poll.req x.2
  /-- Another instance's leases stay. -/
  sparing : poll.phase = .acking → ∀ x ∈ s.entries, ∀ other, other ≠ poll.req.instanceId → x.2.heldBy other → x ∈ s'.entries
  /-- It answers by the first updates its instance still has at or above the offset, if there are any. -/
  holding : poll.phase = .holding →
    let held := s.entries.filter fun x => redelivers poll.req x.2
    phase = (if held.isEmpty then .looking none else answer (held.take poll.req.limit)) ∧
      s'.entries = s.leasing (fun x => redelivers poll.req x.2) poll.req.instanceId poll.start
  /-- Otherwise it answers by updates nobody had leased. -/
  leasing : ∀ clock drainDeadline, poll.phase = .leasing clock drainDeadline →
    ∃ picked, picked.Sublist s.entries ∧ picked.length ≤ poll.req.limit ∧ (∀ x ∈ picked, x.2.lease = none) ∧
      phase = (if picked.isEmpty then .settling clock drainDeadline else answer picked) ∧
      s'.entries = s.leasing (fun x => x.1 ∈ picked.map (·.1)) poll.req.instanceId clock
  /-- No other step touches the queue or answers by an update. -/
  other : poll.phase ≠ .acking → poll.phase ≠ .holding → (∀ clock drainDeadline, poll.phase ≠ .leasing clock drainDeadline) →
    s'.entries = s.entries ∧ ∀ response, phase = .answered response → poll.phase = .answered response ∨ response = ⟨[]⟩

section
variable {s : System T} {m : Model T}

theorem entries_step (refines : ClientRefines s.client m) {e : Event T} {op : Op T} (call : s.called e = some op) :
    (s.step e).entries = (Model.step op m).2.entries := by
  have client := client_step s e
  rw [call] at client
  have queue : (s.step e).consumer.queue = (Client.step op s.client).2.queue := congrArg Client.queue client
  rw [System.entries, queue]
  exact (step_refines op refines).2.queue.inner.entries

theorem entries_untouched {e : Event T} (call : s.called e = none) : (s.step e).entries = s.entries := by
  have client := client_step s e
  rw [call] at client
  have queue : (s.step e).consumer.queue = s.consumer.queue := congrArg Client.queue client
  rw [System.entries, queue]
  rfl

theorem advance_step {i : Nat} {poll : Poll T} (hi : s.polls[i]? = some poll) (now : Instant) :
    (s.step (.advance i now)).polls = s.polls.set i { poll with phase := (s.consumer.advance poll now).1 } := by
  simp only [step, hi]

theorem called_advance {i : Nat} {req : PollRequest} {start : Instant} {phase : Phase T}
    (hi : s.polls[i]? = some ⟨req, start, phase⟩) (now : Instant) :
    s.called (.advance i now) =
      match phase with
      | .acking => if req.offset = 0 then none
        else if req.offset > 0 then some (.ackBelow req.instanceId req.offset) else some (.ackAll req.instanceId)
      | .holding => some (.held req.instanceId req.offset start)
      | .leasing now _ => some (.lease req.instanceId req.limit now)
      | _ => none := by
  cases phase <;> simp only [called, hi]

/-- The ack of a poll, by the sign of its offset. -/
theorem step_acking (refines : ClientRefines s.client m) {i : Nat} {req : PollRequest} {start : Instant}
    (hi : s.polls[i]? = some ⟨req, start, .acking⟩) (now : Instant) :
    (s.step (.advance i now)).entries = s.entries.filter fun x => !acknowledges req x.2 := by
  have call := called_advance hi now
  have entries : s.entries = m.entries := refines.queue.inner.entries
  rcases Int.lt_trichotomy req.offset 0 with negative | zero | positive
  · simp only [negative.ne, if_false, not_lt.mpr negative.le] at call
    rw [entries_step refines call, entries]
    refine List.filter_congr fun x _ => ?_
    simp [acknowledges, negative]
  · simp only [zero, if_true] at call
    rw [entries_untouched call]
    refine (List.filter_eq_self.mpr fun x _ => ?_).symm
    simp [acknowledges, zero]
  · simp only [positive.ne', if_false, gt_iff_lt, positive, if_true] at call
    rw [entries_step refines call, entries]
    refine List.filter_congr fun x _ => ?_
    simp [acknowledges, positive, not_lt.mpr positive.le]

theorem not_acknowledges {req : PollRequest} {other : HolderId} (ne : other ≠ req.instanceId) {e : Entry T}
    (held : e.heldBy other) : acknowledges req e = false := by
  obtain ⟨holding, hl, rfl⟩ := heldBy_iff.mp held
  simp [acknowledges, Entry.heldBy, hl, ne]

theorem step_holding (refines : ClientRefines s.client m) {i : Nat} {req : PollRequest} {start : Instant}
    (hi : s.polls[i]? = some ⟨req, start, .holding⟩) (now : Instant) :
    let held := s.entries.filter fun x => redelivers req x.2
    (s.consumer.advance ⟨req, start, .holding⟩ now).1 =
        (if held.isEmpty then .looking none else answer (held.take req.limit)) ∧
      (s.step (.advance i now)).entries = s.leasing (fun x => redelivers req x.2) req.instanceId start := by
  have entries : s.entries = m.entries := refines.queue.inner.entries
  have cfg : s.consumer.queue.inner.cfg = m.cfg := refines.queue.inner.cfg
  intro held
  constructor
  · have leases : (s.consumer.queue.held req.instanceId req.offset start).1 = held.map fun x => x.2.toLease x.1 := by
      refine (held_refines refines.queue req.instanceId req.offset start).1.trans ?_
      simp only [held, entries]
      rfl
    simp only [advance, leases]
    cases hh : held with
    | nil => simp
    | cons x rest =>
      obtain ⟨n, hn⟩ := Nat.exists_eq_add_of_le' req.limit_range.1
      simp [hn, answer, PollResponse.fromLeases, Entry.toLease, Function.comp_def]
  · rw [entries_step refines (called_advance hi now), System.leasing, entries, cfg]
    rfl

theorem step_leasing (refines : ClientRefines s.client m) {i : Nat} {req : PollRequest} {start clock : Instant}
    {drainDeadline : Option Instant} (hi : s.polls[i]? = some ⟨req, start, .leasing clock drainDeadline⟩) (now : Instant) :
    ∃ picked, picked.Sublist s.entries ∧ picked.length ≤ req.limit ∧ (∀ x ∈ picked, x.2.lease = none) ∧
      (s.consumer.advance ⟨req, start, .leasing clock drainDeadline⟩ now).1 =
        (if picked.isEmpty then .settling clock drainDeadline else answer picked) ∧
      (s.step (.advance i now)).entries = s.leasing (fun x => x.1 ∈ picked.map (·.1)) req.instanceId clock := by
  have entries : s.entries = m.entries := refines.queue.inner.entries
  have cfg : s.consumer.queue.inner.cfg = m.cfg := refines.queue.inner.cfg
  set picked := (m.entries.filter m.ready).take req.limit with hpicked
  refine ⟨picked, ?_, List.length_take_le _ _, fun x hx => ?_, ?_, ?_⟩
  · rw [entries]
    exact (List.take_sublist _ _).trans List.filter_sublist
  · have ready := (List.mem_filter.mp (List.mem_of_mem_take hx)).2
    exact Option.isNone_iff_eq_none.mp (Bool.and_eq_true_iff.mp ready).1
  · have leases : (s.consumer.queue.lease req.instanceId req.limit clock).1 = picked.map fun x => x.2.toLease x.1 :=
      (lease_refines refines.queue req.instanceId req.limit clock).1
    simp only [advance, leases, List.isEmpty_map]
    simp [answer, PollResponse.fromLeases, Entry.toLease, Function.comp_def]
  · rw [entries_step refines (called_advance hi now), System.leasing, entries, cfg]
    rfl

theorem stepOf_advance (refines : ClientRefines s.client m) {i : Nat} {poll : Poll T} (hi : s.polls[i]? = some poll)
    (now : Instant) : s.StepOf i poll now (s.step (.advance i now)) (s.consumer.advance poll now).1 := by
  obtain ⟨req, start, phase⟩ := poll
  refine ⟨advance_step hi now, ?_, ?_, ?_, ?_, ?_⟩
  · rintro rfl
    exact step_acking refines hi now
  · rintro rfl x hx other ne held
    rw [step_acking refines hi now]
    exact List.mem_filter.mpr ⟨hx, by rw [not_acknowledges ne held]; rfl⟩
  · rintro rfl
    exact step_holding refines hi now
  · rintro clock drainDeadline rfl
    exact step_leasing refines hi now
  · intro acking holding leasing
    have call := called_advance hi now
    cases phase with
    | acking => exact absurd rfl acking
    | holding => exact absurd rfl holding
    | leasing clock drainDeadline => exact absurd rfl (leasing clock drainDeadline)
    | looking drainDeadline =>
      refine ⟨entries_untouched call, fun response h => ?_⟩
      simp only [advance] at h
      split at h <;> cases h
    | settling clock drainDeadline =>
      refine ⟨entries_untouched call, fun response h => ?_⟩
      simp only [advance] at h
      generalize (if s.consumer.draining then _ else _ : Instant × Option Instant) = wait at h
      split at h
      · exact .inr (Phase.answered.inj h).symm
      · cases h
    | waiting drainDeadline => exact ⟨entries_untouched call, nofun⟩
    | answered response => exact ⟨entries_untouched call, fun _ h => .inl h⟩

/-- A poll changes only by its own steps and by the end of its wait, which answers nothing. -/
theorem poll_changes {e : Event T} {i : Nat} {poll poll' : Poll T} (hi : s.polls[i]? = some poll)
    (hi' : (s.step e).polls[i]? = some poll') (changed : poll' ≠ poll) :
    (∃ now, e = .advance i now) ∨ e = .stop i ∧ poll'.phase = .answered ⟨[]⟩ := by
  have kept (h : s.polls[i]? = some poll') : False := changed (Option.some.inj (h.symm.trans hi))
  cases e with
  | call op =>
    simp only [step] at hi'
    split at hi' <;> exact (kept hi').elim
  | poll req start =>
    simp only [step] at hi'
    rw [List.getElem?_append_left (List.getElem?_eq_some_iff.mp hi).1] at hi'
    exact (kept hi').elim
  | advance j now =>
    by_cases same : j = i
    · exact .inl ⟨now, same ▸ rfl⟩
    · simp only [step] at hi'
      split at hi'
      · exact (kept hi').elim
      · rw [List.getElem?_set_ne same] at hi'
        exact (kept hi').elim
  | stop j =>
    simp only [step] at hi'
    split at hi'
    · by_cases same : j = i
      · subst same
        rw [List.getElem?_set_self (List.getElem?_eq_some_iff.mp hi).1] at hi'
        exact .inr ⟨rfl, Option.some.inj hi' ▸ rfl⟩
      · rw [List.getElem?_set_ne same] at hi'
        exact (kept hi').elim
    · exact (kept hi').elim
  | _ => exact (kept hi').elim

end

/-- However the polls of one consumer, its admissions and its expiries interleave: a poll acknowledges by its offset
    among its instance's leases only, answers by what its instance still has and otherwise by updates nobody had
    leased, and between one instance's lease of an update and another's an expiry was due for the first. -/
theorem run_polls (address : Nat) (cfg : QueueConfig) (events : List (Event T)) :
    let s := run address cfg events
    (∀ i poll now, s.polls[i]? = some poll → ∃ phase, s.StepOf i poll now (s.step (.advance i now)) phase) ∧
    (∀ e i poll poll', s.polls[i]? = some poll → (s.step e).polls[i]? = some poll' → poll' ≠ poll →
      (∃ now, e = .advance i now) ∨ e = .stop i ∧ poll'.phase = .answered ⟨[]⟩) ∧
    ∀ later seq e e' holder other, (seq, e) ∈ s.entries → e.heldBy holder →
      (seq, e') ∈ (s.runFrom later).entries → e'.heldBy other → holder ≠ other →
      ∃ mid now rest, later = mid ++ .call (.expire now) :: rest ∧ (s.runFrom mid).Expires seq holder now := by
  intro s
  obtain ⟨m, refines⟩ : ∃ m, ClientRefines s.client m := refines_run address cfg events
  refine ⟨fun i poll now hi => ⟨_, stepOf_advance refines hi now⟩, fun e i poll poll' hi hi' changed => ?_, ?_⟩
  · exact poll_changes hi hi' changed
  · intro later seq e e' holder other he held he' held' ne
    have nodup := refines.queue.inner.nodup_entries
    have entries : s.entries = m.entries := refines.queue.inner.entries
    rw [entries] at he
    have alone : ∀ e', (seq, e') ∈ s.entries → e'.heldBy holder := fun e' he' => by
      rw [entries] at he'
      obtain rfl : e' = e := congrArg Prod.snd (List.inj_on_of_nodup_map nodup he' he rfl)
      exact held
    have stored : seq ∈ s.consumer.queue.inner.entries :=
      Std.ExtTreeMap.mem_iff_isSome_getElem?.mpr (Option.isSome_of_eq_some (refines.queue.inner.mem.mp he))
    have old : seq < s.consumer.queue.inner.nextSeq := refines.queue.inner.exact.fresh seq stored
    rcases runFrom_heldOrGone refines ⟨old, alone⟩ later with still | expires
    · obtain ⟨holding, hl, rfl⟩ := heldBy_iff.mp (still.held e' he')
      obtain ⟨holding', hl', rfl⟩ := heldBy_iff.mp held'
      exact absurd (congrArg Holding.holder (Option.some.inj (hl.symm.trans hl'))) ne
    · exact expires

/-- One update, which instance "a" leases before it goes silent; then its lease expires and "b" polls. -/
def silentInstance : List (Event Nat) :=
  [.call (.tryReserve 1), .call (.commit 0 10 none 5), .poll ⟨"a", 0, 1, 0, by decide, by decide⟩ 0,
    .advance 0 0, .advance 0 0, .advance 0 0, .advance 0 0]

def nextInstance : List (Event Nat) :=
  [.call (.expire 10), .poll ⟨"b", 0, 1, 0, by decide, by decide⟩ 10, .advance 1 10, .advance 1 10, .advance 1 10, .advance 1 10]

def oneUpdate : QueueConfig :=
  { capacity := 1, capacityBytes := 1, leaseTimeout := 10, ordering := .none, onFull := .backpressure }

theorem run_polls_nextInstance :
    ((run 0 oneUpdate silentInstance).runFrom nextInstance).polls.map (·.phase) = [.answered ⟨[10]⟩, .answered ⟨[10]⟩] ∧
      ∃ mid now rest, nextInstance = mid ++ .call (.expire now) :: rest ∧
        ((run 0 oneUpdate silentInstance).runFrom mid).Expires 0 "a" now :=
  ⟨by decide, (run_polls 0 oneUpdate silentInstance).2.2 nextInstance 0
    { item := 10, key := none, ackId := 5, size := 1, lease := some ⟨"a", some 10⟩ }
    { item := 10, key := none, ackId := 5, size := 1, lease := some ⟨"b", some 20⟩ } "a" "b" (by decide) (by decide)
    (by decide) (by decide) (by decide)⟩

end System
end PullConsumer
end Tgin
