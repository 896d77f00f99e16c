import Tgin.Push.Choice

/-! One delivery under a retry policy that stays the same: when its attempts start, how many there are, and how it ends. What
    else it meets is arbitrary: the endpoints and their breakers, the answers, the instants, a cancellation, a drop. -/

namespace Tgin.Push
open Engine (Envelope PushOptions RuntimeEndpoint)
open Queue (Lease)

/-! ### Events -/

/-- What happens to a delivery. -/
inductive Event where
  /-- It is polled, with the consumer as it is then. -/
  | poll (consumer : PushConsumer) (cancelled : Bool) (wake : Wake)
  | drop (consumer : PushConsumer) (now : Instant)

/-- The consumer has the retry policy. -/
def Event.Keeps (retry : Config.Retry) : Event → Prop
  | .poll consumer _ _ | .drop consumer _ => consumer.targets.opts.retry = retry

namespace Delivery

def step (d : Delivery) : Event → Delivery
  | .poll consumer cancelled wake => (d.poll cancelled wake consumer).1
  | .drop consumer now => (d.drop now consumer).1

def after (d : Delivery) (events : List Event) : Delivery := events.foldl step d

/-- Whether a delivery that may go on at `now` looks for an endpoint. -/
def looks (d : Delivery) (now : Instant) : Bool :=
  match d.phase with
  | .choosing | .waiting _ => true
  | .sleeping till => till ≤ now
  | _ => false

/-- The instant at which the event starts an attempt. -/
def startsAt (d : Delivery) : Event → Option Instant
  | .poll consumer cancelled (.look now) =>
    match d.looks now, (consumer.choose d.envelope cancelled now).1 with
    | true, .send _ => some now
    | _, _ => none
  | _ => none

/-- The instants at which attempts start. -/
def attempts (d : Delivery) : List Event → List Instant
  | [] => []
  | e :: events => (d.startsAt e).toList ++ (d.step e).attempts events

/-- When the update is too old; there is no such instant when it cannot be represented. -/
def deadline (d : Delivery) (retry : Config.Retry) : Option Instant := Instant.checkedAdd d.envelope.receivedAt retry.maxAge

/-- How long to wait before the next attempt. -/
def retryDelay (d : Delivery) (retry : Config.Retry) (retryAfter : Option Duration) (drawn : Nat) : Duration :=
  let backoff := d.backoff.getD { initial := retry.initial, max := retry.max, floor := 0, attempt := 0 }
  honorRetryAfter (backoff.nextDelay drawn).1 retryAfter retry.max

/-- Why an event ends a delivery in a dead letter, after `n` attempts. -/
inductive Dies (retry : Config.Retry) (n : Nat) (d : Delivery) : Event → Prop where
  /-- The answer to an attempt is a permanent failure. -/
  | permanent {c : PushConsumer} {cancelled : Bool} {now : Instant} {fetched : Fetched} {drawn : Nat} {sent : Sending}
    (sending : d.phase = .sending sent) (answer : send sent.targets.opts.reply fetched = .error .permanent) :
    Dies retry n d (.poll c cancelled (.answered now fetched drawn))
  /-- An attempt fails permanently before a request is sent: its secret cannot be sent. -/
  | secret {c c' : PushConsumer} {cancelled : Bool} {now : Instant} {sent : Sending} (looks : d.looks now)
    (chosen : c.choose d.envelope cancelled now = (.send sent, c')) (invalid : (c'.heap sent.slot).secret = .invalid) :
    Dies retry n d (.poll c cancelled (.look now))
  /-- An attempt fails and was the last. -/
  | exhausted {c : PushConsumer} {cancelled : Bool} {now : Instant} {fetched : Fetched} {drawn : Nat} {sent : Sending}
    {retryAfter : Option Duration} (sending : d.phase = .sending sent)
    (answer : send sent.targets.opts.reply fetched = .error (.transient retryAfter)) (last : n = retry.maxAttempts) :
    Dies retry n d (.poll c cancelled (.answered now fetched drawn))
  /-- An attempt fails and the next would start too late. -/
  | late {c : PushConsumer} {cancelled : Bool} {now : Instant} {fetched : Fetched} {drawn : Nat} {sent : Sending}
    {retryAfter : Option Duration} {deadline : Instant} (sending : d.phase = .sending sent)
    (answer : send sent.targets.opts.reply fetched = .error (.transient retryAfter)) (due : d.deadline retry = some deadline)
    (passed : deadline ≤ now + d.retryDelay retry retryAfter drawn) : Dies retry n d (.poll c cancelled (.answered now fetched drawn))
  /-- It still has no endpoint whose breaker admitted it when the deadline has passed. -/
  | expired {c : PushConsumer} {now : Instant} {deadline : Instant} (looks : d.looks now) (endpoints : c.targets.slots ≠ [])
    (due : d.deadline retry = some deadline) (passed : deadline ≤ now) : Dies retry n d (.poll c false (.look now))

end Delivery

/-! ### One look -/

section
variable {c c' : PushConsumer} {envelope : Envelope} {cancelled : Bool} {now : Instant}

/-- What `choose` looks at before it picks. -/
structure Looks (c : PushConsumer) (envelope : Envelope) (cancelled : Bool) (now : Instant) : Prop where
  going : cancelled = false
  endpoints : c.targets.slots ≠ []
  early : ∀ deadline, Instant.checkedAdd envelope.receivedAt c.targets.opts.retry.maxAge = some deadline → now < deadline

theorem choose_cases (c : PushConsumer) (envelope : Envelope) (cancelled : Bool) (now : Instant) :
    (cancelled = true ∧ c.choose envelope cancelled now = (.cancelled, c)) ∨
    (cancelled = false ∧ c.targets.slots = [] ∧ c.choose envelope cancelled now = (.noEndpoint, c)) ∨
    (cancelled = false ∧ c.targets.slots ≠ [] ∧ c.choose envelope cancelled now = (.expired, c) ∧
      ∃ deadline, Instant.checkedAdd envelope.receivedAt c.targets.opts.retry.maxAge = some deadline ∧ deadline ≤ now) ∨
    (Looks c envelope cancelled now ∧ ∃ till, c.choose envelope cancelled now = (.wait till, c)) ∨
    Looks c envelope cancelled now ∧ ∃ index cursor breaker, index < c.targets.slots.length ∧
      c.choose envelope cancelled now = (.send { targets := c.targets, index, reported := false },
        ({ c with cursor }.modify (c.targets.slots.getD index 0) fun s => { s with breaker }).modify
          (c.targets.slots.getD index 0) fun s => { s with inFlight := s.inFlight + 1 }) := by
  unfold PushConsumer.choose
  cases cancelled with
  | true => exact .inl ⟨rfl, rfl⟩
  | false =>
    rw [if_neg Bool.false_ne_true]
    by_cases none : c.targets.slots = []
    · rw [none]
      exact .inr (.inl ⟨rfl, rfl, rfl⟩)
    · rw [if_neg (by rwa [List.isEmpty_iff])]
      dsimp only
      by_cases passed : (Instant.checkedAdd envelope.receivedAt c.targets.opts.retry.maxAge).any (· ≤ now)
      · obtain ⟨deadline, due, le⟩ := (Option.any_eq_true _ _).mp passed
        rw [if_pos passed]
        exact .inr (.inr (.inl ⟨rfl, none, rfl, deadline, due, of_decide_eq_true le⟩))
      · rw [if_neg passed]
        have looks : Looks c envelope false now := by
          refine ⟨rfl, none, fun deadline due => Nat.lt_of_not_le fun le => passed ?_⟩
          rw [due]
          exact decide_eq_true le
        obtain ⟨n, hn⟩ := Nat.exists_eq_add_one_of_ne_zero (Nat.ne_zero_of_lt (List.length_pos_iff.mpr none))
        have pick := pick_succ c.targets envelope.key now n c
        rw [← hn] at pick
        rcases pick with ⟨-, eq⟩ | ⟨index, mem, cursor, breaker, eq⟩
        · rw [eq]
          exact .inr (.inr (.inr (.inl ⟨looks, _, rfl⟩)))
        · rw [eq]
          exact .inr (.inr (.inr (.inr ⟨looks, index, cursor, breaker, ((mem_survey ..).mp mem).1, rfl⟩)))

end

/-! ### The invariant -/

namespace Delivery

/-- A delivery after `n` attempts, under the policy: it goes for another only while there is one left. -/
structure Counted (retry : Config.Retry) (n : Nat) (d : Delivery) : Prop where
  count : d.attempt = n
  most : n ≤ retry.maxAttempts
  left : ∀ now, d.looks now → n < retry.maxAttempts
  policy : ∀ sent, d.phase = .sending sent → sent.targets.opts.retry = retry

theorem counted_new {retry : Config.Retry} (some : 1 ≤ retry.maxAttempts) (lease : Lease Envelope) : Counted retry 0 (new lease) where
  count := rfl
  most := Nat.zero_le _
  left _ _ := some
  policy _ h := nomatch h

/-- A delivery that has ended or waits for its reply does nothing more. -/
theorem Counted.idle {retry : Config.Retry} {n : Nat} {d d' : Delivery} (h : Counted retry n d) (count : d'.attempt = d.attempt)
    (still : ∀ now, d'.looks now = false) (quiet : ∀ sent, d'.phase ≠ .sending sent) : Counted retry n d' where
  count := count.trans h.count
  most := h.most
  left now looks := by
    rw [still] at looks
    cases looks
  policy sent sending := absurd sending (quiet sent)

section
variable {retry : Config.Retry} {n : Nat} {d : Delivery} {c : PushConsumer} {cancelled : Bool} {now : Instant}

theorem settle_ok (sent : Sending) (drawn : Nat) (reply : Bool) :
    (d.settle sent now drawn (.ok reply) c).1 = { d with phase := if reply then .replying else .ended .delivered } := rfl

theorem tooOld_iff {delay : Duration} : tooOld d.envelope.receivedAt retry now delay = true ↔
    ∃ deadline, d.deadline retry = some deadline ∧ deadline ≤ now + delay := by
  unfold tooOld deadline
  cases hd : Instant.checkedAdd d.envelope.receivedAt retry.maxAge with
  | none => exact ⟨nofun, fun ⟨_, h, _⟩ => nomatch h⟩
  | some deadline =>
    cases hr : Instant.checkedAdd now delay with
    | none =>
      have beyond : Instant.LAST < now + delay := by
        unfold Instant.checkedAdd at hr
        split at hr
        · cases hr
        · rename_i beyond
          exact Nat.lt_of_not_le beyond
      have due := Instant.checkedAdd_eq_some.mp hd
      exact ⟨fun _ => ⟨deadline, rfl, Nat.le_of_lt (Nat.lt_of_le_of_lt (due.1 ▸ due.2) beyond)⟩, fun _ => rfl⟩
    | some retryAt =>
      obtain ⟨rfl, -⟩ := Instant.checkedAdd_eq_some.mp hr
      constructor
      · exact fun h => ⟨deadline, rfl, of_decide_eq_true h⟩
      · rintro ⟨_, ⟨⟩, h⟩
        exact decide_eq_true h

/-- A failure that may pass: the delivery ends once the attempts are exhausted or the retry would be too late, else it sleeps. -/
theorem settle_transient (d : Delivery) (c : PushConsumer) (now : Instant) (sent : Sending) (drawn : Nat)
    (retryAfter : Option Duration) (policy : sent.targets.opts.retry = retry) :
    ∃ backoff, (d.settle sent now drawn (.error (.transient retryAfter)) c).1 = { d with
      backoff
      phase := if retry.maxAttempts ≤ d.attempt ∨ tooOld d.envelope.receivedAt retry now (d.retryDelay retry retryAfter drawn) then
          .ended .deadLettered
        else .sleeping ((Instant.checkedAdd now (d.retryDelay retry retryAfter drawn)).getD (now + FAR_FUTURE)) } := by
  subst policy
  exact ⟨_, rfl⟩

theorem Counted.settle (h : Counted retry n d) {sent : Sending} (policy : sent.targets.opts.retry = retry) (drawn : Nat)
    (result : Except Failure Bool) : Counted retry n (d.settle sent now drawn result c).1 := by
  rcases result with (retryAfter | _) | reply
  · obtain ⟨backoff, eq⟩ := settle_transient d c now sent drawn retryAfter policy
    rw [eq]
    split
    · exact h.idle rfl (fun _ => rfl) nofun
    · rename_i going
      refine ⟨h.count, h.most, fun _ _ => ?_, nofun⟩
      rw [← h.count]
      exact Nat.lt_of_not_le fun le => going (.inl le)
  · exact h.idle rfl (fun _ => rfl) nofun
  · rw [settle_ok]
    cases reply <;> exact h.idle rfl (fun _ => rfl) nofun

theorem Counted.look (h : Counted retry n d) (word : retry.maxAttempts < 2 ^ 32) (keeps : c.targets.opts.retry = retry)
    (looks : d.looks now = true) :
    Counted retry (n + (d.startsAt (.poll c cancelled (.look now))).toList.length) (d.look cancelled now c).1 := by
  have left := h.left now looks
  rw [startsAt, looks]
  rcases choose_cases c d.envelope cancelled now with ⟨-, eq⟩ | ⟨-, -, eq⟩ | ⟨-, -, eq, -⟩ | ⟨-, till, eq⟩ | ⟨-, index, _, _, -, eq⟩
  · rw [Delivery.look, eq]
    exact h.idle rfl (fun _ => rfl) (by rintro _ ⟨⟩)
  · rw [Delivery.look, eq]
    exact h.idle rfl (fun _ => rfl) (by rintro _ ⟨⟩)
  · rw [Delivery.look, eq]
    exact h.idle rfl (fun _ => rfl) (by rintro _ ⟨⟩)
  · rw [Delivery.look, eq]
    exact ⟨h.count, h.most, fun _ _ => left, by rintro _ ⟨⟩⟩
  · rw [Delivery.look, eq]
    have count : min (d.attempt + 1) (2 ^ 32 - 1) = n + 1 := by
      rw [h.count]
      omega
    have sending : Counted retry (n + 1) { d with
        attempt := min (d.attempt + 1) (2 ^ 32 - 1), phase := .sending { targets := c.targets, index, reported := false } } := by
      refine ⟨count, left, ?_, ?_⟩
      · rintro _ ⟨⟩
      · rintro _ ⟨⟩
        exact keeps
    dsimp only
    split
    · exact sending.idle rfl (fun _ => rfl) (by rintro _ ⟨⟩)
    · exact sending

/-- What a poll comes to. -/
inductive Polled (d : Delivery) (cancelled : Bool) (c : PushConsumer) : Wake → Delivery × PushConsumer → Prop where
  | look {now : Instant} (looks : d.looks now = true) : Polled d cancelled c (.look now) (d.look cancelled now c)
  | settle {sent : Sending} {now : Instant} {fetched : Fetched} {drawn : Nat} (sending : d.phase = .sending sent) :
    Polled d cancelled c (.answered now fetched drawn) (d.settle sent now drawn (send sent.targets.opts.reply fetched) c)
  | reply (replying : d.phase = .replying) : Polled d cancelled c .executed ({ d with phase := .ended .delivered }, c)
  | woken {now : Instant} (asleep : d.looks now = false) : Polled d cancelled c (.look now) ({ d with phase := .ended .released }, c)
  | idle {wake : Wake} (asleep : ∀ now, wake = .look now → d.looks now = false)
    (quiet : ∀ sent now fetched drawn, d.phase = .sending sent → wake ≠ .answered now fetched drawn) : Polled d cancelled c wake (d, c)

theorem poll_polled (d : Delivery) (cancelled : Bool) (wake : Wake) (c : PushConsumer) :
    Polled d cancelled c wake (d.poll cancelled wake c) := by
  obtain ⟨seq, envelope, backoff, attempt, phase⟩ := d
  have idle {wake : Wake} {phase : Phase} (asleep : ∀ now, wake = .look now → looks ⟨seq, envelope, backoff, attempt, phase⟩ now = false)
      (quiet : ∀ sent now fetched drawn, phase = .sending sent → wake ≠ .answered now fetched drawn) :
      Polled ⟨seq, envelope, backoff, attempt, phase⟩ cancelled c wake (⟨seq, envelope, backoff, attempt, phase⟩, c) :=
    .idle asleep quiet
  cases wake with
  | look now =>
    cases phase with
    | choosing => exact .look rfl
    | waiting till => exact .look rfl
    | sleeping till =>
      by_cases due : till ≤ now
      · have looks : looks ⟨seq, envelope, backoff, attempt, .sleeping till⟩ now = true := decide_eq_true due
        have same : poll ⟨seq, envelope, backoff, attempt, .sleeping till⟩ cancelled (.look now) c =
            look ⟨seq, envelope, backoff, attempt, .sleeping till⟩ cancelled now c := by
          cases cancelled with
          | true => rfl
          | false => exact if_pos due
        rw [same]
        exact .look looks
      · have asleep : looks ⟨seq, envelope, backoff, attempt, .sleeping till⟩ now = false := decide_eq_false due
        cases cancelled with
        | true => exact .woken asleep
        | false =>
          have same : poll ⟨seq, envelope, backoff, attempt, .sleeping till⟩ false (.look now) c =
              (⟨seq, envelope, backoff, attempt, .sleeping till⟩, c) := if_neg due
          rw [same]
          exact idle (by rintro _ ⟨⟩; exact asleep) fun _ _ _ _ _ => nofun
    | _ => exact idle (by rintro _ ⟨⟩; rfl) fun _ _ _ _ _ => nofun
  | answered now fetched drawn =>
    cases phase with
    | sending sent => exact .settle rfl
    | _ => exact idle nofun (by rintro _ _ _ _ ⟨⟩)
  | executed =>
    cases phase with
    | replying => exact .reply rfl
    | _ => exact idle nofun fun _ _ _ _ _ => nofun

theorem startsAt_asleep (asleep : d.looks now = false) : d.startsAt (.poll c cancelled (.look now)) = none := by
  rw [startsAt, asleep]

theorem Counted.step {e : Event} (h : Counted retry n d) (word : retry.maxAttempts < 2 ^ 32) (keeps : e.Keeps retry) :
    Counted retry (n + (d.startsAt e).toList.length) (d.step e) := by
  cases e with
  | drop c now =>
    change Counted retry n (d.drop now c).1
    unfold drop
    split
    · exact h
    · exact h.idle rfl (fun _ => rfl) nofun
    · exact h.idle rfl (fun _ => rfl) nofun
  | poll c cancelled wake =>
    change Counted retry _ (d.poll cancelled wake c).1
    have polled := poll_polled d cancelled wake c
    generalize d.poll cancelled wake c = result at polled
    cases polled with
    | look looks => exact h.look word keeps looks
    | settle sending => exact h.settle (h.policy _ sending) ..
    | reply replying => exact h.idle rfl (fun _ => rfl) nofun
    | woken asleep =>
      rw [startsAt_asleep asleep]
      exact h.idle rfl (fun _ => rfl) nofun
    | idle asleep quiet =>
      have none : d.startsAt (.poll c cancelled wake) = none := by
        cases wake with
        | look now => exact startsAt_asleep (asleep now rfl)
        | _ => rfl
      rw [none]
      exact h

/-! ### The end -/

theorem look_dies (keeps : c.targets.opts.retry = retry) (looks : d.looks now = true) :
    (d.look cancelled now c).1.phase = .ended .deadLettered ↔ Dies retry n d (.poll c cancelled (.look now)) := by
  have secret (h : Dies retry n d (.poll c cancelled (.look now))) :
      (∃ sent c', c.choose d.envelope cancelled now = (.send sent, c') ∧ (c'.heap sent.slot).secret = .invalid) ∨
        cancelled = false ∧ c.targets.slots ≠ [] ∧ ∃ deadline, d.deadline retry = some deadline ∧ deadline ≤ now := by
    cases h with
    | secret _ chosen invalid => exact .inl ⟨_, _, chosen, invalid⟩
    | expired _ endpoints due passed => exact .inr ⟨rfl, endpoints, _, due, passed⟩
  rcases choose_cases c d.envelope cancelled now with
    ⟨going, eq⟩ | ⟨-, none, eq⟩ | ⟨going, endpoints, eq, deadline, due, passed⟩ | ⟨looked, till, eq⟩ | ⟨looked, index, _, _, -, eq⟩
  · rw [look, eq]
    refine ⟨by rintro ⟨⟩, fun h => ?_⟩
    rcases secret h with ⟨_, _, chosen, -⟩ | ⟨still, -⟩
    · cases eq.symm.trans chosen
    · rw [going] at still
      cases still
  · rw [look, eq]
    refine ⟨by rintro ⟨⟩, fun h => ?_⟩
    rcases secret h with ⟨_, _, chosen, -⟩ | ⟨-, endpoints, -⟩
    · cases eq.symm.trans chosen
    · exact absurd none endpoints
  · rw [look, eq]
    subst going
    exact ⟨fun _ => .expired looks endpoints (by rw [Delivery.deadline, ← keeps]; exact due) passed, fun _ => rfl⟩
  · rw [look, eq]
    refine ⟨by rintro ⟨⟩, fun h => ?_⟩
    rcases secret h with ⟨_, _, chosen, -⟩ | ⟨-, -, deadline, due, passed⟩
    · cases eq.symm.trans chosen
    · exact absurd passed (Nat.not_le_of_lt (looked.early deadline (by rw [keeps]; exact due)))
  · rw [look, eq]
    dsimp only
    split
    · rename_i invalid
      exact ⟨fun _ => .secret looks eq invalid, fun _ => rfl⟩
    · rename_i valid
      refine ⟨by rintro ⟨⟩, fun h => ?_⟩
      rcases secret h with ⟨_, _, chosen, invalid'⟩ | ⟨-, -, deadline, due, passed⟩
      · cases eq.symm.trans chosen
        exact absurd invalid' valid
      · exact absurd passed (Nat.not_le_of_lt (looked.early deadline (by rw [keeps]; exact due)))

theorem Counted.settle_dies (h : Counted retry n d) {sent : Sending} (sending : d.phase = .sending sent) (fetched : Fetched)
    (drawn : Nat) :
    (d.settle sent now drawn (send sent.targets.opts.reply fetched) c).1.phase = .ended .deadLettered ↔
      Dies retry n d (.poll c cancelled (.answered now fetched drawn)) := by
  have same {sent' : Sending} (sending' : d.phase = .sending sent') : sent' = sent := by
    cases sending.symm.trans sending'
    rfl
  cases answer : send sent.targets.opts.reply fetched with
  | ok reply =>
    rw [settle_ok]
    constructor
    · cases reply <;> nofun
    · intro dies
      cases dies with
      | permanent sending' answer' =>
        cases same sending'
        cases answer.symm.trans answer'
      | exhausted sending' answer' =>
        cases same sending'
        cases answer.symm.trans answer'
      | late sending' answer' =>
        cases same sending'
        cases answer.symm.trans answer'
  | error failure =>
    cases failure with
    | permanent => exact ⟨fun _ => .permanent sending answer, fun _ => rfl⟩
    | transient retryAfter =>
      obtain ⟨backoff, eq⟩ := settle_transient d c now sent drawn retryAfter (h.policy sent sending)
      rw [eq, h.count]
      dsimp only
      by_cases spent : retry.maxAttempts ≤ n ∨ tooOld d.envelope.receivedAt retry now (d.retryDelay retry retryAfter drawn)
      · rw [if_pos spent]
        refine ⟨fun _ => ?_, fun _ => rfl⟩
        rcases spent with last | old
        · exact .exhausted sending answer (Nat.le_antisymm h.most last)
        · obtain ⟨deadline, due, passed⟩ := tooOld_iff.mp old
          exact .late sending answer due passed
      · rw [if_neg spent]
        refine ⟨nofun, fun dies => absurd ?_ spent⟩
        cases dies with
        | permanent sending' answer' =>
          cases same sending'
          cases answer.symm.trans answer'
        | exhausted sending' answer' last => exact .inl (Nat.le_of_eq last.symm)
        | late sending' answer' due passed =>
          cases same sending'
          cases answer.symm.trans answer'
          exact .inr (tooOld_iff.mpr ⟨_, due, passed⟩)

/-- A delivery ends in a dead letter for the reasons there are, and for no other. -/
theorem Counted.step_dies (h : Counted retry n d) {e : Event} (keeps : e.Keeps retry) (going : ∀ how, d.phase ≠ .ended how) :
    (d.step e).phase = .ended .deadLettered ↔ Dies retry n d e := by
  cases e with
  | drop c now =>
    refine ⟨fun ended => ?_, nofun⟩
    change (d.drop now c).1.phase = _ at ended
    unfold drop at ended
    split at ended
    · exact absurd ended (going _)
    · cases ended
    · cases ended
  | poll c cancelled wake =>
    change (d.poll cancelled wake c).1.phase = _ ↔ _
    have polled := poll_polled d cancelled wake c
    generalize d.poll cancelled wake c = result at polled
    cases polled with
    | look looks => exact look_dies keeps looks
    | settle sending => exact h.settle_dies sending ..
    | reply replying => exact ⟨nofun, nofun⟩
    | woken asleep =>
      refine ⟨nofun, fun dies => ?_⟩
      cases dies with
      | secret looks => cases asleep.symm.trans looks
      | expired looks => cases asleep.symm.trans looks
    | idle asleep quiet =>
      refine ⟨fun ended => absurd ended (going _), fun dies => ?_⟩
      cases dies with
      | permanent sending => exact absurd rfl (quiet _ _ _ _ sending)
      | exhausted sending => exact absurd rfl (quiet _ _ _ _ sending)
      | late sending => exact absurd rfl (quiet _ _ _ _ sending)
      | secret looks => cases (asleep _ rfl).symm.trans looks
      | expired looks => cases (asleep _ rfl).symm.trans looks

/-! ### Runs -/

theorem step_envelope (d : Delivery) (e : Event) : (d.step e).envelope = d.envelope := by
  cases e with
  | drop c now =>
    change (d.drop now c).1.envelope = _
    unfold drop
    split <;> rfl
  | poll c cancelled wake =>
    change (d.poll cancelled wake c).1.envelope = _
    have settled (d : Delivery) (sent : Sending) (now : Instant) (drawn : Nat) (result : Except Failure Bool) (c : PushConsumer) :
        (d.settle sent now drawn result c).1.envelope = d.envelope := by
      rcases result with (_ | _) | _ <;> rfl
    have polled := poll_polled d cancelled wake c
    generalize d.poll cancelled wake c = result at polled
    cases polled with
    | settle sending => exact settled ..
    | reply | woken | idle => rfl
    | @look now looks =>
      unfold look
      split <;> try rfl
      split
      · exact settled ..
      · rfl

theorem after_envelope (d : Delivery) (events : List Event) : (d.after events).envelope = d.envelope := by
  induction events generalizing d with
  | nil => rfl
  | cons e events ih => exact (ih (d.step e)).trans (step_envelope d e)

theorem after_concat (d : Delivery) (events : List Event) (e : Event) : d.after (events ++ [e]) = (d.after events).step e := by
  rw [after, List.foldl_append]
  rfl

/-- An attempt starts before the deadline. -/
theorem startsAt_early {e : Event} (keeps : e.Keeps retry) (starts : d.startsAt e = some now) {deadline : Instant}
    (due : d.deadline retry = some deadline) : now < deadline := by
  unfold startsAt at starts
  split at starts
  · rename_i c cancelled at'
    rcases choose_cases c d.envelope cancelled at' with ⟨-, eq⟩ | ⟨-, -, eq⟩ | ⟨-, -, eq, -⟩ | ⟨-, till, eq⟩ | ⟨looked, -⟩
    · rw [eq] at starts
      cases h : d.looks at' <;> rw [h] at starts <;> cases starts
    · rw [eq] at starts
      cases h : d.looks at' <;> rw [h] at starts <;> cases starts
    · rw [eq] at starts
      cases h : d.looks at' <;> rw [h] at starts <;> cases starts
    · rw [eq] at starts
      cases h : d.looks at' <;> rw [h] at starts <;> cases starts
    · split at starts
      · cases starts
        refine looked.early deadline ?_
        rw [show c.targets.opts.retry = retry from keeps]
        exact due
      · cases starts
  · cases starts

/-- An end is final. -/
theorem step_ended {how : End} (ended : d.phase = .ended how) (e : Event) : (d.step e).phase = .ended how := by
  obtain ⟨seq, envelope, backoff, attempt, phase⟩ := d
  cases ended
  cases e with
  | drop c now => rfl
  | poll c cancelled wake => cases wake <;> rfl

theorem Counted.run (h : Counted retry n d) (word : retry.maxAttempts < 2 ^ 32) {events : List Event}
    (keeps : ∀ e ∈ events, e.Keeps retry) : Counted retry (n + (d.attempts events).length) (d.after events) := by
  induction events generalizing d n with
  | nil => exact h
  | cons e events ih =>
    rw [attempts, List.length_append, ← Nat.add_assoc]
    exact ih (h.step word (keeps e List.mem_cons_self)) fun e' he' => keeps e' (List.mem_cons_of_mem _ he')

theorem attempts_early {events : List Event} (keeps : ∀ e ∈ events, e.Keeps retry) {deadline : Instant}
    (due : d.deadline retry = some deadline) : ∀ start ∈ d.attempts events, start < deadline := by
  induction events generalizing d with
  | nil => exact fun _ h => absurd h List.not_mem_nil
  | cons e events ih =>
    intro start mem
    rcases List.mem_append.mp mem with mem | mem
    · exact startsAt_early (keeps e List.mem_cons_self) (Option.mem_toList.mp mem) due
    · refine ih (fun e' he' => keeps e' (List.mem_cons_of_mem _ he')) ?_ start mem
      rw [Delivery.deadline, step_envelope]
      exact due

end

/-- Under a policy that stays the same, no attempt of a delivery starts at or after the deadline, there are `maxAttempts` at most, and
    the delivery ends in a dead letter for the reasons there are and no other. -/
theorem delivery_ends {retry : Config.Retry} (some : 1 ≤ retry.maxAttempts) (word : retry.maxAttempts < 2 ^ 32) (lease : Lease Envelope)
    {events : List Event} (keeps : ∀ e ∈ events, e.Keeps retry) :
    (∀ deadline, Instant.checkedAdd lease.item.receivedAt retry.maxAge = .some deadline →
      ∀ start ∈ (new lease).attempts events, start < deadline) ∧
    ((new lease).attempts events).length ≤ retry.maxAttempts ∧
    (∀ before e rest, events = before ++ e :: rest → (∀ how, ((new lease).after before).phase ≠ .ended how) →
      (((new lease).after (before ++ [e])).phase = .ended .deadLettered ↔
        Dies retry ((new lease).attempts before).length ((new lease).after before) e) ∧
      ∀ how, ((new lease).after (before ++ [e])).phase = .ended how →
        ¬Dies retry ((new lease).attempts before).length ((new lease).after before) e → how = .delivered ∨ how = .released) ∧
    ∀ before rest how, events = before ++ rest → ((new lease).after before).phase = .ended how →
      ((new lease).after events).phase = .ended how := by
  refine ⟨fun deadline due => attempts_early keeps due, ?_, ?_, ?_⟩
  · have counted := (counted_new some lease).run word keeps
    rw [Nat.zero_add] at counted
    exact counted.most
  · rintro before e rest rfl going
    have counted := (counted_new some lease).run word fun e' he' => keeps e' (List.mem_append_left _ he')
    rw [Nat.zero_add] at counted
    have dies := counted.step_dies (keeps e (List.mem_append_right _ List.mem_cons_self)) going
    rw [after_concat]
    refine ⟨dies, fun how ended not => ?_⟩
    cases how with
    | delivered => exact .inl rfl
    | released => exact .inr rfl
    | deadLettered => exact absurd (dies.mp ended) not
  · rintro before rest how rfl ended
    rw [after, List.foldl_append]
    have last (d : Delivery) (h : d.phase = .ended how) : (rest.foldl step d).phase = .ended how := by
      induction rest generalizing d with
      | nil => exact h
      | cons e rest ih =>
        exact ih (fun e' he' => keeps e' (by
          rcases List.mem_append.mp he' with he' | he'
          · exact List.mem_append_left _ he'
          · exact List.mem_append_right _ (List.mem_cons_of_mem _ he'))) _ (step_ended h e)
    exact last _ ended

/-- One retry within ten nanoseconds. -/
def hasty : Config.Retry := { initial := 1, max := 1, maxAttempts := 2, maxAge := 10 }

/-- An update received at 5. -/
def early : Lease Envelope :=
  { seq := 0, ackId := 0, item := { source := 0, updateId := 1, updateType := [], key := none, payload := [], receivedAt := 5 } }

/-- A consumer of one endpoint under the hasty policy. -/
def single : PushConsumer where
  heap _ := { secret := .none, breaker := .new fragile 0, inFlight := 0 }
  made := 1
  targets := {
    slots := [0]
    runtime := none
    opts := { maxInFlight := 1, balance := .roundRobin, retry := hasty, sourceNames := [], breaker := fragile, runtimeTimeout := 1,
              reply := false } }
  cursor := 0
  inFlight := 1
  paused := false

theorem delivery_ends_hasty : ((new early).after [.poll single false (.look 15)]).phase = .ended .deadLettered := by
  have keeps : ∀ e ∈ [Event.poll single false (.look 15)], e.Keeps hasty := by
    intro e mem
    rw [List.mem_singleton.mp mem]
    rfl
  have ends := delivery_ends (by decide) (by decide) early keeps
  exact (ends.2.2.1 [] _ [] rfl nofun).1.mpr (.expired rfl nofun rfl (Nat.le_refl 15))

end Delivery

end Tgin.Push
