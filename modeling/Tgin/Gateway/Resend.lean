import Tgin.Gateway.Proxy

/-! How often a request goes to its server: once, and once more when its body was read whole and the answer was a 429 that it was
    allowed to wait out, the limits booked again for the instant after that wait. -/

namespace Tgin.Gateway.Proxy
open LocalFiles (Bytes Encoding)

variable {u : Urls}

def Action.isSent : Action u → Bool
  | .sent .. => true
  | _ => false

/-- Nothing was sent. -/
def Quiet (log : List (Action u)) : Prop := ∀ a ∈ log, a.isSent = false

theorem Quiet.append {log log' : List (Action u)} (h : Quiet log) (h' : Quiet log') : Quiet (log ++ log') := by
  intro a ha
  rcases List.mem_append.mp ha with ha | ha
  · exact h a ha
  · exact h' a ha

theorem quiet_nil : Quiet ([] : List (Action u)) := fun _ h => absurd h List.not_mem_nil

theorem quiet_cons {a : Action u} {log : List (Action u)} (ha : a.isSent = false) (h : Quiet log) : Quiet (a :: log) :=
  List.forall_mem_cons.mpr ⟨ha, h⟩

theorem quiet_singleton {a : Action u} (ha : a.isSent = false) : Quiet [a] := quiet_cons ha quiet_nil

theorem deadline_zero (now : Instant) : deadline now 0 = now := by
  unfold deadline Instant.checkedAdd
  split
  · rfl
  · rename_i beyond
    rw [if_neg fun le => beyond (Nat.le_trans (Nat.add_le_add_left (Nat.zero_le _) now) le)]
    rfl

theorem le_deadline (now : Instant) (idle : Duration) : now ≤ deadline now idle := by
  have later (d : Duration) : ∀ t, Instant.checkedAdd now d = some t → now ≤ t := fun t h =>
    (Instant.checkedAdd_eq_some.mp h).1 ▸ Nat.le_add_right now d
  unfold deadline
  cases h : Instant.checkedAdd now idle with
  | some t => exact later _ t h
  | none =>
    cases h : Instant.checkedAdd now (30 * 365 * 86400 * 10 ^ 9) with
    | some t => exact later _ t h
    | none => exact Nat.le_refl now

/-! ### The second time -/

/-- The limits, where they apply, let the request for `chat` go at `now`: it was booked at `start` or later. -/
def Booked (f : Forward u) (chat : Option ChatKey) (log : List (Action u)) (start now : Instant) : Prop :=
  f.limited = true → ∃ asked admitted, .asked chat asked (.ok admitted) ∈ log ∧ start ≤ asked ∧
    deadline asked admitted.delay ≤ now

variable (u) in
/-- What a buffered request does that is answered once. -/
structure Round where
  before : List (Action u)
  first : Instant
  data : Bytes
  between : List (Action u)
  answeredAt : Instant
  response : Response
  since : List (Action u)

namespace Round

def log (round : Round u) (f : Forward u) : List (Action u) :=
  round.before ++ .sent round.first (f.sent (.buffered round.data)) ::
    (round.between ++ .answered round.answeredAt round.response :: round.since)

/-- It is sent once, with what its limits ask. -/
structure Once (round : Round u) (f : Forward u) (chat : Option ChatKey) : Prop where
  before : Quiet round.before
  between : Quiet round.between
  since : Quiet round.since
  booked : Booked f chat round.before 0 round.first

/-- It is answered with a 429 that tells it to wait, no longer than it may. -/
structure Waits (round : Round u) (c : Reading u) (f : Forward u) (wait : Duration) : Prop where
  status : round.response.status = 429
  told : ∃ flood, readBounded round.response.body FLOOD_LIMIT = .ok (.complete flood) ∧ retryAfter c flood = some wait
  pos : 0 < wait
  within : wait ≤ f.bot.gateway.retry429MaxWait

end Round

/-- After `log`, the request may be sent again at `now`: it has been sent once, its body `data` read whole; the 429 is waited out,
    and the limits, where they apply, were booked again since. -/
def Resent (c : Reading u) (f : Forward u) (log : List (Action u)) (now : Instant) (data : Bytes) : Prop :=
  ∃ (round : Round u) (chat : Option ChatKey) (wait : Duration), log = round.log f ∧ round.data = data ∧ round.Once f chat ∧
    round.Waits c f wait ∧ deadline round.answeredAt wait ≤ now ∧ Booked f chat round.since (deadline round.answeredAt wait) now

/-- Every send was the first, or was allowed as the second. -/
inductive Warranted (c : Reading u) (f : Forward u) : List (Action u) → Prop
  | nil : Warranted c f []
  | other {log : List (Action u)} {a : Action u} (h : Warranted c f log) (quiet : a.isSent = false) : Warranted c f (log ++ [a])
  | first {log : List (Action u)} (now : Instant) (payload : Payload) (h : Warranted c f log) (quiet : Quiet log) :
    Warranted c f (log ++ [.sent now (f.sent payload)])
  | again {log : List (Action u)} {now : Instant} {data : Bytes} (h : Warranted c f log) (resent : Resent c f log now data) :
    Warranted c f (log ++ [.sent now (f.sent (.buffered data))])

section
variable {c : Reading u} {f : Forward u} {log actions : List (Action u)} {chat : Option ChatKey} {start now later : Instant}
  {data : Bytes}

theorem Booked.mono (h : Booked f chat log start now) (le : now ≤ later) (kept : log ⊆ actions) : Booked f chat actions start later :=
  fun limited => by
    obtain ⟨asked, admitted, mem, le', due⟩ := h limited
    exact ⟨asked, admitted, kept mem, le', Nat.le_trans due le⟩

theorem Round.Once.append {round : Round u} (h : round.Once f chat) (quiet : Quiet actions) :
    Round.Once { round with since := round.since ++ actions } f chat := ⟨h.before, h.between, h.since.append quiet, h.booked⟩

theorem Round.Waits.append {round : Round u} {wait : Duration} (h : round.Waits c f wait) (actions : List (Action u)) :
    Round.Waits { round with since := round.since ++ actions } c f wait := ⟨h.status, h.told, h.pos, h.within⟩

theorem Round.log_append (round : Round u) (f : Forward u) (actions : List (Action u)) :
    round.log f ++ actions = Round.log { round with since := round.since ++ actions } f := by
  simp only [Round.log, List.append_assoc, List.cons_append]

theorem Resent.append (h : Resent c f log now data) (quiet : Quiet actions) (le : now ≤ later) :
    Resent c f (log ++ actions) later data := by
  obtain ⟨round, chat, wait, rfl, rfl, once, waits, due, booked⟩ := h
  exact ⟨{ round with since := round.since ++ actions }, chat, wait, round.log_append f actions, rfl, once.append quiet,
    waits.append actions, Nat.le_trans due le, booked.mono le (List.subset_append_left ..)⟩

theorem Warranted.append (h : Warranted c f log) (quiet : Quiet actions) : Warranted c f (log ++ actions) := by
  induction actions generalizing log with
  | nil => rwa [List.append_nil]
  | cons a actions ih =>
    rw [Quiet, List.forall_mem_cons] at quiet
    have next := ih (h.other quiet.1) quiet.2
    rwa [List.append_assoc, List.singleton_append] at next

end

/-! ### The invariant -/

namespace Call

/-- What the log shows of a request in each phase. -/
def Course (c : Reading u) (f : Forward u) (call : Call u) : Prop :=
  match call.phase with
  | .called | .preparing _ => Quiet call.log
  | .admitted till _ chat => Quiet call.log ∧ Booked f chat call.log 0 till
  | .sending (.buffered data) chat => ∃ before first between, call.log = before ++ .sent first (f.sent (.buffered data)) :: between ∧
      Quiet before ∧ Quiet between ∧ Booked f chat before 0 first
  | .flood response since data chat => ∃ round : Round u, call.log = round.log f ∧ round.Once f chat ∧ round.data = data ∧
      round.response = response ∧ round.answeredAt = since ∧ response.status = 429
  | .waiting till _ _ data chat => ∃ (round : Round u) (wait : Duration), call.log = round.log f ∧ round.Once f chat ∧
      round.data = data ∧ round.Waits c f wait ∧ till = deadline round.answeredAt wait
  | .readmitted till data => Resent c f call.log till data
  | .sending (.streamed _) _ | .resending _ | .answered _ | .dropped => True

/-- What holds between any two steps. -/
structure Ordered (c : Reading u) (f : Forward u) (call : Call u) : Prop where
  log : Warranted c f call.log
  course : call.Course c f

/-- `call'` came of `call` without a send. -/
def Onward (call call' : Call u) : Prop := ∃ actions, Quiet actions ∧ call'.log = call.log ++ actions

variable {c : Reading u} {f : Forward u} {call call' call'' : Call u} {env : Env} {chat : Option ChatKey}

theorem Onward.refl (call : Call u) : Onward call call := ⟨[], quiet_nil, (List.append_nil _).symm⟩

theorem Onward.push (h : Onward call call') {actions : List (Action u)} (quiet : Quiet actions) : Onward call (call'.push actions) := by
  obtain ⟨before, quiet', log⟩ := h
  refine ⟨before ++ actions, quiet'.append quiet, ?_⟩
  rw [Call.push, log, List.append_assoc]

theorem Onward.drop (h : Onward call call') : Onward call call'.drop := by
  have counted : Onward call (if call'.counted then call' else call'.push [.count .clientClosed]) := by
    split
    · exact h
    · exact h.push (quiet_singleton rfl)
  unfold Call.drop
  generalize (if call'.counted then call' else call'.push [.count .clientClosed]) = uncounted at counted ⊢
  dsimp only
  split
  · exact counted.push (quiet_singleton rfl)
  · exact counted

theorem Onward.finish (h : Onward call call') (answer : Answer) : Onward call (call'.finish answer) := h.drop

theorem Onward.count (h : Onward call call') (outcome : Outcome) : Onward call (call'.count outcome) := h.push (quiet_singleton rfl)

theorem Onward.failed (h : Onward call call') (failed : Failed) : Onward call (call'.failed f failed) := by
  cases failed <;> exact (h.count _).finish _

theorem Onward.relay (h : Onward call call') (response : Response) : Onward call (call'.relay response) :=
  Onward.drop (show Onward call { call' with counted := true, forwarding := false } from h)

theorem Onward.refuse (h : Onward call call') (limited : Limited) : Onward call (call'.refuse limited) :=
  (h.push (quiet_singleton rfl)).count _

/-- Without a send, what has been sent stays warranted. -/
theorem Onward.warranted (on : Onward call call') (h : Warranted c f call.log) : Warranted c f call'.log := by
  obtain ⟨actions, quiet, log⟩ := on
  rw [log]
  exact h.append quiet

theorem failed_phase (f : Forward u) (call : Call u) (failed : Failed) : ∃ answer, (call.failed f failed).phase = .answered answer := by
  cases failed <;> exact ⟨_, rfl⟩

/-- An answered request sends nothing more. -/
theorem Ordered.ended (h : Warranted c f call.log) (on : Onward call call') {answer : Answer} (phase : call'.phase = .answered answer) :
    call'.Ordered c f := by
  refine ⟨on.warranted h, ?_⟩
  rw [Course, phase]
  trivial

theorem Ordered.failed (h : Warranted c f call.log) (on : Onward call call') (failed : Failed) : (call'.failed f failed).Ordered c f := by
  obtain ⟨answer, phase⟩ := failed_phase f call' failed
  exact Ordered.ended h (on.failed failed) phase

/-! ### The parts of a step -/

/-- What asking the limits comes to: nothing is sent, and a request that they let go is booked. -/
theorem admit_cases (f : Forward u) (call : Call u) (env : Env) (chat : Option ChatKey) :
    ∃ actions, Quiet actions ∧ (call.admits f env chat).2.log = call.log ++ actions ∧
      ∀ till, (call.admits f env chat).1 = .ok till →
        env.now ≤ till.getD env.now ∧ Booked f chat actions env.now (till.getD env.now) := by
  unfold Call.admits
  split
  · rename_i free
    refine ⟨[], quiet_nil, (List.append_nil _).symm, ?_⟩
    rintro _ ⟨⟩
    exact ⟨Nat.le_refl _, fun limited => absurd limited (by simpa using free)⟩
  · dsimp only
    split
    · exact ⟨_, quiet_singleton rfl, rfl, nofun⟩
    · rename_i admitted limits
      split
      · rename_i atOnce
        refine ⟨_, quiet_singleton rfl, rfl, ?_⟩
        rintro _ ⟨⟩
        refine ⟨Nat.le_refl _, fun _ => ⟨env.now, admitted, ?_, Nat.le_refl _, ?_⟩⟩
        · rw [limits]
          exact List.mem_singleton_self _
        · rw [atOnce, deadline_zero]
          exact Nat.le_refl _
      · refine ⟨[_, _], quiet_cons rfl (quiet_singleton rfl), List.append_assoc .., ?_⟩
        rintro _ ⟨⟩
        refine ⟨le_deadline _ _, fun _ => ⟨env.now, admitted, ?_, Nat.le_refl _, Nat.le_refl _⟩⟩
        rw [limits]
        exact List.mem_cons_self

/-- The end of an exchange: a response's headers are the first thing after what was there. -/
theorem received_cases (f : Forward u) (call : Call u) (env : Env) (waited : Waited) (progress : Progress) :
    (∃ failed, (call.received f env waited progress).1 = .error failed ∧ call.Onward (call.received f env waited progress).2) ∨
      ∃ response ups, (call.received f env waited progress).1 = .ok response ∧ Quiet ups ∧
        (call.received f env waited progress).2.log = call.log ++ .answered env.now response :: ups := by
  unfold Call.received
  rcases exchange waited progress with failed | response
  · refine .inl ⟨failed, rfl, ?_⟩
    dsimp only
    split
    · split
      · exact (Onward.refl call).push (quiet_singleton rfl)
      · exact Onward.refl call
      · exact Onward.refl call
      · exact (Onward.refl call).push (quiet_singleton rfl)
    · exact Onward.refl call
  · right
    dsimp only
    split
    · exact ⟨response, [.up true], rfl, quiet_singleton rfl, List.append_assoc ..⟩
    · exact ⟨response, [], rfl, quiet_nil, rfl⟩

theorem Onward.received (call : Call u) (env : Env) (waited : Waited) (progress : Progress) :
    call.Onward (call.received f env waited progress).2 := by
  rcases received_cases f call env waited progress with ⟨-, -, on⟩ | ⟨response, ups, -, quiet, log⟩
  · exact on
  · exact ⟨_, quiet_cons rfl quiet, log⟩

/-- A request that has not been sent is. -/
theorem Ordered.go (h : Warranted c f call.log) (quiet : Quiet call.log) (booked : Booked f chat call.log 0 env.now) (payload : Payload) :
    (call.go f env payload chat).Ordered c f := by
  unfold Call.go Call.send
  cases env.parked with
  | true => cases payload <;> exact Ordered.failed h (Onward.refl call) _
  | false =>
    refine ⟨h.first env.now payload quiet, ?_⟩
    cases payload with
    | buffered data => exact ⟨call.log, env.now, [], rfl, quiet, quiet_nil, booked⟩
    | streamed stream => trivial

/-- A request that may be sent again is. -/
theorem Ordered.goAgain {data : Bytes} (h : Warranted c f call.log) (resent : Resent c f call.log env.now data) :
    (call.goAgain f env data).Ordered c f := by
  unfold Call.goAgain Call.send
  cases env.parked with
  | true => exact Ordered.failed h (Onward.refl call) _
  | false =>
    have retried : Quiet (u := u) [.retried] := quiet_singleton rfl
    exact ⟨(h.append retried).again (resent.append retried (Nat.le_refl _)), trivial⟩

theorem Ordered.prepared (h : Warranted c f call.log) (quiet : Quiet call.log) (prepared : Except Failed (Payload × Option ChatKey)) :
    (call.prepared f env prepared).Ordered c f := by
  unfold Call.prepared
  split
  · exact Ordered.failed h (Onward.refl call) _
  · rename_i payload chat
    obtain ⟨actions, quiet', log, booked⟩ := admit_cases f call env chat
    have on : Onward call (call.admits f env chat).2 := ⟨actions, quiet', log⟩
    have quiet'' : Quiet (call.admits f env chat).2.log := log ▸ quiet.append quiet'
    have booked' (till : Option Instant) (ok : (call.admits f env chat).1 = .ok till) :
        Booked f chat (call.admits f env chat).2.log 0 (till.getD env.now) := fun limited => by
      obtain ⟨asked, admitted, mem, -, due⟩ := (booked till ok).2 limited
      exact ⟨asked, admitted, log ▸ List.mem_append_right _ mem, Nat.zero_le _, due⟩
    split <;> rename_i eq <;> rw [eq] at on quiet'' booked'
    · exact Ordered.ended h ((on.refuse _).finish _) rfl
    · exact Ordered.go (on.warranted h) quiet'' (booked' none rfl) payload
    · exact ⟨on.warranted h, quiet'', booked' _ rfl⟩

theorem Ordered.relay (h : Warranted c f call.log) (on : Onward call call') (response : Response) :
    (call'.relay response).Ordered c f := Ordered.ended h (on.relay response) rfl

theorem Ordered.answered {payload : Payload} (h : Warranted c f call.log)
    (sent : ∀ data, payload = .buffered data → ∃ before first between,
      call.log = before ++ .sent first (f.sent (.buffered data)) :: between ∧ Quiet before ∧ Quiet between ∧
        Booked f chat before 0 first)
    (waited : Waited) (progress : Progress) : (call.answered f env waited progress payload chat).Ordered c f := by
  have on := Onward.received (f := f) call env waited progress
  have received := received_cases f call env waited progress
  unfold Call.answered
  split <;> rename_i eq <;> rw [eq] at on received
  · exact Ordered.relay h on _
  · exact Ordered.failed h on _
  · exact Ordered.failed h on _
  · rename_i data response call'
    split
    · exact Ordered.relay h on _
    · rename_i flood
      rw [not_or] at flood
      obtain ⟨before, first, between, log, quiet, quiet', booked⟩ := sent data rfl
      rcases received with ⟨_, h, -⟩ | ⟨response', ups, same, quiet'', log'⟩
      · cases h
      · cases same
        refine ⟨on.warranted h, ⟨before, first, data, between, env.now, response, ups⟩, ?_, ⟨quiet, quiet', quiet'', booked⟩, rfl, rfl,
          rfl, ?_⟩
        · change call'.log = _
          rw [log', log, Round.log, List.append_assoc, List.cons_append]
        · exact not_not.mp flood.1

theorem Ordered.flooded {response : Response} {since : Instant} {data : Bytes} (h : Warranted c f call.log)
    (round : ∃ round : Round u, call.log = round.log f ∧ round.Once f chat ∧ round.data = data ∧ round.response = response ∧
      round.answeredAt = since ∧ response.status = 429) (stalled : Bool) :
    (call.flooded c f response since data chat stalled).Ordered c f := by
  have on := Onward.refl call
  unfold Call.flooded
  dsimp only
  split
  · exact Ordered.ended h ((on.count _).finish _) rfl
  · exact Ordered.ended h ((on.count _).finish _) rfl
  · rename_i flood read
    split
    · exact Ordered.ended h ((on.count _).finish _) rfl
    · rename_i wait told
      obtain ⟨round, log, once, rfl, rfl, rfl, status⟩ := round
      obtain ⟨told, may⟩ := Option.filter_eq_some_iff.mp told
      rw [Bool.and_eq_true, decide_eq_true_iff, decide_eq_true_iff] at may
      cases stalled with
      | true => cases read
      | false => exact ⟨h, round, wait, log, once, rfl, ⟨status, ⟨flood, read, told⟩, Nat.pos_of_ne_zero may.1, may.2⟩, rfl⟩

theorem Ordered.waitedOut {till : Instant} {data : Bytes} (h : Warranted c f call.log)
    (round : ∃ (round : Round u) (wait : Duration), call.log = round.log f ∧ round.Once f chat ∧ round.data = data ∧
      round.Waits c f wait ∧ till = deadline round.answeredAt wait) (due : till ≤ env.now) (response : Response) (flood : Bytes) :
    (call.waitedOut f env response flood data chat).Ordered c f := by
  obtain ⟨actions, quiet, log, booked⟩ := admit_cases f call env chat
  have on : Onward call (call.admits f env chat).2 := ⟨actions, quiet, log⟩
  obtain ⟨round, wait, log', once, rfl, waits, rfl⟩ := round
  have resent (till : Option Instant) (ok : (call.admits f env chat).1 = .ok till) :
      Resent c f (call.admits f env chat).2.log (till.getD env.now) round.data := by
    obtain ⟨later, booked⟩ := booked till ok
    refine ⟨{ round with since := round.since ++ actions }, chat, wait, ?_, rfl, once.append quiet, waits.append actions,
      Nat.le_trans due later, fun limited => ?_⟩
    · rw [log, log', round.log_append]
    · obtain ⟨asked, admitted, mem, le, ends⟩ := booked limited
      exact ⟨asked, admitted, List.mem_append_right _ mem, Nat.le_trans due le, ends⟩
  unfold Call.waitedOut
  split <;> rename_i eq <;> rw [eq] at on resent
  · exact Ordered.ended h ((on.refuse _).finish _) rfl
  · exact Ordered.goAgain (on.warranted h) (resent none rfl)
  · exact ⟨on.warranted h, resent _ rfl⟩

/-! ### Runs -/

theorem Onward.streamed {status : Nat} {headers : Headers} {moved : Download × List (Action u)} (quiet : Quiet moved.2) :
    call.Onward (call.streamed status headers moved) := ⟨moved.2, quiet, rfl⟩

theorem quiet_count (tally : Option Tally) (outcome : Tally → Outcome) :
    Quiet (u := u) ((tally.map fun tally => tally.count (outcome tally)).getD []) := by
  cases tally with
  | none => exact quiet_nil
  | some tally =>
    refine quiet_cons rfl ?_
    split
    · exact quiet_singleton rfl
    · exact quiet_nil

theorem quiet_pollFrame (download : Download) : Quiet (u := u) download.pollFrame.2 := by
  unfold Download.pollFrame
  split
  · exact quiet_nil
  · exact quiet_count _ fun _ => .upstreamError
  · exact quiet_count _ (·.outcome)

/-- A dropped request sends nothing more. -/
theorem Ordered.dropped (h : Warranted c f call.log) : Ordered c f { call.drop with phase := .dropped } :=
  ⟨(Onward.refl call).drop.warranted h, trivial⟩

theorem Ordered.step (h : call.Ordered c f) (env : Env) (wake : Wake) : (call.step c f env wake).Ordered c f := by
  obtain ⟨counted, forwarding, phase, log⟩ := call
  obtain ⟨warranted, course⟩ := h
  cases phase with
  | called =>
    cases wake with
    | drop => exact Ordered.dropped warranted
    | read | timer | upload | answered | poll | idle => exact ⟨warranted, course⟩
  | preparing scanned =>
    cases wake with
    | read stalled => exact Ordered.prepared warranted course _
    | drop => exact Ordered.dropped warranted
    | timer | upload | answered | poll | idle => exact ⟨warranted, course⟩
  | admitted till payload chat =>
    cases wake with
    | timer =>
      unfold Call.step
      dsimp only
      split
      · rename_i due
        exact Ordered.go warranted course.1 (course.2.mono due (List.Subset.refl _)) payload
      · exact ⟨warranted, course⟩
    | drop => exact Ordered.dropped warranted
    | read | upload | answered | poll | idle => exact ⟨warranted, course⟩
  | sending payload chat =>
    cases payload with
    | buffered data =>
      cases wake with
      | answered waited progress =>
        refine Ordered.answered warranted ?_ waited progress
        rintro _ ⟨⟩
        exact course
      | drop => exact Ordered.dropped warranted
      | read | timer | upload | poll | idle => exact ⟨warranted, course⟩
    | streamed stream =>
      cases wake with
      | upload pending => exact ⟨warranted, trivial⟩
      | answered waited progress => exact Ordered.answered warranted (by rintro _ ⟨⟩) waited progress
      | drop => exact Ordered.dropped warranted
      | read | timer | poll | idle => exact ⟨warranted, course⟩
  | flood response since data chat =>
    cases wake with
    | read stalled => exact Ordered.flooded warranted course stalled
    | drop => exact Ordered.dropped warranted
    | timer | upload | answered | poll | idle => exact ⟨warranted, course⟩
  | waiting till response flood data chat =>
    cases wake with
    | timer =>
      unfold Call.step
      dsimp only
      split
      · exact Ordered.waitedOut warranted course ‹_› response flood
      · exact ⟨warranted, course⟩
    | drop => exact Ordered.dropped warranted
    | read | upload | answered | poll | idle => exact ⟨warranted, course⟩
  | readmitted till data =>
    cases wake with
    | timer =>
      unfold Call.step
      dsimp only
      split
      · rename_i due
        have resent := Resent.append course quiet_nil due
        rw [List.append_nil] at resent
        exact Ordered.goAgain warranted resent
      · exact ⟨warranted, course⟩
    | drop => exact Ordered.dropped warranted
    | read | upload | answered | poll | idle => exact ⟨warranted, course⟩
  | resending data =>
    cases wake with
    | answered waited progress =>
      have on := Onward.received (f := f) ⟨counted, forwarding, .resending data, log⟩ env waited progress
      unfold Call.step
      dsimp only
      split <;> rename_i eq <;> rw [eq] at on
      · exact Ordered.relay warranted on _
      · exact Ordered.failed warranted on _
    | drop => exact Ordered.dropped warranted
    | read | timer | upload | poll | idle => exact ⟨warranted, course⟩
  | answered answer =>
    cases answer with
    | relay status headers download =>
      cases wake with
      | poll => exact Ordered.ended warranted (Onward.streamed (quiet_pollFrame download)) rfl
      | idle => exact Ordered.ended warranted (Onward.streamed (quiet_count download.tally fun _ => .upstreamError)) rfl
      | drop => exact ⟨warranted.append (quiet_count download.tally (·.outcome)), trivial⟩
      | read | timer | upload | answered => exact ⟨warranted, course⟩
    | error | whole | rest =>
      cases wake with
      | drop => exact ⟨warranted, trivial⟩
      | read | timer | upload | answered | poll | idle => exact ⟨warranted, course⟩
  | dropped => cases wake <;> exact ⟨warranted, course⟩

theorem Ordered.start (c : Reading u) (f : Forward u) (env : Env) : (start c f env).Ordered c f := by
  unfold Call.start
  dsimp only
  split
  · exact Ordered.failed .nil (Onward.refl _) _
  · split
    · rename_i once
      refine Ordered.go .nil quiet_nil (fun limited => ?_) _
      rw [Forward.resendable, limited] at once
      cases once
    · split
      · exact ⟨.nil, quiet_nil⟩
      · exact Ordered.prepared .nil quiet_nil _

theorem run_ordered (c : Reading u) (f : Forward u) (env : Env) (events : List (Env × Wake)) : (run c f env events).Ordered c f := by
  suffices ∀ call : Call u, call.Ordered c f → (events.foldl (fun call e => call.step c f e.1 e.2) call).Ordered c f from
    this _ (Ordered.start c f env)
  induction events with
  | nil => exact fun _ h => h
  | cons e events ih => exact fun call h => ih _ (h.step e.1 e.2)

end Call

/-! ### The sends of a log -/

/-- The last of a list, or one before it. -/
theorem concat_eq {α : Type} {log before after : List α} {a b : α} (eq : log ++ [a] = before ++ b :: after) :
    log = before ∧ a = b ∨ ∃ after', log = before ++ b :: after' := by
  rcases List.eq_nil_or_concat after with rfl | ⟨after', a', rfl⟩
  · obtain ⟨rfl, same⟩ := List.append_inj' eq rfl
    exact .inl ⟨rfl, List.singleton_injective same⟩
  · rw [List.concat_eq_append, ← List.cons_append, ← List.append_assoc] at eq
    exact .inr ⟨after', (List.append_inj' eq rfl).1⟩

section
variable {c : Reading u} {f : Forward u} {log before after : List (Action u)} {now : Instant} {what : Sent u} {data : Bytes}

theorem quiet_iff : Quiet log ↔ log.countP (·.isSent) = 0 := by
  rw [List.countP_eq_zero]
  exact forall₂_congr fun a _ => (Bool.not_eq_true _).symm ▸ Iff.rfl

theorem Round.countP_log {round : Round u} {chat : Option ChatKey} (once : round.Once f chat) : (round.log f).countP (·.isSent) = 1 := by
  rw [Round.log, List.countP_append, List.countP_cons, List.countP_append, List.countP_cons, quiet_iff.mp once.before,
    quiet_iff.mp once.between, quiet_iff.mp once.since]
  rfl

theorem Warranted.countP_le (h : Warranted c f log) : log.countP (·.isSent) ≤ 2 := by
  induction h with
  | nil => exact Nat.zero_le 2
  | other h quiet ih => rwa [List.countP_append, quiet_iff.mp (quiet_singleton quiet)]
  | first now payload h quiet ih =>
    rw [List.countP_append, quiet_iff.mp quiet]
    exact Nat.le_succ 1
  | again h resent ih =>
    obtain ⟨round, chat, wait, rfl, -, once, -⟩ := resent
    rw [List.countP_append, Round.countP_log once]
    exact Nat.le_refl 2

/-- A send was the first, or was allowed as the second by what came before. -/
theorem Warranted.sent (h : Warranted c f log) (eq : log = before ++ .sent now what :: after) :
    ∃ payload, what = f.sent payload ∧ (Quiet before ∨ ∃ data, payload = .buffered data ∧ Resent c f before now data) := by
  induction h generalizing after with
  | nil => exact absurd eq (by simp)
  | other h quiet ih =>
    rcases concat_eq eq with ⟨-, rfl⟩ | ⟨after', eq⟩
    · cases quiet
    · exact ih eq
  | first now payload h quiet ih =>
    rcases concat_eq eq with ⟨rfl, same⟩ | ⟨after', eq⟩
    · cases same
      exact ⟨payload, rfl, .inl quiet⟩
    · exact ih eq
  | again h resent ih =>
    rcases concat_eq eq with ⟨rfl, same⟩ | ⟨after', eq⟩
    · cases same
      exact ⟨_, rfl, .inr ⟨_, rfl, resent⟩⟩
    · exact ih eq

/-- What is sent again was sent the first time, its body read whole. -/
theorem Resent.first (h : Resent c f log now data) {earlier : Instant} (mem : .sent earlier what ∈ log) :
    what = f.sent (.buffered data) := by
  obtain ⟨round, chat, wait, rfl, rfl, once, -⟩ := h
  rcases List.mem_append.mp mem with mem | mem
  · cases once.before _ mem
  · rcases List.mem_cons.mp mem with same | mem
    · cases same
      rfl
    · rcases List.mem_append.mp mem with mem | mem
      · cases once.between _ mem
      · rcases List.mem_cons.mp mem with same | mem
        · cases same
        · cases once.since _ mem

end

/-- Whatever the origin and the limits answer, and whenever the request is dropped, a request is sent twice at most. What is sent is
    the request; the second time its body was read whole, the answer was a 429 with a wait above zero that it may wait out and has
    waited out, and where the limits apply they were booked again for that later instant. A streamed body is sent once. -/
theorem run_sends (c : Reading u) (f : Forward u) (env : Env) (events : List (Env × Wake)) :
    let log := (Call.run c f env events).log
    log.countP (·.isSent) ≤ 2 ∧
      ∀ before now what after, log = before ++ .sent now what :: after →
        (∃ payload, what = f.sent payload) ∧
        (¬Quiet before → ∃ data, what.payload = .buffered data ∧ Resent c f before now data) ∧
        ∀ stream, what.payload = .streamed stream → Quiet before ∧ Quiet after := by
  have warranted := (Call.run_ordered c f env events).log
  refine ⟨warranted.countP_le, fun before now what after eq => ?_⟩
  obtain ⟨payload, rfl, first⟩ := warranted.sent eq
  refine ⟨⟨payload, rfl⟩, fun again => ?_, fun stream streamed => ?_⟩
  · rcases first with quiet | ⟨data, rfl, resent⟩
    · exact absurd quiet again
    · exact ⟨data, rfl, resent⟩
  · replace streamed : payload = .streamed stream := streamed
    refine ⟨?_, fun a mem => ?_⟩
    · rcases first with quiet | ⟨data, rfl, -⟩
      · exact quiet
      · cases streamed
    · -- A later send would have come after this one.
      cases later : a.isSent with
      | false => rfl
      | true =>
        obtain ⟨between, rest, rfl⟩ := List.append_of_mem mem
        cases a with
        | sent later what =>
          rw [← List.cons_append, ← List.append_assoc] at eq
          obtain ⟨payload', -, quiet | ⟨data, -, resent⟩⟩ := warranted.sent eq
          · cases quiet _ (List.mem_append_right _ List.mem_cons_self)
          · have same := resent.first (List.mem_append_right _ List.mem_cons_self)
            rw [Forward.sent, Forward.sent, Sent.mk.injEq, streamed] at same
            cases same.2.2
        | _ => cases later

end Tgin.Gateway.Proxy
