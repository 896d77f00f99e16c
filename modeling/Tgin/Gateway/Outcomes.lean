import Tgin.Gateway.Carried
import Tgin.Gateway.Proxy

/-! One outcome for every request forwarded, and its `Forwarding` dropped once, by the call or by the response body it was handed
    to. -/

namespace Tgin.Gateway.Proxy
open LocalFiles (Bytes Encoding)

variable {u : Urls}

/-! ### Who answers for the count -/

def Action.isCount : Action u → Bool
  | .count _ => true
  | _ => false

def Action.isLower : Action u → Bool
  | .lower => true
  | _ => false

/-- The tally a response body still has. -/
def Answer.tally : Answer → Option Tally
  | .relay _ _ download => download.tally
  | _ => none

namespace Call

/-- How many outcomes were counted for the request. -/
def counts (call : Call u) : Nat := call.log.countP (·.isCount)

/-- How often its `Forwarding` was dropped. -/
def lowers (call : Call u) : Nat := call.log.countP (·.isLower)

/-- Nothing of the request is left: neither its future nor a response body that streams. -/
def isOver (call : Call u) : Bool :=
  match call.phase with
  | .answered answer => answer.tally.isNone
  | .dropped => true
  | _ => false

/-- The call is to count the request, and holds its `Forwarding`. -/
structure Owes (call : Call u) : Prop where
  counted : call.counted = false
  forwarding : call.forwarding = true
  counts : call.counts = 0
  lowers : call.lowers = 0

/-- The request was counted and its `Forwarding` dropped. -/
structure Settled (call : Call u) : Prop where
  counts : call.counts = 1
  lowers : call.lowers = 1

/-- Neither yet. -/
structure Pending (call : Call u) : Prop where
  counts : call.counts = 0
  lowers : call.lowers = 0

/-- One of the call, the response body and the log answers for the request. -/
def Sound (call : Call u) : Prop :=
  match call.phase with
  | .answered answer =>
    match answer.tally with
    | some tally => tally.forwarding = true ∧ call.Pending
    | none => call.Settled
  | .dropped => call.Settled
  | _ => call.Owes

variable {c : Reading u} {f : Forward u} {call : Call u} {env : Env}

theorem Owes.moved (h : call.Owes) (phase : Phase) : Owes { call with phase } := ⟨h.counted, h.forwarding, h.counts, h.lowers⟩

theorem Owes.push (h : call.Owes) {actions : List (Action u)} (counts : actions.countP (·.isCount) = 0)
    (lowers : actions.countP (·.isLower) = 0) : (call.push actions).Owes where
  counted := h.counted
  forwarding := h.forwarding
  counts := by rw [Call.counts, Call.push, List.countP_append, counts, Nat.add_zero]; exact h.counts
  lowers := by rw [Call.lowers, Call.push, List.countP_append, lowers, Nat.add_zero]; exact h.lowers

theorem Settled.moved (h : call.Settled) (phase : Phase) : Settled { call with phase } := ⟨h.counts, h.lowers⟩

/-- A count, and the drop of the `Forwarding`, after neither. -/
theorem Pending.settled (h : call.Pending) {call' : Call u} (outcome : Outcome)
    (log : call'.log = call.log ++ [.count outcome, .lower]) : call'.Settled where
  counts := by rw [Call.counts, log, List.countP_append]; exact congrArg (· + 1) h.counts
  lowers := by rw [Call.lowers, log, List.countP_append]; exact congrArg (· + 1) h.lowers

theorem Owes.pending (h : call.Owes) : call.Pending := ⟨h.counts, h.lowers⟩

theorem Owes.drop (h : call.Owes) : call.drop.Settled := by
  refine h.pending.settled .clientClosed ?_
  obtain ⟨counted, forwarding, phase, log⟩ := call
  obtain ⟨rfl, rfl, -, -⟩ := h
  exact List.append_assoc ..

theorem Owes.finish (h : call.Owes) (outcome : Outcome) {answer : Answer} (whole : answer.tally = none) :
    ((call.count outcome).finish answer).Sound := by
  have settled : ((call.count outcome).finish answer).Settled := by
    refine h.pending.settled outcome ?_
    obtain ⟨counted, forwarding, phase, log⟩ := call
    obtain ⟨rfl, rfl, -, -⟩ := h
    exact List.append_assoc ..
  rw [Sound, show ((call.count outcome).finish answer).phase = .answered answer from rfl]
  dsimp only
  rw [whole]
  exact settled

theorem Owes.failed (h : call.Owes) (failed : Failed) : (call.failed f failed).Sound := by
  cases failed with
  | refused refusal => cases refusal <;> exact h.finish _ rfl
  | clientClosed | unreachable | idle | clientIdle | noAnswer | parked => exact h.finish _ rfl

/-- The response body takes over. -/
theorem Owes.relay (h : call.Owes) (response : Response) : (call.relay response).Sound :=
  ⟨h.forwarding, h.counts, h.lowers⟩

theorem Owes.admits (h : call.Owes) (env : Env) (chat : Option ChatKey) : (call.admits f env chat).2.Owes := by
  have asked : (call.push [.asked chat env.now env.limits]).Owes := h.push rfl rfl
  unfold Call.admits
  split
  · exact h
  · dsimp only
    split
    · exact asked
    · split
      · exact asked
      · exact asked.push rfl rfl

theorem Owes.refuse (h : call.Owes) (limited : Limited) {answer : Answer} (whole : answer.tally = none) :
    ((call.refuse limited).finish answer).Sound :=
  Owes.finish (h.push rfl rfl) .rateLimited whole

theorem Owes.send (h : call.Owes) {payload : Payload} {again : Bool} {next : Phase} {sent : Call u}
    (sends : call.send f env payload again next = .ok sent) : sent.Owes ∧ sent.phase = next := by
  unfold Call.send at sends
  split at sends
  · cases sends
  · cases sends
    refine ⟨Owes.moved (Owes.push ?_ rfl rfl) next, rfl⟩
    cases again with
    | true => exact h.push rfl rfl
    | false => exact h

theorem Owes.received (h : call.Owes) (env : Env) (waited : Waited) (progress : Progress) :
    (call.received f env waited progress).2.Owes := by
  unfold Call.received
  cases exchange waited progress with
  | ok response =>
    have answered : (call.push [.answered env.now response]).Owes := h.push rfl rfl
    dsimp only
    split
    · exact answered.push rfl rfl
    · exact answered
  | error failed =>
    dsimp only
    split
    · split
      · exact h.push rfl rfl
      · exact h
      · exact h
      · exact h.push rfl rfl
    · exact h

theorem Owes.go (h : call.Owes) (payload : Payload) (chat : Option ChatKey) : (call.go f env payload chat).Sound := by
  unfold Call.go
  split
  · rename_i sends
    obtain ⟨owes, phase⟩ := h.send sends
    rw [Sound, phase]
    exact owes
  · split
    · exact h.failed _
    · exact h.failed _

theorem Owes.goAgain (h : call.Owes) (data : Bytes) : (call.goAgain f env data).Sound := by
  unfold Call.goAgain
  split
  · rename_i sends
    obtain ⟨owes, phase⟩ := h.send sends
    rw [Sound, phase]
    exact owes
  · exact h.failed _

theorem Owes.prepared (h : call.Owes) (prepared : Except Failed (Payload × Option ChatKey)) : (call.prepared f env prepared).Sound := by
  unfold Call.prepared
  split
  · exact h.failed _
  · rename_i payload chat
    have admitted := h.admits (f := f) env chat
    split <;> rename_i eq <;> rw [eq] at admitted
    · exact admitted.refuse _ rfl
    · exact admitted.go _ _
    · exact admitted.moved _

theorem Owes.answered (h : call.Owes) (waited : Waited) (progress : Progress) (payload : Payload) (chat : Option ChatKey) :
    (call.answered f env waited progress payload chat).Sound := by
  have received := h.received (f := f) env waited progress
  unfold Call.answered
  split <;> rename_i eq <;> rw [eq] at received
  · exact received.relay _
  · exact received.failed _
  · exact received.failed _
  · split
    · exact received.relay _
    · exact received.moved _

theorem Owes.flooded (h : call.Owes) (response : Response) (since : Instant) (data : Bytes) (chat : Option ChatKey) (stalled : Bool) :
    (call.flooded c f response since data chat stalled).Sound := by
  unfold Call.flooded
  dsimp only
  split
  · exact h.finish _ rfl
  · exact h.finish _ rfl
  · split
    · exact h.finish _ rfl
    · exact h.moved _

theorem Owes.waitedOut (h : call.Owes) (response : Response) (flood data : Bytes) (chat : Option ChatKey) :
    (call.waitedOut f env response flood data chat).Sound := by
  have admitted := h.admits (f := f) env chat
  unfold Call.waitedOut
  split <;> rename_i eq <;> rw [eq] at admitted
  · exact admitted.refuse _ rfl
  · exact admitted.goAgain _
  · exact admitted.moved _

theorem Owes.resent (h : call.Owes) (waited : Waited) (progress : Progress) :
    (match call.received f env waited progress with
      | (.ok response, call) => call.relay response
      | (.error failed, call) => call.failed f failed).Sound := by
  have received := h.received (f := f) env waited progress
  split <;> rename_i eq <;> rw [eq] at received
  · exact received.relay _
  · exact received.failed _

/-- What a response body did: it kept its tally and nothing more, or gave it up with its count. -/
inductive Gave (download : Download) : Download × List (Action u) → Prop
  | kept (body : Body) : Gave download ({ download with body }, [])
  | counted (body : Body) (outcome : Tally → Outcome) :
    Gave download ({ body, tally := none }, (download.tally.map fun tally => tally.count (outcome tally)).getD [])

theorem pollFrame_gave (download : Download) : Gave (u := u) download download.pollFrame := by
  unfold Download.pollFrame
  split
  · exact .kept _
  · exact .counted _ fun _ => .upstreamError
  · exact .counted _ (·.outcome)

/-- The tally counts, and lets the `Forwarding` go with it. -/
theorem Pending.counted (h : call.Pending) {tally : Tally} (holds : tally.forwarding = true) (outcome : Outcome) :
    (call.push (tally.count outcome)).Settled := by
  refine h.settled outcome ?_
  rw [Call.push, Tally.count, holds]
  rfl

section
variable {counted forwarding : Bool} {log : List (Action u)} {status : Nat} {headers : Headers} {download : Download}

/-- A streaming answer is sound with its tally, or once the tally has counted. -/
theorem sound_relay : Sound ⟨counted, forwarding, .answered (.relay status headers download), log⟩ ↔
    (∀ tally, download.tally = some tally → tally.forwarding = true ∧ Pending ⟨counted, forwarding, .dropped, log⟩) ∧
      (download.tally = none → Settled ⟨counted, forwarding, .dropped, log⟩) := by
  unfold Sound
  dsimp only [Answer.tally]
  cases download.tally with
  | none => exact ⟨fun h => ⟨nofun, fun _ => ⟨h.counts, h.lowers⟩⟩, fun h => ⟨(h.2 rfl).counts, (h.2 rfl).lowers⟩⟩
  | some tally =>
    constructor
    · rintro ⟨holds, counts, lowers⟩
      exact ⟨by rintro _ ⟨⟩; exact ⟨holds, counts, lowers⟩, nofun⟩
    · rintro ⟨h, -⟩
      obtain ⟨holds, counts, lowers⟩ := h tally rfl
      exact ⟨holds, counts, lowers⟩

theorem settled_gave (h : Sound ⟨counted, forwarding, .answered (.relay status headers download), log⟩)
    (outcome : Tally → Outcome) :
    Settled ⟨counted, forwarding, .dropped, log ++ (download.tally.map fun tally => tally.count (outcome tally)).getD []⟩ := by
  obtain ⟨streams, ended⟩ := sound_relay.mp h
  cases tally : download.tally with
  | none =>
    rw [Option.map_none, Option.getD_none, List.append_nil]
    exact ended tally
  | some tally' => exact (streams tally' tally).2.counted (streams tally' tally).1 (outcome tally')

theorem sound_streamed (h : Sound ⟨counted, forwarding, .answered (.relay status headers download), log⟩)
    {moved : Download × List (Action u)} (gave : Gave download moved) :
    (streamed ⟨counted, forwarding, .answered (.relay status headers download), log⟩ status headers moved).Sound := by
  refine sound_relay.mpr ?_
  cases gave with
  | kept body =>
    have same := sound_relay.mp h
    rw [← List.append_nil log] at same
    exact same
  | counted body outcome => exact ⟨nofun, fun _ => settled_gave h outcome⟩

end

theorem Sound.step (h : call.Sound) (env : Env) (wake : Wake) : (call.step c f env wake).Sound := by
  obtain ⟨counted, forwarding, phase, log⟩ := call
  cases phase with
  | called =>
    cases wake with
    | drop => exact (Owes.drop h).moved .dropped
    | _ => exact h
  | preparing scanned =>
    cases wake with
    | read stalled => exact Owes.prepared h _
    | drop => exact (Owes.drop h).moved .dropped
    | timer | upload | answered | poll | idle => exact h
  | admitted till payload chat =>
    cases wake with
    | timer =>
      unfold Call.step
      dsimp only
      split
      · exact Owes.go h payload chat
      · exact h
    | drop => exact (Owes.drop h).moved .dropped
    | read | upload | answered | poll | idle => exact h
  | sending payload chat =>
    cases wake with
    | upload pending =>
      cases payload with
      | buffered data => exact h
      | streamed stream => exact Owes.moved h _
    | answered waited progress =>
      cases payload with
      | buffered data => exact Owes.answered h waited progress _ chat
      | streamed stream => exact Owes.answered h waited progress _ chat
    | drop => cases payload <;> exact (Owes.drop h).moved .dropped
    | read | timer | poll | idle => cases payload <;> exact h
  | flood response since data chat =>
    cases wake with
    | read stalled => exact Owes.flooded h response since data chat stalled
    | drop => exact (Owes.drop h).moved .dropped
    | timer | upload | answered | poll | idle => exact h
  | waiting till response flood data chat =>
    cases wake with
    | timer =>
      unfold Call.step
      dsimp only
      split
      · exact Owes.waitedOut h response flood data chat
      · exact h
    | drop => exact (Owes.drop h).moved .dropped
    | read | upload | answered | poll | idle => exact h
  | readmitted till data =>
    cases wake with
    | timer =>
      unfold Call.step
      dsimp only
      split
      · exact Owes.goAgain h data
      · exact h
    | drop => exact (Owes.drop h).moved .dropped
    | read | upload | answered | poll | idle => exact h
  | resending data =>
    cases wake with
    | answered waited progress => exact Owes.resent h waited progress
    | drop => exact (Owes.drop h).moved .dropped
    | read | timer | upload | poll | idle => exact h
  | answered answer =>
    cases answer with
    | relay status headers download =>
      cases wake with
      | poll => exact sound_streamed h (pollFrame_gave download)
      | idle => exact sound_streamed h (.counted _ fun _ => .upstreamError)
      | drop => exact settled_gave h (·.outcome)
      | read | timer | upload | answered => exact h
    | error | whole | rest =>
      cases wake with
      | drop => exact Settled.moved h _
      | _ => exact h
  | dropped => cases wake <;> exact h

variable (c f) in
theorem start_sound (env : Env) : (start c f env).Sound := by
  have owes : Owes (u := u) { counted := false, forwarding := true, phase := .called, log := [] } := ⟨rfl, rfl, rfl, rfl⟩
  unfold start
  dsimp only
  split
  · exact owes.failed _
  · split
    · exact owes.go _ _
    · split
      · exact owes.moved _
      · exact owes.prepared _

/-- What is over has been counted, and nothing else has. -/
theorem Sound.cases (h : call.Sound) : call.isOver = true ∧ call.Settled ∨ call.isOver = false ∧ call.Pending := by
  obtain ⟨counted, forwarding, phase, log⟩ := call
  cases phase with
  | answered answer =>
    have left : isOver ⟨counted, forwarding, .answered answer, log⟩ = answer.tally.isNone := rfl
    unfold Sound at h
    dsimp only at h
    cases tally : answer.tally with
    | none =>
      rw [tally] at h left
      exact .inl ⟨left, h⟩
    | some _ =>
      rw [tally] at h left
      exact .inr ⟨left, h.2⟩
  | dropped => exact .inl ⟨rfl, h⟩
  | called | preparing | admitted | sending | flood | waiting | readmitted | resending => exact .inr ⟨rfl, Owes.pending h⟩

theorem Sound.counts (h : call.Sound) : call.counts = if call.isOver then 1 else 0 := by
  rcases h.cases with ⟨left, h⟩ | ⟨left, h⟩ <;> rw [left] <;> exact h.counts

theorem Sound.lowers (h : call.Sound) : call.lowers = if call.isOver then 1 else 0 := by
  rcases h.cases with ⟨left, h⟩ | ⟨left, h⟩ <;> rw [left] <;> exact h.lowers

/-- What is over stays over. -/
theorem step_isOver (over' : call.isOver = true) (env : Env) (wake : Wake) : (call.step c f env wake).isOver = true := by
  obtain ⟨counted, forwarding, phase, log⟩ := call
  cases phase with
  | answered answer =>
    cases answer with
    | relay status headers download =>
      obtain ⟨body, tally⟩ := download
      cases Option.isNone_iff_eq_none.mp over'
      cases wake with
      | poll =>
        change (Download.pollFrame (u := u) ⟨body, none⟩).1.tally.isNone = true
        unfold Download.pollFrame
        split <;> rfl
      | read | timer | upload | answered | idle | drop => rfl
    | error | whole | rest => cases wake <;> rfl
  | dropped => cases wake <;> rfl
  | called | preparing | admitted | sending | flood | waiting | readmitted | resending => cases over'

/-- Dropped, a request is over. -/
theorem step_drop (call : Call u) (env : Env) : (call.step c f env .drop).isOver = true := by
  obtain ⟨counted, forwarding, phase, log⟩ := call
  cases phase with
  | answered answer => cases answer <;> rfl
  | sending payload chat => cases payload <;> rfl
  | called | preparing | admitted | flood | waiting | readmitted | resending | dropped => rfl

end Call

/-! ### The requests in flight -/

variable (u) in
/-- The requests the gateway forwards, and how many it counts in flight. -/
structure System where
  inFlight : Nat
  calls : List (Forward u × Call u)

variable (u) in
inductive Event where
  /-- A request is forwarded, with a `Forwarding` of its own. -/
  | forward (f : Forward u) (env : Env)
  /-- One of them takes a step. -/
  | step (i : Nat) (env : Env) (wake : Wake)

namespace System

def new : System u := { inFlight := 0, calls := [] }

/-- A `Forwarding` raises the count when it is made, and lowers it when it is dropped. -/
def step (c : Reading u) (s : System u) : Event u → System u
  | .forward f env =>
    let call := Call.start c f env
    { inFlight := s.inFlight + 1 - call.lowers, calls := s.calls ++ [(f, call)] }
  | .step i env wake =>
    match s.calls[i]? with
    | none => s
    | some (f, call) =>
      let next := call.step c f env wake
      { inFlight := s.inFlight - (next.lowers - call.lowers), calls := s.calls.set i (f, next) }

def run (c : Reading u) (events : List (Event u)) : System u := events.foldl (step c) new

/-- What holds between any two steps. -/
structure Invariant (s : System u) : Prop where
  sound : ∀ call ∈ s.calls, call.2.Sound
  inFlight : s.inFlight = s.calls.countP fun call => !call.2.isOver

variable {c : Reading u} {s : System u}

theorem invariant_step (h : s.Invariant) (e : Event u) : (s.step c e).Invariant := by
  cases e with
  | forward f env =>
    have sound := Call.start_sound c f env
    constructor
    · intro call hc
      rcases List.mem_append.mp hc with hc | hc
      · exact h.sound call hc
      · rw [List.mem_singleton.mp hc]
        exact sound
    · have lowers := sound.lowers
      simp only [step, List.countP_append, List.countP_singleton, ← h.inFlight, lowers]
      cases (Call.start c f env).isOver <;> rfl
  | step i env wake =>
    simp only [step]
    split
    · exact h
    · rename_i f call hi
      have before := h.sound _ (List.mem_of_getElem? hi)
      have after := before.step (c := c) (f := f) env wake
      constructor
      · intro call' hc
        rcases List.mem_or_eq_of_mem_set hc with hc | rfl
        · exact h.sound call' hc
        · exact after
      · have count := countP_set_add (fun call : Forward u × Call u => !call.2.isOver) hi (f, call.step c f env wake)
        have stays (left : call.isOver = true) := Call.step_isOver (c := c) (f := f) left env wake
        dsimp only at count ⊢
        rw [before.lowers, after.lowers, h.inFlight]
        cases over' : call.isOver with
        | true =>
          rw [stays over'] at count ⊢
          rw [over'] at count
          simpa using count.symm
        | false =>
          rw [over'] at count
          cases over'' : (call.step c f env wake).isOver with
          | true =>
            rw [over''] at count
            simp only [Bool.not_false, if_true, Bool.not_true, Bool.false_eq_true, if_false] at count ⊢
            omega
          | false =>
            rw [over''] at count
            simpa using count.symm

theorem invariant_run (c : Reading u) (events : List (Event u)) : (run c events).Invariant := by
  suffices ∀ s : System u, s.Invariant → (events.foldl (step c) s).Invariant from
    this new ⟨fun _ h => absurd h List.not_mem_nil, rfl⟩
  induction events with
  | nil => exact fun _ h => h
  | cons e events ih => exact fun s h => ih _ (invariant_step h e)

/-- Over every run of any number of requests: exactly one outcome is counted for a request and its `Forwarding` is dropped exactly
    once, both when nothing of the request is left, which its drop brings about at any point; the count in flight is that of the
    others. -/
theorem run_settles (c : Reading u) (events : List (Event u)) :
    let s := run c events
    s.inFlight = s.calls.countP (fun call => !call.2.isOver) ∧
      ∀ f call, (f, call) ∈ s.calls →
        call.counts = (if call.isOver then 1 else 0) ∧ call.lowers = (if call.isOver then 1 else 0) ∧
          ∀ env, (call.step c f env .drop).counts = 1 ∧ (call.step c f env .drop).lowers = 1 := by
  have h := invariant_run c events
  refine ⟨h.inFlight, fun f call mem => ?_⟩
  have sound := h.sound _ mem
  refine ⟨sound.counts, sound.lowers, fun env => ?_⟩
  have dropped := sound.step (c := c) (f := f) env .drop
  have gone := Call.step_drop (c := c) (f := f) call env
  rw [dropped.counts, dropped.lowers, gone]
  exact ⟨rfl, rfl⟩

end System

end Tgin.Gateway.Proxy
