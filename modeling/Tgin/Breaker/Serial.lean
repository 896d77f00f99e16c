import Tgin.Breaker

/-! Requests one at a time: each reports before the breaker admits the next. The breaker then counts the failures since the last
    success, and opens on the one that reaches the threshold. -/

namespace Tgin.Breaker

/-- A call on the breaker. -/
inductive Call where
  | allow (now : Instant)
  | success
  | failure (now : Instant)
  deriving DecidableEq, Repr

/-- How many failures have been reported since the last success. -/
def streak (calls : List Call) : Nat :=
  calls.foldl
    (fun n call =>
      match call with
      | .allow _ => n
      | .success => 0
      | .failure _ => n + 1)
    0

@[simp] theorem streak_allow (calls : List Call) (now : Instant) : streak (calls ++ [.allow now]) = streak calls := by
  rw [streak, List.foldl_append, streak]
  rfl

@[simp] theorem streak_success (calls : List Call) : streak (calls ++ [.success]) = 0 := by
  rw [streak, List.foldl_append]
  rfl

@[simp] theorem streak_failure (calls : List Call) (now : Instant) : streak (calls ++ [.failure now]) = streak calls + 1 := by
  rw [streak, List.foldl_append, streak]
  rfl

/-- The breaker, and whether a request it admitted has not reported yet. -/
structure Client where
  breaker : Breaker
  pending : Bool
  deriving DecidableEq, Repr

/-- One call: no request is admitted beside another, and only an admitted request reports. -/
inductive Client.Step : Client → Call → Client → Prop where
  | allow {c : Client} {now : Instant} (alone : c.pending → (c.breaker.allow now).1 = false) :
    Step c (.allow now) { breaker := (c.breaker.allow now).2, pending := c.pending || (c.breaker.allow now).1 }
  | success {c : Client} (pending : c.pending) : Step c .success { breaker := c.breaker.onSuccess, pending := false }
  | failure {c : Client} {now : Instant} (pending : c.pending) :
    Step c (.failure now) { breaker := c.breaker.onFailure now, pending := false }

/-- The states that calls lead to. -/
inductive Client.Reached (cfg : BreakerConfig) (base : Instant) : List Call → Client → Prop where
  | new : Reached cfg base [] { breaker := .new cfg base, pending := false }
  | step {calls : List Call} {c c' : Client} {call : Call} (before : Reached cfg base calls c) (step : c.Step call c') :
    Reached cfg base (calls ++ [call]) c'

/-! ### What a call does to the count -/

section
variable {b : Breaker}

theorem allow_opened (h : b.state = .opened) (now : Instant) :
    b.allow now = if b.offset now < b.reopensAt (b.word >>> STATE_BITS) then (false, b)
      else (true, { b with word := pack HALF_OPEN (b.word >>> STATE_BITS) }) := by
  have word := word_of_opened h
  rw [allow, if_neg (by rw [word]; decide), if_pos word]
  simp only [compareExchange, if_true]

theorem allow_early (h : b.state = .opened) {now : Instant} (early : b.offset now < b.reopensAt (b.word >>> STATE_BITS)) :
    b.allow now = (false, b) := by
  rw [allow_opened h, if_pos early]

theorem allow_due (h : b.state = .opened) {now : Instant} (due : ¬ b.offset now < b.reopensAt (b.word >>> STATE_BITS)) :
    b.allow now = (true, { b with word := pack HALF_OPEN (b.word >>> STATE_BITS) }) := by
  rw [allow_opened h, if_neg due]

/-- An admission changes the state word only, and neither opens nor closes the breaker. -/
theorem allow_keeps (hw : b.WellFormed) (now : Instant) :
    ∃ word, (b.allow now).2 = { b with word } ∧ WellFormed { b with word } ∧
      (({ b with word } : Breaker).state = .closed ↔ b.state = .closed) := by
  cases hs : b.state with
  | closed =>
    rw [allow_of_closed hs]
    exact ⟨b.word, rfl, hw, by rw [← hs]⟩
  | halfOpen =>
    rw [allow_of_halfOpen hw hs]
    exact ⟨b.word, rfl, hw, by rw [← hs]⟩
  | opened =>
    by_cases early : b.offset now < b.reopensAt (b.word >>> STATE_BITS)
    · rw [allow_early hs early]
      exact ⟨b.word, rfl, hw, by rw [← hs]⟩
    · rw [allow_due hs early]
      refine ⟨_, rfl, wellFormed_pack (.inr (.inr rfl)) _, ?_⟩
      rw [state_of_halfOpen (pack_and_mask (by decide) _)]
      decide

theorem openFrom_opens (b : Breaker) (now : Instant) :
    ∃ word, b.openFrom b.word now = { b with word } ∧ WellFormed { b with word } ∧
      ({ b with word } : Breaker).state = .opened := by
  refine ⟨pack OPEN (b.offset now), ?_, wellFormed_pack (.inr (.inl rfl)) _, state_of_opened (pack_and_mask (by decide) _)⟩
  rw [openFrom, compareExchange, if_pos rfl]

theorem onFailure_opens (hw : b.WellFormed) (h : b.state = .halfOpen) (now : Instant) :
    ∃ word, b.onFailure now = { b with word } ∧ WellFormed { b with word } ∧ ({ b with word } : Breaker).state = .opened := by
  rw [onFailure, if_pos (word_of_halfOpen hw h)]
  exact openFrom_opens b now

/-- A failure opens a closed breaker once it makes up the threshold, else it counts. -/
theorem onFailure_closed (h : b.state = .closed) (below : b.failures < 2 ^ 32 - 1) (now : Instant) :
    b.onFailure now = if b.cfg.failureThreshold ≤ b.failures + 1
      then ({ b with failures := b.failures + 1 } : Breaker).openFrom b.word now else { b with failures := b.failures + 1 } := by
  have word := word_of_closed h
  have count : min (b.failures + 1) (2 ^ 32 - 1) = b.failures + 1 := Nat.min_eq_left below
  have fits : (b.failures + 1) % 2 ^ 32 = b.failures + 1 := Nat.mod_eq_of_lt (by omega)
  rw [onFailure, if_neg (by rw [word]; decide), if_pos word, count, fits]

/-- Both readings of the state agree: a call would be admitted at once when there is no wait. -/
theorem readyIn_eq_zero (b : Breaker) (now : Instant) : b.readyIn now = some 0 ↔ (b.allow now).1 = true := by
  by_cases closed : b.word &&& STATE_MASK = CLOSED
  · rw [readyIn, if_pos closed, allow_of_closed (state_of_closed closed)]
    exact ⟨fun _ => rfl, fun _ => rfl⟩
  · by_cases opened : b.word &&& STATE_MASK = OPEN
    · rw [readyIn, if_neg closed, if_pos opened, Option.some_inj]
      by_cases early : b.offset now < b.reopensAt (b.word >>> STATE_BITS)
      · rw [allow_early (state_of_opened opened) early]
        exact ⟨fun zero => absurd zero (Nat.sub_ne_zero_of_lt early), by rintro ⟨⟩⟩
      · rw [allow_due (state_of_opened opened) early]
        exact ⟨fun _ => rfl, fun _ => Nat.sub_eq_zero_of_le (Nat.le_of_not_lt early)⟩
    · rw [readyIn, if_neg closed, if_neg opened, allow, if_neg closed, if_neg opened]
      exact ⟨by rintro ⟨⟩, by rintro ⟨⟩⟩

end

/-! ### Runs -/

/-- The breaker is closed while the failures since the last success are below the threshold, and counts them. -/
structure Counts (cfg : BreakerConfig) (calls : List Call) (b : Breaker) : Prop where
  config : b.cfg = cfg
  wellFormed : b.WellFormed
  closed : b.state = .closed ↔ streak calls < cfg.failureThreshold
  count : b.state = .closed → b.failures = streak calls

theorem counts_new {cfg : BreakerConfig} (threshold : 1 ≤ cfg.failureThreshold) (base : Instant) : Counts cfg [] (new cfg base) where
  config := rfl
  wellFormed := wellFormed_pack (.inl rfl) 0
  closed := ⟨fun _ => threshold, fun _ => state_new cfg base⟩
  count _ := rfl

theorem Counts.step {cfg : BreakerConfig} (threshold : 1 ≤ cfg.failureThreshold) (word : cfg.failureThreshold < 2 ^ 32)
    {calls : List Call} {c c' : Client} {call : Call} (h : Counts cfg calls c.breaker) (step : c.Step call c') :
    Counts cfg (calls ++ [call]) c'.breaker := by
  cases step with
  | @allow now =>
    obtain ⟨word, after, wellFormed, state⟩ := allow_keeps h.wellFormed now
    rw [after]
    refine ⟨h.config, wellFormed, ?_, fun closed => ?_⟩
    · rw [streak_allow]
      exact state.trans h.closed
    · rw [streak_allow]
      exact h.count (state.mp closed)
  | success pending =>
    refine ⟨h.config, wellFormed_pack (.inl rfl) 0, ?_, fun _ => ?_⟩
    · rw [streak_success, state_onSuccess]
      exact ⟨fun _ => threshold, fun _ => rfl⟩
    · rw [streak_success]
      rfl
  | @failure now pending =>
    cases hs : c.breaker.state with
    | closed =>
      have below := h.closed.mp hs
      have count := h.count hs
      have after := onFailure_closed hs (by omega) now
      by_cases reached : cfg.failureThreshold ≤ streak calls + 1
      · obtain ⟨word, eq, wellFormed, opened⟩ := openFrom_opens { c.breaker with failures := c.breaker.failures + 1 } now
        rw [if_pos (by rwa [h.config, count]), eq] at after
        rw [after]
        refine ⟨h.config, wellFormed, ?_, fun closed => ?_⟩
        · rw [opened, streak_failure]
          exact ⟨nofun, fun lt => absurd reached (Nat.not_le_of_lt lt)⟩
        · cases opened.symm.trans closed
      · rw [if_neg (by rwa [h.config, count])] at after
        rw [after]
        refine ⟨h.config, h.wellFormed, ?_, fun _ => ?_⟩
        · rw [streak_failure]
          exact ⟨fun _ => Nat.lt_of_not_le reached, fun _ => hs⟩
        · rw [streak_failure, ← count]
    | opened =>
      have reached : cfg.failureThreshold ≤ streak calls := Nat.le_of_not_lt fun lt => by rw [h.closed.mpr lt] at hs; cases hs
      rw [onFailure_of_opened hs]
      refine ⟨h.config, h.wellFormed, ?_, fun closed => ?_⟩
      · rw [hs, streak_failure]
        exact ⟨nofun, fun lt => absurd lt (by omega)⟩
      · rw [hs] at closed
        cases closed
    | halfOpen =>
      have reached : cfg.failureThreshold ≤ streak calls := Nat.le_of_not_lt fun lt => by rw [h.closed.mpr lt] at hs; cases hs
      obtain ⟨word, after, wellFormed, opened⟩ := onFailure_opens h.wellFormed hs now
      rw [after]
      refine ⟨h.config, wellFormed, ?_, fun closed => ?_⟩
      · rw [opened, streak_failure]
        exact ⟨nofun, fun lt => absurd lt (by omega)⟩
      · cases opened.symm.trans closed

theorem Client.Reached.counts {cfg : BreakerConfig} (threshold : 1 ≤ cfg.failureThreshold) (word : cfg.failureThreshold < 2 ^ 32)
    {base : Instant} {calls : List Call} {c : Client} (h : Client.Reached cfg base calls c) : Counts cfg calls c.breaker := by
  induction h with
  | new => exact counts_new threshold base
  | step _ step ih => exact ih.step threshold word step

/-- A closed breaker stays closed or opens. -/
theorem Client.Step.closed {c c' : Client} {call : Call} (h : c.breaker.state = .closed) (step : c.Step call c') :
    c'.breaker.state ≠ .halfOpen := by
  cases step with
  | @allow now =>
    rw [allow_of_closed h, h]
    decide
  | success pending =>
    rw [state_onSuccess]
    decide
  | failure pending => exact onFailure_of_closed h _

/-- A closed breaker opens on the call that makes up the threshold of failures since the last success, and on no other. -/
theorem Client.Reached.opens {cfg : BreakerConfig} (threshold : 1 ≤ cfg.failureThreshold) (word : cfg.failureThreshold < 2 ^ 32)
    {base : Instant} {calls : List Call} {c c' : Client} {call : Call} (h : Client.Reached cfg base calls c)
    (closed : c.breaker.state = .closed) (step : c.Step call c') :
    c'.breaker.state = .opened ↔ streak (calls ++ [call]) = cfg.failureThreshold := by
  have below := (h.counts threshold word).closed.mp closed
  have after := ((h.counts threshold word).step threshold word step).closed
  have next : streak (calls ++ [call]) ≤ streak calls + 1 := by
    cases call <;> simp
  have half := step.closed closed
  constructor
  · intro opened
    have reached : ¬streak (calls ++ [call]) < cfg.failureThreshold := fun lt => by
      rw [after.mpr lt] at opened
      cases opened
    omega
  · intro reached
    cases hs : c'.breaker.state with
    | closed => exact absurd (after.mp hs) (by omega)
    | opened => rfl
    | halfOpen => exact absurd hs half

end Tgin.Breaker
