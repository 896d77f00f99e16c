import Tgin.Time

/-! The circuit breaker of `tgin-runtime/src/breaker.rs`. Each call is one step: a transition is a single
    compare-exchange on the state word. -/

namespace Tgin

structure BreakerConfig where
  /-- Consecutive failures that open a closed breaker. -/
  failureThreshold : Nat
  /-- How long an open breaker rejects calls before admitting one probe. -/
  openFor : Duration
  deriving DecidableEq, Repr

inductive BreakerState where
  | closed
  | opened
  | halfOpen
  deriving DecidableEq, Repr

structure Breaker where
  cfg : BreakerConfig
  base : Instant
  /-- State and `openedAt` in one word, see `pack`. -/
  word : Nat
  failures : Nat
  deriving DecidableEq, Repr

namespace Breaker

def OFFSET_SHIFT : Duration := 365 * 24 * 60 * 60 * 10 ^ 9

/-- The low two bits of the state word hold the state; the rest hold `openedAt`. -/
def STATE_BITS : Nat := 2
def STATE_MASK : Nat := (1 <<< STATE_BITS) - 1
def MAX_OFFSET : Nat := wordMax >>> STATE_BITS

def CLOSED : Nat := 0
def OPEN : Nat := 1
def HALF_OPEN : Nat := 2

def pack (state openedAt : Nat) : Nat := (openedAt <<< STATE_BITS) ||| state

def new (cfg : BreakerConfig) (now : Instant) : Breaker := { cfg, base := now, word := pack CLOSED 0, failures := 0 }

/-- Nanoseconds from `base - OFFSET_SHIFT` to `t`, capped at `MAX_OFFSET`. -/
def offset (b : Breaker) (t : Instant) : Nat :=
  let shifted := (Instant.checkedAdd t OFFSET_SHIFT).getD t
  let elapsed := Instant.saturatingDurationSince shifted b.base
  min (min elapsed wordMax) MAX_OFFSET

/-- The offset at which a breaker opened at `openedAt` admits a probe. -/
def reopensAt (b : Breaker) (openedAt : Nat) : Nat := saturatingAdd openedAt (min b.cfg.openFor wordMax)

/-- `compare_exchange` on the state word: whether it succeeded. -/
def compareExchange (b : Breaker) (current new : Nat) : Bool × Breaker :=
  if b.word = current then (true, { b with word := new }) else (false, b)

def allow (b : Breaker) (now : Instant) : Bool × Breaker :=
  if b.word &&& STATE_MASK = CLOSED then (true, b)
  else if b.word &&& STATE_MASK = OPEN then
    let openedAt := b.word >>> STATE_BITS
    if b.offset now < b.reopensAt openedAt then (false, b) else b.compareExchange b.word (pack HALF_OPEN openedAt)
  else (false, b)

def onSuccess (b : Breaker) : Breaker := { b with failures := 0, word := pack CLOSED 0 }

/-- Opens the breaker at `now` unless another caller already moved it away from `source`. -/
def openFrom (b : Breaker) (source : Nat) (now : Instant) : Breaker :=
  (b.compareExchange source (pack OPEN (b.offset now))).2

def onFailure (b : Breaker) (now : Instant) : Breaker :=
  if b.word &&& STATE_MASK = HALF_OPEN then b.openFrom b.word now
  else if b.word &&& STATE_MASK = CLOSED then
    -- `fetch_add` wraps at 2 ^ 32, the count of this call saturates.
    let failures := min (b.failures + 1) (2 ^ 32 - 1)
    let b' := { b with failures := (b.failures + 1) % 2 ^ 32 }
    if failures ≥ b.cfg.failureThreshold then b'.openFrom b.word now else b'
  else b

def state (b : Breaker) : BreakerState :=
  if b.word &&& STATE_MASK = CLOSED then .closed
  else if b.word &&& STATE_MASK = OPEN then .opened
  else .halfOpen

/-- How long until `allow` may admit a call: `none` while half-open. -/
def readyIn (b : Breaker) (now : Instant) : Option Duration :=
  if b.word &&& STATE_MASK = CLOSED then some 0
  else if b.word &&& STATE_MASK = OPEN then some (b.reopensAt (b.word >>> STATE_BITS) - b.offset now)
  else none

/-! ### What each call does to the state -/

theorem pack_and_mask {s : Nat} (hs : s < 4) (openedAt : Nat) : pack s openedAt &&& STATE_MASK = s := by
  have mask : STATE_MASK = 2 ^ 2 - 1 := rfl
  rw [mask, Nat.and_two_pow_sub_one_eq_mod, pack, STATE_BITS, ← Nat.shiftLeft_add_eq_or_of_lt hs,
    Nat.shiftLeft_eq]
  omega

theorem state_of_closed {b : Breaker} (h : b.word &&& STATE_MASK = CLOSED) : b.state = .closed := by
  rw [state, if_pos h]

theorem state_of_opened {b : Breaker} (h : b.word &&& STATE_MASK = OPEN) : b.state = .opened := by
  rw [state, h]
  rfl

theorem state_of_halfOpen {b : Breaker} (h : b.word &&& STATE_MASK = HALF_OPEN) : b.state = .halfOpen := by
  rw [state, h]
  rfl

@[simp] theorem state_new (cfg : BreakerConfig) (now : Instant) : (new cfg now).state = .closed :=
  state_of_closed (pack_and_mask (by decide) 0)

@[simp] theorem state_onSuccess (b : Breaker) : b.onSuccess.state = .closed :=
  state_of_closed (pack_and_mask (by decide) 0)

/-- The state bits hold one of the three states. -/
def WellFormed (b : Breaker) : Prop :=
  b.word &&& STATE_MASK = CLOSED ∨ b.word &&& STATE_MASK = OPEN ∨ b.word &&& STATE_MASK = HALF_OPEN

theorem wellFormed_pack {cfg : BreakerConfig} {base : Instant} {failures s : Nat} (hs : s = CLOSED ∨ s = OPEN ∨ s = HALF_OPEN)
    (openedAt : Nat) : WellFormed ⟨cfg, base, pack s openedAt, failures⟩ := by
  have lt : s < 4 := by
    rcases hs with rfl | rfl | rfl <;> decide
  unfold WellFormed
  rwa [pack_and_mask lt]

section
variable {b : Breaker}

theorem word_of_closed (h : b.state = .closed) : b.word &&& STATE_MASK = CLOSED := by
  unfold state at h
  split at h
  · assumption
  · split at h <;> cases h

theorem word_of_opened (h : b.state = .opened) : b.word &&& STATE_MASK = OPEN := by
  unfold state at h
  split at h
  · cases h
  · split at h
    · assumption
    · cases h

theorem word_of_halfOpen (hw : b.WellFormed) (h : b.state = .halfOpen) : b.word &&& STATE_MASK = HALF_OPEN := by
  rcases hw with hw | hw | hw
  · rw [state_of_closed hw] at h
    cases h
  · rw [state_of_opened hw] at h
    cases h
  · exact hw

/-- A closed breaker admits every call. -/
theorem allow_of_closed (h : b.state = .closed) (now : Instant) : b.allow now = (true, b) := by
  rw [allow, if_pos (word_of_closed h)]

/-- An open breaker rejects a call, or becomes half-open and admits it. -/
theorem allow_of_opened (h : b.state = .opened) (now : Instant) :
    b.allow now = (false, b) ∨
      ((b.allow now).1 = true ∧ (b.allow now).2.state = .halfOpen ∧ (b.allow now).2.WellFormed) := by
  have hw := word_of_opened h
  rw [allow, if_neg (by rw [hw]; decide), if_pos hw]
  dsimp only
  split
  · exact .inl rfl
  · rw [compareExchange, if_pos rfl]
    exact .inr ⟨rfl, state_of_halfOpen (pack_and_mask (by decide) _), wellFormed_pack (.inr (.inr rfl)) _⟩

/-- A half-open breaker admits no call. -/
theorem allow_of_halfOpen (hw : b.WellFormed) (h : b.state = .halfOpen) (now : Instant) : b.allow now = (false, b) := by
  have hw := word_of_halfOpen hw h
  rw [allow, if_neg (by rw [hw]; decide), if_neg (by rw [hw]; decide)]

/-- A failure reopens a half-open breaker. -/
theorem onFailure_of_halfOpen (hw : b.WellFormed) (h : b.state = .halfOpen) (now : Instant) :
    (b.onFailure now).state = .opened := by
  rw [onFailure, if_pos (word_of_halfOpen hw h), openFrom, compareExchange, if_pos rfl]
  exact state_of_opened (pack_and_mask (by decide) _)

/-- A failure leaves an open breaker as it is. -/
theorem onFailure_of_opened (h : b.state = .opened) (now : Instant) : b.onFailure now = b := by
  have hw := word_of_opened h
  rw [onFailure, if_neg (by rw [hw]; decide), if_neg (by rw [hw]; decide)]

/-- A failure leaves a closed breaker closed, or opens it. -/
theorem onFailure_of_closed (h : b.state = .closed) (now : Instant) : (b.onFailure now).state ≠ .halfOpen := by
  have hw := word_of_closed h
  rw [onFailure, if_neg (by rw [hw]; decide), if_pos hw]
  dsimp only
  split
  · rw [openFrom, compareExchange, if_pos rfl, state_of_opened (pack_and_mask (by decide) _)]
    decide
  · exact (state_of_closed (b := { b with failures := (b.failures + 1) % 2 ^ 32 }) hw).trans_ne (by decide)

theorem onFailure_wellFormed (hw : b.WellFormed) (now : Instant) : (b.onFailure now).WellFormed := by
  unfold onFailure
  split
  · rw [openFrom, compareExchange, if_pos rfl]
    exact wellFormed_pack (.inr (.inl rfl)) _
  · split
    · dsimp only
      split
      · rw [openFrom, compareExchange, if_pos rfl]
        exact wellFormed_pack (.inr (.inl rfl)) _
      · exact hw
    · exact hw

end

end Breaker

end Tgin
