import Tgin.Breaker

/-! Requests and the breaker that admitted them. An outcome carries no identity, so the breaker cannot tell
    its probe's outcome from that of a request it admitted before it opened: a late success closes it and a
    late failure reopens it. `holds_iff_onlyProbeReports` says in which runs that does not happen. -/

namespace Tgin.Breaker.Probes

/-- A request the breaker admitted that has neither reported nor been dropped. -/
structure Request where
  id : Nat
  /-- The half-open period whose probe it is. -/
  probe : Option Nat
  deriving DecidableEq, Repr

structure System where
  breaker : Breaker
  outstanding : List Request
  /-- How many requests the breaker has admitted: the next one's id. -/
  admitted : Nat
  /-- How often the breaker has become half-open: the number of the current or last half-open period. -/
  period : Nat

inductive Event where
  | allow (now : Instant)
  | success (id : Nat)
  | failure (id : Nat) (now : Instant)
  /-- Dropped unreported, which reports a failure while the breaker is half-open. -/
  | drop (id : Nat) (now : Instant)
  deriving DecidableEq, Repr

namespace System

def new (cfg : BreakerConfig) (base : Instant) : System :=
  { breaker := .new cfg base, outstanding := [], admitted := 0, period := 0 }

def request (s : System) (id : Nat) : Option Request := s.outstanding.find? (·.id = id)

/-- The request `id` is done, and leaves `breaker`. -/
def finish (s : System) (id : Nat) (breaker : Breaker) : System :=
  { s with breaker, outstanding := s.outstanding.filter (·.id ≠ id) }

/-- An event of a request that is not outstanding does not happen. -/
def step (e : Event) (s : System) : System :=
  match e with
  | .allow now =>
    match s.breaker.allow now with
    | (false, breaker) => { s with breaker }
    | (true, breaker) =>
      -- Only the step that makes the breaker half-open admits a probe.
      if breaker.state = .halfOpen then
        { breaker, outstanding := ⟨s.admitted, some (s.period + 1)⟩ :: s.outstanding,
          admitted := s.admitted + 1, period := s.period + 1 }
      else { s with breaker, outstanding := ⟨s.admitted, none⟩ :: s.outstanding, admitted := s.admitted + 1 }
  | .success id => if (s.request id).isSome then s.finish id s.breaker.onSuccess else s
  | .failure id now => if (s.request id).isSome then s.finish id (s.breaker.onFailure now) else s
  | .drop id now =>
    if (s.request id).isSome then
      s.finish id (if s.breaker.state = .halfOpen then s.breaker.onFailure now else s.breaker)
    else s

/-- The request `id` is the probe of the current half-open period. -/
def isProbe (s : System) (id : Nat) : Bool := s.breaker.state = .halfOpen && s.request id = some ⟨id, some s.period⟩

end System

/-- The request whose outcome an event is. -/
def Event.reporter : Event → Option Nat
  | .allow _ => none
  | .success id | .failure id _ | .drop id _ => some id

/-- The event is the outcome of an outstanding request other than the current probe. -/
def Event.late (e : Event) (s : System) : Bool :=
  match e.reporter with
  | none => false
  | some id => (s.request id).isSome && !s.isProbe id

/-! ### The property -/

/-- At most one probe is outstanding, and while one is the breaker is half-open, so that its place is taken. -/
def StateOk (s : System) : Prop :=
  (∀ r ∈ s.outstanding, ∀ r' ∈ s.outstanding, r.probe.isSome → r'.probe.isSome → r = r') ∧
    ((∃ r ∈ s.outstanding, r.probe.isSome) → s.breaker.state = .halfOpen)

/-- The breaker leaves half-open only by its probe's outcome, and a late outcome changes a breaker that is
    not closed in no way. -/
def StepOk (s : System) (e : Event) : Prop :=
  (s.breaker.state = .halfOpen → (s.step e).breaker.state ≠ .halfOpen →
    ∃ id, e.reporter = some id ∧ s.isProbe id) ∧
  (e.late s → s.breaker.state ≠ .closed → (s.step e).breaker.word = s.breaker.word)

/-- The property holds in every state of the run and at every step. -/
def Holds : System → List Event → Prop
  | s, [] => StateOk s
  | s, e :: es => StateOk s ∧ StepOk s e ∧ Holds (s.step e) es

/-- The events that do no harm: no success is reported while the breaker is open, and while it is half-open
    only its probe reports or is dropped. -/
def Harmless (s : System) (e : Event) : Prop :=
  e.late s →
    match s.breaker.state, e with
    | .closed, _ => True
    | .opened, .success _ => False
    | .opened, _ => True
    | .halfOpen, _ => False

/-- Every event of the run is harmless where it happens. -/
def OnlyProbeReports : System → List Event → Prop
  | _, [] => True
  | s, e :: es => Harmless s e ∧ OnlyProbeReports (s.step e) es

/-! ### The invariant -/

/-- A probe is outstanding only in its half-open period, and alone. -/
structure Invariant (s : System) : Prop where
  wellFormed : s.breaker.WellFormed
  halfOpen : ∀ r ∈ s.outstanding, r.probe.isSome → s.breaker.state = .halfOpen
  unique : ∀ r ∈ s.outstanding, ∀ r' ∈ s.outstanding, r.probe.isSome → r'.probe.isSome → r = r'

section
variable {s : System}

theorem invariant_new (cfg : BreakerConfig) (base : Instant) : Invariant (.new cfg base) :=
  ⟨wellFormed_pack (.inl rfl) 0, by simp [System.new], by simp [System.new]⟩

theorem Invariant.stateOk (h : Invariant s) : StateOk s :=
  ⟨h.unique, fun ⟨r, hr, hp⟩ => h.halfOpen r hr hp⟩

theorem request_some {id : Nat} {r : Request} (hr : s.request id = some r) : r ∈ s.outstanding ∧ r.id = id := by
  have := List.find?_some hr
  exact ⟨List.mem_of_find?_eq_some hr, by simpa using this⟩

/-- A new request, as a probe only when no other is outstanding. -/
theorem invariant_admit (h : Invariant s) {breaker : Breaker} (hw : breaker.WellFormed) (probe : Option Nat)
    (period : Nat) (others : ∀ r ∈ s.outstanding, r.probe.isSome → breaker.state = .halfOpen ∧ probe = none)
    (half : probe.isSome → breaker.state = .halfOpen) :
    Invariant { breaker, outstanding := ⟨s.admitted, probe⟩ :: s.outstanding, admitted := s.admitted + 1, period } := by
  refine ⟨hw, fun r hr hp => ?_, fun r hr r' hr' hp hp' => ?_⟩
  · rcases List.mem_cons.mp hr with rfl | hr
    · exact half hp
    · exact (others r hr hp).1
  · rcases List.mem_cons.mp hr with rfl | hr <;> rcases List.mem_cons.mp hr' with rfl | hr'
    · rfl
    · simp [(others r' hr' hp').2] at hp
    · simp [(others r hr hp).2] at hp'
    · exact h.unique r hr r' hr' hp hp'

theorem invariant_finish (h : Invariant s) (id : Nat) {breaker : Breaker} (hw : breaker.WellFormed)
    (half : ∀ r ∈ s.outstanding, r.id ≠ id → r.probe.isSome → breaker.state = .halfOpen) :
    Invariant (s.finish id breaker) := by
  have sub : (s.finish id breaker).outstanding.Sublist s.outstanding := List.filter_sublist
  refine ⟨hw, fun r hr hp => ?_,
    fun r hr r' hr' => h.unique r (sub.subset hr) r' (sub.subset hr')⟩
  obtain ⟨hr, hne⟩ := List.mem_filter.mp hr
  exact half r hr (by simpa using hne) hp

/-- Once its probe is done, no probe is outstanding. -/
theorem no_probe_beside (h : Invariant s) {id : Nat} (hp : s.isProbe id) {r : Request} (hr : r ∈ s.outstanding)
    (hne : r.id ≠ id) : ¬ r.probe.isSome := by
  intro hs
  simp only [System.isProbe, Bool.and_eq_true, decide_eq_true_eq] at hp
  obtain ⟨hmem, -⟩ := request_some hp.2
  exact hne (congrArg (·.id) (h.unique r hr _ hmem hs rfl))

/-- An outstanding request reports: it is the current probe, or the breaker is closed, or it is open and the
    report is no success. -/
theorem harmless_cases {e : Event} {id : Nat} (he : e.reporter = some id) (ho : (s.request id).isSome)
    (hh : Harmless s e) :
    (s.breaker.state = .halfOpen ∧ s.isProbe id) ∨ s.breaker.state = .closed ∨
      (s.breaker.state = .opened ∧ e ≠ .success id) := by
  by_cases hp : s.isProbe id
  · have := hp
    simp only [System.isProbe, Bool.and_eq_true, decide_eq_true_eq] at this
    exact .inl ⟨this.1, hp⟩
  · have late : e.late s := by simp [Event.late, he, ho, hp]
    have := hh late
    cases hs : s.breaker.state with
    | closed => exact .inr (.inl rfl)
    | opened =>
      refine .inr (.inr ⟨rfl, ?_⟩)
      rintro rfl
      simp [hs] at this
    | halfOpen => simp [hs] at this

theorem not_halfOpen_no_probe (h : Invariant s) (hs : s.breaker.state ≠ .halfOpen) {r : Request}
    (hr : r ∈ s.outstanding) : ¬ r.probe.isSome := fun hp => hs (h.halfOpen r hr hp)

theorem invariant_step (h : Invariant s) {e : Event} (hh : Harmless s e) : Invariant (s.step e) := by
  cases e with
  | allow now =>
    simp only [System.step]
    cases hs : s.breaker.state with
    | closed =>
      simp only [allow_of_closed hs, hs, reduceCtorEq, if_false]
      exact invariant_admit h h.wellFormed none s.period
        (fun r hr hp => absurd hp (not_halfOpen_no_probe h (by simp [hs]) hr)) (by simp)
    | opened =>
      rcases allow_of_opened hs now with ha | ⟨ha, hhalf, hw⟩
      · rw [ha]
        exact ⟨h.wellFormed, h.halfOpen, h.unique⟩
      · generalize s.breaker.allow now = result at ha hhalf hw
        obtain ⟨_, breaker⟩ := result
        subst ha
        simp only [show breaker.state = .halfOpen from hhalf, if_true]
        exact invariant_admit h hw (some (s.period + 1)) (s.period + 1)
          (fun r hr hp => absurd hp (not_halfOpen_no_probe h (by simp [hs]) hr)) fun _ => hhalf
    | halfOpen =>
      rw [allow_of_halfOpen h.wellFormed hs now]
      exact ⟨h.wellFormed, h.halfOpen, h.unique⟩
  | success id =>
    simp only [System.step]
    split
    · rename_i ho
      refine invariant_finish h id (wellFormed_pack (.inl rfl) 0) fun r hr hne hp => ?_
      rcases harmless_cases rfl ho hh with ⟨-, hprobe⟩ | hs | ⟨-, hne⟩
      · exact absurd hp (no_probe_beside h hprobe hr hne)
      · exact absurd hp (not_halfOpen_no_probe h (by simp [hs]) hr)
      · exact absurd rfl hne
    · exact h
  | failure id now =>
    simp only [System.step]
    split
    · rename_i ho
      refine invariant_finish h id (onFailure_wellFormed h.wellFormed now) fun r hr hne hp => ?_
      rcases harmless_cases rfl ho hh with ⟨-, hprobe⟩ | hs | ⟨hs, -⟩
      · exact absurd hp (no_probe_beside h hprobe hr hne)
      · exact absurd hp (not_halfOpen_no_probe h (by simp [hs]) hr)
      · exact absurd hp (not_halfOpen_no_probe h (by simp [hs]) hr)
    · exact h
  | drop id now =>
    simp only [System.step]
    split
    · rename_i ho
      have hw : (if s.breaker.state = .halfOpen then s.breaker.onFailure now else s.breaker).WellFormed := by
        split
        · exact onFailure_wellFormed h.wellFormed now
        · exact h.wellFormed
      refine invariant_finish h id hw fun r hr hne hp => ?_
      rcases harmless_cases rfl ho hh with ⟨-, hprobe⟩ | hs | ⟨hs, -⟩
      · exact absurd hp (no_probe_beside h hprobe hr hne)
      · exact absurd hp (not_halfOpen_no_probe h (by simp [hs]) hr)
      · exact absurd hp (not_halfOpen_no_probe h (by simp [hs]) hr)
    · exact h

/-! ### When the property holds -/

/-- An event that changes the breaker at all is an outcome of an outstanding request. -/
theorem step_changes {e : Event} (hw : s.breaker.WellFormed) (hs : s.breaker.state = .halfOpen)
    (hne : (s.step e).breaker.state ≠ .halfOpen) : ∃ id, e.reporter = some id ∧ (s.request id).isSome := by
  cases e with
  | allow now =>
    simp only [System.step, allow_of_halfOpen hw hs] at hne
    exact absurd hs hne
  | success id | failure id now | drop id now =>
    refine ⟨id, rfl, ?_⟩
    by_contra ho
    simp only [System.step, if_neg ho] at hne
    exact hne hs

theorem stepOk_of_harmless (h : Invariant s) {e : Event} (hh : Harmless s e) : StepOk s e := by
  constructor
  · intro hs hne
    obtain ⟨id, he, ho⟩ := step_changes h.wellFormed hs hne
    rcases harmless_cases he ho hh with ⟨-, hprobe⟩ | hs' | ⟨hs', -⟩
    · exact ⟨id, he, hprobe⟩
    · simp [hs] at hs'
    · simp [hs] at hs'
  · intro late hs
    have hopen : s.breaker.state = .opened := by
      have := hh late
      cases hst : s.breaker.state <;> simp_all
    cases e with
    | allow now => simp [Event.late, Event.reporter] at late
    | success id =>
      have := hh late
      simp [hopen] at this
    | failure id now =>
      simp only [System.step]
      split
      · simp only [System.finish, onFailure_of_opened hopen]
      · rfl
    | drop id now =>
      simp only [System.step, hopen, reduceCtorEq, if_false]
      split <;> rfl

theorem state_congr {b b' : Breaker} (h : b.word = b'.word) : b.state = b'.state := by
  simp only [state, h]

/-- Outside closed, a harmful outcome changes the state. -/
theorem harmless_of_stepOk (hw : s.breaker.WellFormed) {e : Event} (h : StepOk s e) : Harmless s e := by
  intro late
  have ho : ∃ id, e.reporter = some id ∧ (s.request id).isSome := by
    cases e with
    | allow now => simp [Event.late, Event.reporter] at late
    | success id | failure id now | drop id now =>
      exact ⟨id, rfl, (Bool.and_eq_true_iff.mp late).1⟩
  obtain ⟨id, he, ho⟩ := ho
  cases hs : s.breaker.state with
  | closed => trivial
  | opened =>
    cases e with
    | allow now => trivial
    | failure id now => trivial
    | drop id now => trivial
    | success id =>
      have same := state_congr (h.2 late (by simp [hs]))
      cases he
      simp [System.step, ho, System.finish, hs] at same
  | halfOpen =>
    have same := state_congr (h.2 late (by simp [hs]))
    rw [hs] at same
    cases e with
    | allow now => simp [Event.reporter] at he
    | success id =>
      cases he
      simp [System.step, ho, System.finish] at same
    | failure id now =>
      cases he
      simp [System.step, ho, System.finish, onFailure_of_halfOpen hw hs] at same
    | drop id now =>
      cases he
      simp [System.step, ho, System.finish, hs, onFailure_of_halfOpen hw hs] at same

theorem holds_iff_of_invariant {es : List Event} (h : Invariant s) : Holds s es ↔ OnlyProbeReports s es := by
  induction es generalizing s with
  | nil => exact ⟨fun _ => trivial, fun _ => h.stateOk⟩
  | cons e es ih =>
    constructor
    · rintro ⟨-, hstep, hrest⟩
      have hh := harmless_of_stepOk h.wellFormed hstep
      exact ⟨hh, (ih (invariant_step h hh)).mp hrest⟩
    · rintro ⟨hh, hrest⟩
      exact ⟨h.stateOk, stepOk_of_harmless h hh, (ih (invariant_step h hh)).mpr hrest⟩

end

/-- In every run, the property holds throughout exactly if no success is reported while the breaker is open
    and, while it is half-open, only its probe reports or is dropped. -/
theorem holds_iff_onlyProbeReports (cfg : BreakerConfig) (base : Instant) (es : List Event) :
    Holds (.new cfg base) es ↔ OnlyProbeReports (.new cfg base) es :=
  holds_iff_of_invariant (invariant_new cfg base)

/-- Two requests are admitted; one fails and opens the breaker; the other succeeds while the probe is out. -/
def lateSuccess : List Event := [.allow 0, .allow 0, .failure 0 0, .allow (20 * 10 ^ 9), .success 1]

theorem lateSuccess_closes : ¬ ∀ cfg base es, Holds (.new cfg base) es := by
  intro h
  obtain ⟨-, -, -, -, -, -, -, -, -, ⟨hleave, -⟩, -⟩ :=
    h { failureThreshold := 1, openFor := 10 * 10 ^ 9 } 0 lateSuccess
  obtain ⟨id, he, hprobe⟩ := hleave (by decide) (by decide)
  cases he
  exact absurd hprobe (by decide)

end Tgin.Breaker.Probes
