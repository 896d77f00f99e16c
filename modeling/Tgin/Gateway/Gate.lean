import Tgin.Lib.Run

/-! The gate of a bot (`tgin-botapi/src/gateway/mod.rs`): whether it is parked, and how many of its calls are being
    sent. A call counts itself before it reads the flag; a mover sets the flag before it reads the count. Both are
    sequentially consistent atomics, so an interleaving is a list of atomic steps. -/

namespace Tgin.Gateway

structure Gate where
  parked : Bool
  sending : Nat
  deriving DecidableEq, Repr

namespace Gate

def new : Gate := { parked := false, sending := 0 }

def isParked (g : Gate) : Bool := g.parked

/-- The first step of `enter`. -/
def announce (g : Gate) : Gate := { g with sending := g.sending + 1 }

/-- The last step of an `enter` that found the bot parked, and the end of a call being sent. -/
def leave (g : Gate) : Gate := { g with sending := g.sending - 1 }

def setParked (g : Gate) (parked : Bool) : Gate := { g with parked }

/-- Where a call is in `enter`, or after it. -/
inductive Phase where
  /-- It has counted itself and not read the flag yet. -/
  | announced
  /-- It read that the bot is parked. -/
  | refused
  /-- It holds its `Sending`. -/
  | sending
  | gone
  deriving DecidableEq, Repr

structure Call where
  phase : Phase
  /-- How often it has taken itself off the count. -/
  leaves : Nat
  deriving DecidableEq, Repr

def Call.present (call : Call) : Bool := call.phase ≠ .gone

inductive Mover where
  | away
  /-- It has parked the bot and waits for the count to read 0. -/
  | waiting
  /-- It has read 0 since. -/
  | moving
  deriving DecidableEq, Repr

/-- A gate with the calls that came to it and the mover of its bot. -/
structure System where
  gate : Gate
  calls : List Call
  mover : Mover
  deriving DecidableEq, Repr

/-- One atomic step. The steps of a call are told by its place in the list. -/
inductive Event where
  /-- A call comes and counts itself. -/
  | announce
  | readParked (call : Nat)
  /-- A refused call, or one whose answer has begun or that failed, takes itself off the count. -/
  | leave (call : Nat)
  | park
  | readSending
  /-- The gate is opened, by whoever does it. -/
  | unpark
  deriving DecidableEq, Repr

namespace System

def new : System := { gate := .new, calls := [], mover := .away }

/-- A step that is not due does not happen. -/
def step (s : System) (e : Event) : System :=
  match e with
  | .announce => { s with gate := s.gate.announce, calls := s.calls ++ [⟨.announced, 0⟩] }
  | .readParked i =>
    match s.calls[i]? with
    | some ⟨.announced, leaves⟩ =>
      { s with calls := s.calls.set i ⟨if s.gate.isParked then .refused else .sending, leaves⟩ }
    | _ => s
  | .leave i =>
    match s.calls[i]? with
    | some ⟨.refused, leaves⟩ | some ⟨.sending, leaves⟩ =>
      { s with gate := s.gate.leave, calls := s.calls.set i ⟨.gone, leaves + 1⟩ }
    | _ => s
  | .park => { s with gate := s.gate.setParked true, mover := if s.mover = .away then .waiting else s.mover }
  | .readSending => if s.mover = .waiting ∧ s.gate.sending = 0 then { s with mover := .moving } else s
  | .unpark => { s with gate := s.gate.setParked false, mover := .away }

def run (events : List Event) : System := events.foldl step new

/-- Calls that came and are not gone. -/
def present (s : System) : Nat := s.calls.countP (·.present)

/-- What holds between any two steps. -/
structure Invariant (s : System) : Prop where
  count : s.gate.sending = s.present
  leaves : ∀ call ∈ s.calls, call.leaves = if call.phase = .gone then 1 else 0
  parked : s.mover ≠ .away → s.gate.parked
  quiet : s.mover = .moving → ∀ call ∈ s.calls, call.phase ≠ .sending

theorem invariant_new : new.Invariant := ⟨rfl, nofun, absurd rfl, nofun⟩

variable {s : System}

theorem present_set {i : Nat} {call : Call} (hi : s.calls[i]? = some call) (here : call.present) (call' : Call) :
    (s.calls.set i call').countP (·.present) + 1 = s.present + (if call'.present then 1 else 0) := by
  obtain ⟨lt, hi⟩ := List.getElem?_eq_some_iff.mp hi
  have set := List.countP_set (p := (·.present)) (a := call') lt
  have pos := List.boole_getElem_le_countP (p := (·.present)) lt
  rw [hi, here, if_pos rfl] at set pos
  rw [present, set]
  omega

/-- A call reads the flag: it goes on only if the gate is open. -/
theorem invariant_readParked (h : s.Invariant) (i : Nat) : (s.step (.readParked i)).Invariant := by
  simp only [step]
  split
  · rename_i leaves hi
    have mem := List.mem_of_getElem? hi
    set phase : Phase := if s.gate.isParked then .refused else .sending with hphase
    have stays : phase ≠ .gone := by rw [hphase]; split <;> nofun
    refine ⟨?_, fun call hc => ?_, h.parked, fun moving call hc => ?_⟩
    · have count := present_set hi rfl ⟨phase, leaves⟩
      rw [if_pos (show Call.present ⟨phase, leaves⟩ from decide_eq_true stays)] at count
      exact h.count.trans (Nat.add_right_cancel count).symm
    · rcases List.mem_or_eq_of_mem_set hc with hc | rfl
      · exact h.leaves call hc
      · rw [if_neg stays]
        exact h.leaves _ mem
    · replace moving : s.mover = .moving := moving
      rcases List.mem_or_eq_of_mem_set hc with hc | rfl
      · exact h.quiet moving call hc
      · have parked : s.gate.isParked := h.parked (by simp [moving])
        simp [hphase, parked]
  · exact h

theorem invariant_gone (h : s.Invariant) {i : Nat} {call : Call} (hi : s.calls[i]? = some call) (here : call.phase ≠ .gone) :
    Invariant { s with gate := s.gate.leave, calls := s.calls.set i ⟨.gone, call.leaves + 1⟩ } := by
  refine ⟨?_, fun call' hc => ?_, h.parked, fun moving call' hc => ?_⟩
  · have count := present_set hi (decide_eq_true here) ⟨.gone, call.leaves + 1⟩
    rw [if_neg (by simp [Call.present])] at count
    change s.gate.sending - 1 = (s.calls.set i _).countP _
    rw [h.count, ← Nat.add_zero s.present, ← count, Nat.add_sub_cancel]
  · rcases List.mem_or_eq_of_mem_set hc with hc | rfl
    · exact h.leaves call' hc
    · simp [h.leaves call (List.mem_of_getElem? hi), here]
  · rcases List.mem_or_eq_of_mem_set hc with hc | rfl
    · exact h.quiet moving call' hc
    · nofun

theorem invariant_step (h : s.Invariant) (e : Event) : (s.step e).Invariant := by
  cases e with
  | announce =>
    refine ⟨?_, fun call hc => ?_, h.parked, fun moving call hc => ?_⟩
    · have count := h.count
      simp only [step, present, Gate.announce, List.countP_append] at count ⊢
      rw [count]
      rfl
    · rcases List.mem_append.mp hc with hc | hc
      · exact h.leaves call hc
      · rw [List.mem_singleton.mp hc]
        rfl
    · rcases List.mem_append.mp hc with hc | hc
      · exact h.quiet moving call hc
      · rw [List.mem_singleton.mp hc]
        nofun
  | readParked i => exact invariant_readParked h i
  | leave i =>
    simp only [step]
    split
    · exact invariant_gone h ‹_› (by simp)
    · exact invariant_gone h ‹_› (by simp)
    · exact h
  | park =>
    refine ⟨h.count, h.leaves, fun _ => rfl, fun moving => h.quiet ?_⟩
    simp only [step] at moving
    split at moving
    · cases moving
    · exact moving
  | readSending =>
    simp only [step]
    split
    · rename_i due
      refine ⟨h.count, h.leaves, fun _ => h.parked (by simp [due.1]), fun _ call hc sending => ?_⟩
      have none := h.count.symm.trans due.2
      rw [present, List.countP_eq_zero] at none
      simpa [Call.present, sending] using none call hc
    · exact h
  | unpark => exact ⟨h.count, h.leaves, absurd rfl, nofun⟩

theorem invariant_run (events : List Event) : (run events).Invariant := by
  suffices ∀ s : System, s.Invariant → (events.foldl step s).Invariant from this new invariant_new
  induction events with
  | nil => exact fun _ h => h
  | cons e events ih => exact fun s h => ih _ (invariant_step h e)

/-- A mover that has read 0 keeps moving until the gate is opened. -/
theorem step_moving (moving : s.mover = .moving) {e : Event} (closed : e ≠ .unpark) : (s.step e).mover = .moving := by
  cases e with
  | announce => exact moving
  | readParked i => simp only [step]; split <;> exact moving
  | leave i => simp only [step]; split <;> exact moving
  | park => simp [step, moving]
  | readSending => simp only [step]; split <;> simp [moving]
  | unpark => exact absurd rfl closed

theorem foldl_moving {events : List Event} (moving : s.mover = .moving) (closed : ∀ e ∈ events, e ≠ .unpark) :
    (events.foldl step s).mover = .moving := by
  induction events generalizing s with
  | nil => exact moving
  | cons e events ih =>
    rw [List.forall_mem_cons] at closed
    exact ih (step_moving moving closed.1) closed.2

/-- Over every interleaving of any number of calls with a mover: once the mover has read 0 while the bot is parked,
    no call is being sent, then and after any further steps that do not open the gate; the count is that of the
    calls that came and are not gone; and every call takes itself off the count once, when it goes. -/
theorem run_quiet (events later : List Event) (closed : ∀ e ∈ later, e ≠ .unpark) :
    let s := run events
    let s' := run (events ++ later)
    (s.mover = .moving → s'.gate.parked ∧ ∀ call ∈ s'.calls, call.phase ≠ .sending) ∧
      s.gate.sending = s.present ∧ ∀ call ∈ s.calls, call.leaves = if call.phase = .gone then 1 else 0 := by
  have h := invariant_run events
  have h' := invariant_run (events ++ later)
  refine ⟨fun moving => ?_, h.count, h.leaves⟩
  have still : (run (events ++ later)).mover = .moving := by
    rw [run, List.foldl_append]
    exact foldl_moving moving closed
  exact ⟨h'.parked (by simp [still]), h'.quiet still⟩

/-- A call comes before the mover, which reads 0 once the call has gone; one that comes later is refused. -/
theorem run_quiet_refused :
    let s := run ([.announce, .readParked 0, .park, .readSending, .leave 0, .readSending] ++ [.announce, .readParked 1])
    s.gate.parked ∧ ∀ call ∈ s.calls, call.phase ≠ .sending :=
  (run_quiet [.announce, .readParked 0, .park, .readSending, .leave 0, .readSending] [.announce, .readParked 1]
    (by decide)).1 (by decide)

end System

end Gate

end Tgin.Gateway
