import Mathlib.Tactic.IntervalCases
import Tgin.Time

/-! The watch on the config file: the watcher (`tgin-runtime/src/config/watch.rs`), the reload task
    (`tgin/src/reload.rs`) and whoever writes the file, in any order, until shutdown begins. The watcher remembers the
    bytes it last saw, the reload task those the running config was loaded from. -/

namespace Tgin.ConfigWatch

/-- What asked for a reload. -/
inductive Trigger where
  | signal
  | api
  | watch
  deriving DecidableEq, Repr

variable {B : Type}

/-- A watch on the config file, with its `Change`. -/
structure Watch (B : Type) where
  debounce : Duration
  /-- The bytes last seen. -/
  last : B
  /-- The bytes a check under way read and found different. -/
  noticing : Option B
  /-- A notification is pending: at most one. -/
  pending : Bool
  deriving DecidableEq, Repr

/-- Where the reload task is. -/
inductive Phase (B : Type) where
  | idle
  /-- In `reload`, about to read the file. -/
  | reading (trigger : Trigger)
  /-- In `reload`, with the bytes read. -/
  | applying (trigger : Trigger) (read : B)
  /-- In `settle`, about to look at the watch. -/
  | rewatching
  /-- In `rewatch`: a watch began, and the file is to be compared with the bytes loaded. -/
  | comparing
  deriving DecidableEq, Repr

structure System (B : Type) where
  file : B
  /-- The bytes the running config was loaded from. -/
  loaded : B
  /-- The debounce the running config asks for, if it asks for a watch. -/
  wanted : Option Duration
  watch : Option (Watch B)
  phase : Phase B
  /-- The bytes the last reload attempt since the watch began read. -/
  attempt : Option B
  /-- The file was written since the last check. -/
  dirty : Bool
  deriving DecidableEq, Repr

inductive Event (B : Type) where
  | write (bytes : B)
  /-- The watcher re-reads the file. -/
  | check
  /-- A check that found a difference stores it and notifies. -/
  | notice
  /-- The reload task takes a SIGHUP or a request. -/
  | request (trigger : Trigger)
  /-- The reload task takes the watcher's notification. -/
  | take
  | read
  /-- The reload is rejected, or applied: a watch is then wanted or not. -/
  | finish (applied : Option (Option Duration))
  /-- `watch_config` succeeds or fails, if it is called. -/
  | rewatch (watched : Bool)
  | compare
  /-- The watcher's channel closes. -/
  | stopped
  deriving DecidableEq, Repr

namespace System

/-- At the start: the config is loaded, and the task settles the watch. -/
def new (file loaded : B) (wanted : Option Duration) : System B :=
  { file, loaded, wanted, watch := none, phase := .rewatching, attempt := none, dirty := false }

variable [DecidableEq B]

/-- A step that is not due does not happen. -/
def step (s : System B) (e : Event B) : System B :=
  match e, s.phase, s.watch with
  | .write bytes, _, _ => { s with file := bytes, dirty := true }
  | .check, _, some w =>
    match w.noticing with
    | some _ => s
    | none =>
      if w.last = s.file then { s with dirty := false }
      else { s with watch := some { w with noticing := some s.file }, dirty := false }
  | .notice, _, some w =>
    match w.noticing with
    | some bytes => { s with watch := some { w with last := bytes, noticing := none, pending := true } }
    | none => s
  | .request trigger, .idle, _ => if trigger = .watch then s else { s with phase := .reading trigger }
  | .take, .idle, some w =>
    if w.pending then { s with watch := some { w with pending := false }, phase := .reading .watch } else s
  | .read, .reading trigger, _ => { s with phase := .applying trigger s.file, attempt := some s.file }
  | .finish none, .applying _ _, _ => { s with phase := .idle }
  | .finish (some wanted), .applying _ read, _ => { s with loaded := read, wanted, phase := .rewatching }
  | .rewatch watched, .rewatching, watch =>
    if watch.map (·.debounce) = s.wanted then { s with phase := .idle }
    else
      match s.wanted with
      | none => { s with watch := none, phase := .idle }
      | some debounce =>
        if watched then
          { s with
            watch := some { debounce, last := s.file, noticing := none, pending := false }
            phase := .comparing
            attempt := none }
        else { s with watch := none, phase := .idle }
  | .compare, .comparing, _ => { s with phase := if s.file = s.loaded then .idle else .reading .watch }
  | .stopped, .idle, _ => { s with watch := none }
  | _, _, _ => s

def runFrom (s : System B) (events : List (Event B)) : System B := events.foldl step s

def run (file loaded : B) (wanted : Option Duration) (events : List (Event B)) : System B :=
  (new file loaded wanted).runFrom events

/-! ### What a watch promises -/

/-- The bytes the task last read: for a reload since the watch began, or for the running config. -/
def known (s : System B) : B := s.attempt.getD s.loaded

/-- The task is about to read the file for the watch. -/
def Awaits (s : System B) : Prop := s.phase = .reading .watch ∨ s.phase = .comparing

/-- The task handles a notification, or the watch has not begun yet. -/
def Handles (s : System B) : Prop := s.Awaits ∨ ∃ read, s.phase = .applying .watch read

/-- Once a check ran after the last write and no notification is pending or being handled, the last reload attempt read
    the file's bytes, or, if there was none, the running config was loaded from them. -/
def Settled (s : System B) : Prop :=
  ∀ w, s.watch = some w → s.dirty = false → w.noticing = none → w.pending = false → ¬s.Handles →
    match s.attempt with
    | some read => read = s.file
    | none => s.file = s.loaded

/-- A check that would find the file as the watcher last saw it finds it as the task last read it too, unless the task
    is still to read it for the watch. -/
def Heeds (s : System B) : Prop :=
  ∀ w, s.watch = some w → w.noticing = none → w.last = s.file → w.pending = true ∨ s.Awaits ∨ s.known = s.file

/-- What every run keeps whose checks heed. -/
structure Invariant (s : System B) : Prop where
  applying : ∀ trigger read, s.phase = .applying trigger read → s.attempt = some read
  comparing : s.phase = .comparing → s.attempt = none
  watched : ∀ w, s.watch = some w → w.pending = true ∨ w.noticing.isSome ∨ s.Awaits ∨ s.dirty = true ∨ s.known = s.file

omit [DecidableEq B] in
theorem invariant_new (file loaded : B) (wanted : Option Duration) : (new file loaded wanted).Invariant :=
  ⟨nofun, nofun, nofun⟩

/-- What an event that is due does. -/
inductive Moves (s : System B) : Event B → System B → Prop where
  | write (bytes : B) : Moves s (.write bytes) { s with file := bytes, dirty := true }
  | same (w : Watch B) (watch : s.watch = some w) (noticing : w.noticing = none) (last : w.last = s.file) :
    Moves s .check { s with dirty := false }
  | differs (w : Watch B) : Moves s .check { s with watch := some { w with noticing := some s.file }, dirty := false }
  | notice (w : Watch B) (bytes : B) :
    Moves s .notice { s with watch := some { w with last := bytes, noticing := none, pending := true } }
  | request (trigger : Trigger) (idle : s.phase = .idle) : Moves s (.request trigger) { s with phase := .reading trigger }
  | take (w : Watch B) : Moves s .take { s with watch := some { w with pending := false }, phase := .reading .watch }
  | read (trigger : Trigger) : Moves s .read { s with phase := .applying trigger s.file, attempt := some s.file }
  | rejected (trigger : Trigger) (bytes : B) (applying : s.phase = .applying trigger bytes) :
    Moves s (.finish none) { s with phase := .idle }
  | applied (wanted : Option Duration) (trigger : Trigger) (bytes : B) (applying : s.phase = .applying trigger bytes) :
    Moves s (.finish (some wanted)) { s with loaded := bytes, wanted, phase := .rewatching }
  | kept (watched : Bool) (rewatching : s.phase = .rewatching) : Moves s (.rewatch watched) { s with phase := .idle }
  | dropped (watched : Bool) : Moves s (.rewatch watched) { s with watch := none, phase := .idle }
  | began (watched : Bool) (debounce : Duration) :
    Moves s (.rewatch watched)
      { s with
        watch := some { debounce, last := s.file, noticing := none, pending := false }
        phase := .comparing
        attempt := none }
  | loaded (comparing : s.phase = .comparing) (same : s.file = s.loaded) : Moves s .compare { s with phase := .idle }
  | changed : Moves s .compare { s with phase := .reading .watch }
  | stopped (idle : s.phase = .idle) : Moves s .stopped { s with watch := none }

theorem step_moves (s : System B) (e : Event B) : s.step e = s ∨ s.Moves e (s.step e) := by
  fun_cases step s e
  case case1 bytes => exact .inr (.write bytes)
  case case3 w watch noticing last => exact .inr (.same w watch noticing last)
  case case4 w _ _ _ => exact .inr (.differs w)
  case case5 w _ bytes _ => exact .inr (.notice w bytes)
  case case8 trigger idle _ => exact .inr (.request trigger idle)
  case case9 w _ _ _ => exact .inr (.take w)
  case case11 trigger _ => exact .inr (.read trigger)
  case case12 trigger bytes applying => exact .inr (.rejected trigger bytes applying)
  case case13 wanted trigger bytes applying => exact .inr (.applied wanted trigger bytes applying)
  case case14 watched rewatching _ => exact .inr (.kept watched rewatching)
  case case15 => exact .inr (.dropped _)
  case case16 debounce _ _ => exact .inr (.began _ debounce)
  case case17 => exact .inr (.dropped _)
  case case18 comparing =>
    split
    · rename_i same
      exact .inr (.loaded comparing same)
    · exact .inr .changed
  case case19 idle => exact .inr (.stopped idle)
  all_goals exact .inl rfl

theorem step_check_same (s : System B) (w : Watch B) (watch : s.watch = some w) (noticing : w.noticing = none)
    (last : w.last = s.file) : s.step .check = { s with dirty := false } := by
  rw [step.eq_def]
  simp only [watch, noticing, last, if_true]

variable {s : System B}

omit [DecidableEq B] in
/-- With no reading for the watch ahead, what a check has yet to find is all the task does not know. -/
theorem Invariant.unawaited (h : s.Invariant) (awaits : ¬s.Awaits) :
    ∀ w, s.watch = some w → w.pending = true ∨ w.noticing.isSome ∨ s.dirty = true ∨ s.known = s.file := by
  intro w hw
  rcases h.watched w hw with pending | noticing | awaits' | rest
  · exact .inl pending
  · exact .inr (.inl noticing)
  · exact absurd awaits' awaits
  · exact .inr (.inr rest)

omit [DecidableEq B] in
theorem not_awaits_of_phase {phase : Phase B} (now : s.phase = phase) (reading : phase ≠ .reading .watch)
    (comparing : phase ≠ .comparing) : ¬s.Awaits := by
  rintro (reading' | comparing')
  · exact reading (now.symm.trans reading')
  · exact comparing (now.symm.trans comparing')

omit [DecidableEq B] in
/-- The reload ends: what it read is what the running config was loaded from, if it was applied. -/
theorem Invariant.finished (h : s.Invariant) {trigger : Trigger} {bytes : B} (applying : s.phase = .applying trigger bytes)
    (loaded : B) : ∀ w, s.watch = some w →
      w.pending = true ∨ w.noticing.isSome ∨ s.dirty = true ∨ s.attempt.getD loaded = s.file := by
  intro w hw
  have asRead := h.unawaited (not_awaits_of_phase applying nofun nofun) w hw
  rw [known, h.applying trigger bytes applying] at asRead
  rwa [h.applying trigger bytes applying]

omit [DecidableEq B] in
theorem Invariant.moves (h : s.Invariant) {e : Event B} {s' : System B} (moves : s.Moves e s') (heeds : e = .check → s.Heeds) :
    s'.Invariant := by
  cases moves with
  | write bytes => exact ⟨h.applying, h.comparing, fun _ _ => .inr (.inr (.inr (.inl rfl)))⟩
  | same w watch noticing last =>
    refine ⟨h.applying, h.comparing, fun w' hw' => ?_⟩
    obtain rfl := Option.some.inj (watch.symm.trans hw')
    rcases heeds rfl w watch noticing last with pending | awaits | asRead
    · exact .inl pending
    · exact .inr (.inr (.inl awaits))
    · exact .inr (.inr (.inr (.inr asRead)))
  | differs w =>
    refine ⟨h.applying, h.comparing, fun w' hw' => ?_⟩
    obtain rfl := Option.some.inj hw'
    exact .inr (.inl rfl)
  | notice w bytes =>
    refine ⟨h.applying, h.comparing, fun w' hw' => ?_⟩
    obtain rfl := Option.some.inj hw'
    exact .inl rfl
  | request trigger idle =>
    have watched := h.unawaited (not_awaits_of_phase idle nofun nofun)
    exact ⟨nofun, nofun, fun w hw => (watched w hw).imp_right fun rest => rest.imp_right .inr⟩
  | take w => exact ⟨nofun, nofun, fun _ _ => .inr (.inr (.inl (.inl rfl)))⟩
  | read trigger =>
    refine ⟨fun _ _ applying => ?_, nofun, fun _ _ => .inr (.inr (.inr (.inr rfl)))⟩
    cases applying
    rfl
  | rejected trigger bytes applying =>
    have watched := h.finished applying s.loaded
    exact ⟨nofun, nofun, fun w hw => (watched w hw).imp_right fun rest => rest.imp_right .inr⟩
  | applied wanted trigger bytes applying =>
    have watched := h.finished applying bytes
    exact ⟨nofun, nofun, fun w hw => (watched w hw).imp_right fun rest => rest.imp_right .inr⟩
  | kept watched rewatching =>
    have watched := h.unawaited (not_awaits_of_phase rewatching nofun nofun)
    exact ⟨nofun, nofun, fun w hw => (watched w hw).imp_right fun rest => rest.imp_right .inr⟩
  | dropped watched => exact ⟨nofun, nofun, nofun⟩
  | began watched debounce => exact ⟨nofun, fun _ => rfl, fun _ _ => .inr (.inr (.inl (.inr rfl)))⟩
  | loaded comparing same =>
    refine ⟨nofun, nofun, fun w hw => .inr (.inr (.inr (.inr ?_)))⟩
    rw [known, h.comparing comparing]
    exact same.symm
  | changed => exact ⟨nofun, nofun, fun _ _ => .inr (.inr (.inl (.inl rfl)))⟩
  | stopped idle => exact ⟨fun _ _ => nofun ∘ idle.symm.trans, nofun ∘ idle.symm.trans, nofun⟩

theorem invariant_step (h : s.Invariant) (e : Event B) (heeds : e = .check → s.Heeds) : (s.step e).Invariant := by
  rcases step_moves s e with still | moves
  · rwa [still]
  · exact h.moves moves heeds

theorem runFrom_invariant (h : s.Invariant) (events : List (Event B))
    (heeds : ∀ k, events[k]? = some .check → (s.runFrom (events.take k)).Heeds) : (s.runFrom events).Invariant := by
  induction events generalizing s with
  | nil => exact h
  | cons e events ih =>
    exact ih (invariant_step h e fun check => heeds 0 (congrArg some check)) fun k hk => heeds (k + 1) hk

omit [DecidableEq B] in
theorem settled_of_invariant (h : s.Invariant) : s.Settled := by
  intro w hw dirty noticing pending handles
  rcases h.watched w hw with pending' | noticing' | awaits | dirty' | asRead
  · exact absurd pending' (by simp [pending])
  · exact absurd noticing' (by simp [noticing])
  · exact absurd (.inl awaits) handles
  · exact absurd dirty' (by simp [dirty])
  · rw [known] at asRead
    cases attempt : s.attempt with
    | none =>
      rw [attempt] at asRead
      exact asRead.symm
    | some read =>
      rw [attempt] at asRead
      exact asRead

theorem heeds_of_settled (handles : ¬s.Handles) (settled : (s.step .check).Settled) : s.Heeds := by
  intro w hw noticing same
  by_cases pending : w.pending = true
  · exact .inl pending
  · rw [step_check_same s w hw noticing same] at settled
    have asRead := settled w hw rfl noticing (by simpa using pending) handles
    refine .inr (.inr ?_)
    cases attempt : s.attempt with
    | none =>
      rw [attempt] at asRead
      rw [known, attempt]
      exact asRead.symm
    | some read =>
      rw [attempt] at asRead
      rw [known, attempt]
      exact asRead

/-- In a run whose checks all heed what the task last read, the file, once checked, is as the task last read it. And a
    single check that does not heed breaks this, unless the task is handling a notification. -/
theorem run_settled (file loaded : B) (wanted : Option Duration) (events : List (Event B)) :
    ((∀ k, events[k]? = some .check → (run file loaded wanted (events.take k)).Heeds) →
      (run file loaded wanted events).Settled) ∧
    (¬(run file loaded wanted events).Handles → (run file loaded wanted (events ++ [.check])).Settled →
      (run file loaded wanted events).Heeds) := by
  refine ⟨fun heeds => settled_of_invariant (runFrom_invariant (invariant_new ..) events heeds), fun handles settled => ?_⟩
  refine heeds_of_settled handles ?_
  rwa [run, runFrom, List.foldl_append] at settled

/-- The watch begins on the file the config was loaded from; a change is seen, reloaded and taken back. -/
def seen : List (Event Nat) :=
  [.rewatch true, .compare, .write 2, .check, .notice, .take, .read, .finish (some (some 5)), .rewatch true, .write 1,
    .check, .notice, .take, .read, .finish none, .check]

theorem run_settled_seen : (run 1 1 (some 5) seen).attempt = some 1 ∧ (run 1 1 (some 5) seen).Settled := by
  refine ⟨by decide, (run_settled 1 1 (some 5) seen).1 fun k hk => ?_⟩
  have lt : k < 16 := (List.getElem?_eq_some_iff.mp hk).1
  interval_cases k <;> cases hk <;> intro w hw noticing same <;> obtain rfl := Option.some.inj hw
  · cases same
  · cases same
  · exact .inr (.inr rfl)

/-- A change that SIGHUP reloads before any check, and that is taken back before the next: the check finds the file as
    it last saw it, and the running config stays the one taken back. -/
def unseen : List (Event Nat) :=
  [.rewatch true, .compare, .write 2, .request .signal, .read, .finish (some (some 5)), .rewatch true, .write 1, .check]

theorem not_settled_unseen :
    (run 1 1 (some 5) unseen).phase = .idle ∧ (run 1 1 (some 5) unseen).loaded = 2 ∧ (run 1 1 (some 5) unseen).file = 1 ∧
      ¬(run 1 1 (some 5) unseen).Settled := by
  refine ⟨by decide, by decide, by decide, fun settled => ?_⟩
  have asRead : (2 : Nat) = 1 := settled { debounce := 5, last := 1, noticing := none, pending := false } rfl rfl rfl rfl
    fun handles => by
      rcases handles with (reading | comparing) | ⟨read, applying⟩
      · cases reading
      · cases comparing
      · cases applying
  cases asRead

end System
end Tgin.ConfigWatch
