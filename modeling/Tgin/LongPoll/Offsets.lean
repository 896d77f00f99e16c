import Mathlib.Data.List.Induction
import Tgin.LongPoll

/-! What a long-poll source confirms: the updates it fetched are taken in order, and the offset of its polls stays with
    the last one taken. -/

namespace Tgin.LongPoll
namespace System

variable {opts : Options} {s : System}

/-! ### What a step may do -/

/-- A running source moves on: to another wait, to a poll or to its end. -/
structure Moves (s s' : System) : Prop where
  eq : ∃ phase seen webhookDeleted, s' = { s with phase, seen, webhookDeleted }
  running : ∀ exit, s.phase ≠ .exited exit
  rest : s'.phase.rest = s.phase.rest ∨ ∃ exit, s'.phase = .exited exit
  reporting : s.phase ≠ .reporting ∧ s'.phase ≠ .reporting
  holding : s.phase = .holding → ∃ exit, s'.phase = .exited exit

/-- What a step of `run` did. -/
inductive Stepped (opts : Options) (s : System) : SourceEvent → System → Prop where
  | undue (e : SourceEvent) : Stepped opts s e s
  | answered (ids : List Int) (now : Instant) (draining : Bool) (phase : s.phase = .polling draining) :
      Stepped opts s (.answered (.ok ids) now) { s with
        phase := if !ids.isEmpty then .admitting ids else if draining then .reporting else .ready
        log := s.log ++ ids.map fun id => { id, answers := [] } }
  | offered (answer : Admit) (rest : List Int) (phase : s.phase = .admitting rest) :
      Stepped opts s (.offered answer) (s.admitNext rest answer)
  | report (phase : s.phase = .reporting) :
      Stepped opts s .report { s with phase := .holding, empty := s.empty + 1 }
  | resume (phase : s.phase = .holding) (down : s.on.on = false) :
      Stepped opts s .resume { s with phase := .ready, seen := s.on.version }
  | moves (e : SourceEvent) (s' : System) (moves : Moves s s') : Stepped opts s e s'

theorem Stepped.of_moves {e : SourceEvent} {phase phase' : Phase} {seen : Nat} {webhookDeleted : Option Instant}
    (hs : s.phase = phase) (running : ∀ exit, phase ≠ .exited exit)
    (rest : phase'.rest = phase.rest ∨ ∃ exit, phase' = .exited exit) (reporting : phase ≠ .reporting ∧ phase' ≠ .reporting)
    (holding : phase = .holding → ∃ exit, phase' = .exited exit) :
    Stepped opts s e { s with phase := phase', seen, webhookDeleted } := by
  subst hs
  exact .moves e _ ⟨⟨phase', seen, webhookDeleted, rfl⟩, running, rest, reporting, holding⟩

theorem stepSource_stepped (opts : Options) (s : System) (e : SourceEvent) : Stepped opts s e (s.stepSource opts e) := by
  cases e with
  | answered result now =>
    cases phase : s.phase with
    | polling draining =>
      cases result with
      | ok ids =>
        simp only [stepSource, phase]
        exact .answered ids now draining phase
      | error err =>
        simp only [stepSource, phase]
        split
        · exact .of_moves phase nofun (.inl rfl) ⟨nofun, nofun⟩ nofun
        · exact .of_moves phase nofun (.inl rfl) ⟨nofun, nofun⟩ nofun
        · exact .of_moves phase nofun (.inl rfl) ⟨nofun, nofun⟩ nofun
        · exact .of_moves phase nofun (.inr ⟨_, rfl⟩) ⟨nofun, nofun⟩ nofun
    | _ => cases result <;> simp only [stepSource, phase] <;> exact .undue _
  | offered answer =>
    cases phase : s.phase with
    | admitting rest =>
      simp only [stepSource, phase]
      exact .offered answer rest phase
    | _ =>
      simp only [stepSource, phase]
      exact .undue _
  | identified result =>
    cases phase : s.phase with
    | identifying =>
      cases result with
      | ok _ =>
        simp only [stepSource, phase]
        split <;> exact .of_moves phase nofun (.inl rfl) ⟨nofun, nofun⟩ nofun
      | error err =>
        simp only [stepSource, phase]
        split
        · exact .of_moves phase nofun (.inr ⟨_, rfl⟩) ⟨nofun, nofun⟩ nofun
        · exact .of_moves phase nofun (.inl rfl) ⟨nofun, nofun⟩ nofun
    | _ => cases result <;> simp only [stepSource, phase] <;> exact .undue _
  | webhookDeleted result now =>
    cases phase : s.phase with
    | clearing | deleting =>
      cases result <;> simp only [stepSource, phase] <;> exact .of_moves phase nofun (.inl rfl) ⟨nofun, nofun⟩ nofun
    | _ => cases result <;> simp only [stepSource, phase] <;> exact .undue _
  | flagChanged =>
    cases phase : s.phase with
    | polling draining =>
      cases draining with
      | true =>
        simp only [stepSource, phase]
        exact .undue _
      | false =>
        simp only [stepSource, phase]
        split
        · exact .undue _
        · exact .of_moves phase nofun (.inl rfl) ⟨nofun, nofun⟩ nofun
    | _ =>
      simp only [stepSource, phase]
      exact .undue _
  | report =>
    cases phase : s.phase with
    | reporting =>
      simp only [stepSource, phase]
      exact .report phase
    | _ =>
      simp only [stepSource, phase]
      exact .undue _
  | resume =>
    cases phase : s.phase with
    | holding =>
      simp only [stepSource, phase]
      split
      · exact .undue _
      · rename_i up
        exact .resume phase (by simpa using up)
    | _ =>
      simp only [stepSource, phase]
      exact .undue _
  | request | slept =>
    cases phase : s.phase <;> simp only [stepSource, phase] <;>
      first | exact .undue _ | exact .of_moves phase nofun (.inl rfl) ⟨nofun, nofun⟩ nofun
  | cancel =>
    cases phase : s.phase <;> simp only [stepSource, phase] <;>
      first | exact .undue _ | exact .of_moves phase nofun (.inr ⟨_, rfl⟩) ⟨nofun, nofun⟩ fun _ => ⟨_, rfl⟩

/-! ### The updates fetched, taken and ahead -/

/-- The offset confirms the update, as far as an offset can. -/
def Covers (offset : Int) (f : Fetched) : Prop := f.id < offset ∨ idMax ≤ f.id

/-- The updates fetched are those the sink took, `old`, and then those it is still to take, `ahead`. -/
structure Admitting (s : System) (old ahead : List Fetched) : Prop where
  log : s.log = old ++ ahead
  rest : (∀ exit, s.phase ≠ .exited exit) → ahead.map (·.id) = s.phase.rest
  taken : ∀ f ∈ old, f.taken
  untaken : ∀ f ∈ ahead, ¬f.taken
  offset : s.offset = (old.getLast?.map fun f => nextOffset f.id).getD 0
  covered : ∀ f ∈ old, Covers s.offset f
  increasing : (ahead.map (·.id)).Pairwise (· < ·)
  above : ∀ f ∈ ahead, s.offset ≤ f.id

/-- The step touches neither the updates nor the offset. -/
structure Quiet (s s' : System) : Prop where
  log : s'.log = s.log
  offset : s'.offset = s.offset
  rest : s'.phase.rest = s.phase.rest ∨ ∃ exit, s'.phase = .exited exit
  exited : ∀ exit, s.phase = .exited exit → s'.phase = .exited exit

theorem Moves.quiet {s' : System} (h : Moves s s') : Quiet s s' := by
  obtain ⟨phase, seen, webhookDeleted, rfl⟩ := h.eq
  exact ⟨rfl, rfl, h.rest, fun exit ended => absurd ended (h.running exit)⟩

variable {old ahead : List Fetched}

theorem Quiet.admitting {s' : System} (q : Quiet s s') (h : Admitting s old ahead) : Admitting s' old ahead := by
  refine ⟨q.log.trans h.log, fun running => ?_, h.taken, h.untaken, q.offset.trans h.offset, ?_, h.increasing, ?_⟩
  · rw [h.rest fun exit ended => running exit (q.exited exit ended)]
    rcases q.rest with rest | ⟨exit, ended⟩
    · exact rest.symm
    · exact absurd ended (running exit)
  · rw [q.offset]
    exact h.covered
  · rw [q.offset]
    exact h.above

/-- A new batch is ahead of all that was taken. -/
theorem admitting_answered (h : Admitting s old ahead) {draining : Bool} (polling : s.phase = .polling draining)
    {ids : List Int} (increasing : ids.Pairwise (· < ·)) (above : ∀ id ∈ ids, s.offset ≤ id) :
    Admitting { s with
      phase := if !ids.isEmpty then .admitting ids else if draining then .reporting else .ready
      log := s.log ++ ids.map fun id => { id, answers := [] } } old (ids.map fun id => { id, answers := [] }) := by
  have none : ahead = [] := by
    have rest := h.rest (by simp [polling])
    rw [polling] at rest
    exact List.map_eq_nil_iff.mp rest
  have ids_map : (ids.map fun id => ({ id, answers := [] } : Fetched)).map (·.id) = ids := by
    simp [Function.comp_def]
  refine ⟨by rw [h.log, none, List.append_nil], fun _ => ?_, h.taken, ?_, h.offset, h.covered, ids_map.symm ▸ increasing, ?_⟩
  · rw [ids_map]
    cases ids with
    | nil => cases draining <;> rfl
    | cons id ids => rfl
  · intro f hf
    obtain ⟨id, -, rfl⟩ := List.mem_map.mp hf
    simp [Fetched.taken]
  · intro f hf
    obtain ⟨id, hid, rfl⟩ := List.mem_map.mp hf
    exact above id hid

theorem modify_ahead (old : List Fetched) (f : Fetched) (ahead : List Fetched) (answer : Admit) :
    (old ++ f :: ahead).modify ((old ++ f :: ahead).length - (f :: ahead).length) (·.answer answer) =
      old ++ f.answer answer :: ahead := by
  rw [List.length_append, Nat.add_sub_cancel]
  induction old with
  | nil => rfl
  | cons g old ih => simp [ih]

/-- An offset past the update just taken covers all taken before it and is still behind the rest. -/
theorem covers_nextOffset {offset : Int} {f g : Fetched} (h : Covers offset g) (le : offset ≤ f.id) :
    Covers (nextOffset f.id) g := by
  unfold Covers nextOffset at *
  omega

theorem taken_answer {f : Fetched} {answer : Admit} (h : ¬f.taken) : (f.answer answer).taken ↔ answer ≠ .backpressure := by
  simp only [Fetched.taken, Fetched.answer, List.any_append, Bool.or_eq_true] at h ⊢
  rw [or_iff_right h]
  simp

theorem admitting_refused {f : Fetched} {rest : List Fetched} (h : Admitting s old (f :: rest)) :
    Admitting (s.admitNext ((f :: rest).map (·.id)) .backpressure) old (f.answer .backpressure :: rest) := by
  refine ⟨?_, fun _ => rfl, h.taken, ?_, h.offset, h.covered, h.increasing, ?_⟩
  · simp only [admitNext, h.log, List.length_map]
    exact modify_ahead old f rest .backpressure
  · intro g hg
    rcases List.mem_cons.mp hg with rfl | hg
    · rw [taken_answer (h.untaken f List.mem_cons_self)]
      exact fun ne => ne rfl
    · exact h.untaken g (List.mem_cons_of_mem _ hg)
  · intro g hg
    rcases List.mem_cons.mp hg with rfl | hg
    · exact h.above f List.mem_cons_self
    · exact h.above g (List.mem_cons_of_mem _ hg)

theorem admitting_took {f : Fetched} {rest : List Fetched} (h : Admitting s old (f :: rest)) {answer : Admit}
    (took : answer ≠ .backpressure) :
    Admitting (s.admitNext ((f :: rest).map (·.id)) answer) (old ++ [f.answer answer]) rest := by
  have increasing := List.pairwise_cons.mp h.increasing
  have admitNext : s.admitNext ((f :: rest).map (·.id)) answer = { s with
      log := s.log.modify (s.log.length - (f :: rest).length) (·.answer answer)
      offset := nextOffset f.id
      phase := if rest.isEmpty then .ready else .admitting (rest.map (·.id)) } := by
    cases answer <;> simp [System.admitNext] at took ⊢
  rw [admitNext]
  refine ⟨?_, fun _ => ?_, ?_, ?_, ?_, ?_, increasing.2, ?_⟩
  · rw [h.log, modify_ahead, List.append_assoc]
    rfl
  · cases rest <;> rfl
  · intro g hg
    rcases List.mem_append.mp hg with hg | hg
    · exact h.taken g hg
    · rw [List.mem_singleton.mp hg, taken_answer (h.untaken f List.mem_cons_self)]
      exact took
  · exact fun g hg => h.untaken g (List.mem_cons_of_mem _ hg)
  · rw [List.getLast?_concat]
    rfl
  · intro g hg
    rcases List.mem_append.mp hg with hg | hg
    · exact covers_nextOffset (h.covered g hg) (h.above f List.mem_cons_self)
    · rw [List.mem_singleton.mp hg]
      change f.id < min (f.id + 1) idMax ∨ idMax ≤ f.id
      omega
  · intro g hg
    have lt : f.id < g.id := increasing.1 g.id (List.mem_map_of_mem hg)
    change min (f.id + 1) idMax ≤ g.id
    omega

theorem admitting_step (h : Admitting s old ahead) (e : SourceEvent)
    (serves : ∀ ids now draining, e = .answered (.ok ids) now → s.phase = .polling draining →
      ids.Pairwise (· < ·) ∧ ∀ id ∈ ids, s.offset ≤ id) :
    ∃ old ahead, Admitting (s.stepSource opts e) old ahead := by
  have kept {s' : System} (quiet : Quiet s s') : ∃ old ahead, Admitting s' old ahead := ⟨old, ahead, quiet.admitting h⟩
  have stepped := stepSource_stepped opts s e
  generalize s.stepSource opts e = s' at stepped
  cases stepped with
  | undue => exact ⟨old, ahead, h⟩
  | answered ids now draining polling =>
    obtain ⟨increasing, above⟩ := serves ids now draining rfl polling
    exact ⟨_, _, admitting_answered h polling increasing above⟩
  | offered answer rest phase =>
    obtain rfl : ahead.map (·.id) = rest := by
      have := h.rest (by simp [phase])
      rwa [phase] at this
    cases ahead with
    | nil =>
      cases answer with
      | backpressure =>
        refine ⟨old, [], ?_, fun _ => rfl, h.taken, h.untaken, h.offset, h.covered, h.increasing, h.above⟩
        exact (List.modify_eq_self (Nat.le_refl _)).trans h.log
      | admitted => exact ⟨_, _, h⟩
      | unroutable => exact ⟨_, _, h⟩
    | cons f rest =>
      by_cases took : answer = .backpressure
      · subst took
        exact ⟨_, _, admitting_refused h⟩
      · exact ⟨_, _, admitting_took h took⟩
  | report phase => exact kept ⟨rfl, rfl, .inl (by rw [phase]; rfl), fun _ ended => absurd (phase.symm.trans ended) nofun⟩
  | resume phase => exact kept ⟨rfl, rfl, .inl (by rw [phase]; rfl), fun _ ended => absurd (phase.symm.trans ended) nofun⟩
  | moves _ _ moves => exact kept moves.quiet

/-! ### Runs -/

/-- What a call of `drain` leaves alone. -/
theorem stepDrain_source (s : System) (e : DrainEvent) :
    (s.stepDrain e).phase = s.phase ∧ (s.stepDrain e).log = s.log ∧ (s.stepDrain e).offset = s.offset ∧
      (s.stepDrain e).empty = s.empty := by
  cases e with
  | subscribe => exact ⟨rfl, rfl, rfl, rfl⟩
  | raise i =>
    simp only [stepDrain]
    split <;> exact ⟨rfl, rfl, rfl, rfl⟩
  | finish i =>
    simp only [stepDrain]
    split
    · split <;> exact ⟨rfl, rfl, rfl, rfl⟩
    · exact ⟨rfl, rfl, rfl, rfl⟩
  | callOff i =>
    simp only [stepDrain]
    split <;> exact ⟨rfl, rfl, rfl, rfl⟩

theorem quiet_drain (s : System) (e : DrainEvent) : Quiet s (s.stepDrain e) := by
  obtain ⟨phase, log, offset, -⟩ := stepDrain_source s e
  exact ⟨log, offset, .inl (congrArg _ phase), fun _ h => phase.trans h⟩

/-- Each batch lists increasing update ids at or above the offset asked for. -/
def Serves (opts : Options) (events : List Event) : Prop :=
  ∀ k ids now draining, events[k]? = some (.source (.answered (.ok ids) now)) →
    (run opts (events.take k)).phase = .polling draining →
    ids.Pairwise (· < ·) ∧ ∀ id ∈ ids, (run opts (events.take k)).offset ≤ id

theorem run_concat (opts : Options) (events : List Event) (e : Event) :
    run opts (events ++ [e]) = (run opts events).step opts e := List.foldl_append ..

theorem getElem?_concat {α : Type} {l : List α} {a b : α} {k : Nat} (h : l[k]? = some a) :
    (l ++ [b])[k]? = some a ∧ (l ++ [b]).take k = l.take k := by
  have lt := (List.getElem?_eq_some_iff.mp h).1
  exact ⟨(List.getElem?_append_left lt).trans h, List.take_append_of_le_length (Nat.le_of_lt lt)⟩

theorem Serves.of_concat {events : List Event} {e : Event} (h : Serves opts (events ++ [e])) :
    Serves opts events := by
  intro k ids now draining answered polling
  obtain ⟨get, take⟩ := getElem?_concat (b := e) answered
  have := h k ids now draining get
  rw [take] at this
  exact this polling

theorem Serves.last {events : List Event} {ids : List Int} {now : Instant}
    (h : Serves opts (events ++ [.source (.answered (.ok ids) now)])) {draining : Bool}
    (polling : (run opts events).phase = .polling draining) :
    ids.Pairwise (· < ·) ∧ ∀ id ∈ ids, (run opts events).offset ≤ id := by
  have := h events.length ids now draining (by simp)
  rw [List.take_left] at this
  exact this polling

theorem admitting_run {events : List Event} (serves : Serves opts events) :
    ∃ old ahead, Admitting (run opts events) old ahead := by
  induction events using List.reverseRecOn with
  | nil => exact ⟨[], [], rfl, fun _ => rfl, nofun, nofun, rfl, nofun, .nil, nofun⟩
  | append_singleton events e ih =>
    obtain ⟨old, ahead, h⟩ := ih serves.of_concat
    rw [run_concat]
    cases e with
    | source e =>
      refine admitting_step h e fun ids now draining answered polling => ?_
      subst answered
      exact serves.last polling
    | drain e => exact ⟨old, ahead, (quiet_drain _ e).admitting h⟩

theorem takeWhile_taken (h : Admitting s old ahead) : s.log.takeWhile (·.taken) = old := by
  rw [h.log, List.takeWhile_append_of_pos h.taken]
  cases ahead with
  | nil => simp
  | cons f rest => simp [h.untaken f List.mem_cons_self]

end System
end Tgin.LongPoll
