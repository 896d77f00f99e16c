import Mathlib.Tactic.IntervalCases
import Tgin.LongPoll.Offsets

/-! What `drain` waits for: a poll, sent with an offset past all that was fetched, that found nothing. -/

namespace Tgin.LongPoll
namespace System

variable {opts : Options} {s : System} {events : List Event}

/-! ### What a step does to the calls of `drain` -/

/-- The source polls no more, unless a hold ends. -/
def Resting (s : System) : Prop := s.phase = .holding ∨ ∃ exit, s.phase = .exited exit

theorem resting_step (h : s.Resting) (e : SourceEvent) :
    (s.stepSource opts e).Resting ∧ (s.stepSource opts e).log = s.log ∨
      e = .resume ∧ s.phase = .holding ∧ s.on.on = false := by
  have stepped := stepSource_stepped opts s e
  generalize s.stepSource opts e = s' at stepped
  cases stepped with
  | undue => exact .inl ⟨h, rfl⟩
  | answered ids now draining polling => rcases h with phase | ⟨exit, phase⟩ <;> cases polling.symm.trans phase
  | offered answer rest admitting => rcases h with phase | ⟨exit, phase⟩ <;> cases admitting.symm.trans phase
  | report reporting => rcases h with phase | ⟨exit, phase⟩ <;> cases reporting.symm.trans phase
  | resume phase down => exact .inr ⟨rfl, phase, down⟩
  | moves _ _ moves =>
    rcases h with phase | ⟨exit, phase⟩
    · obtain ⟨exit, ended⟩ := moves.holding phase
      exact .inl ⟨.inr ⟨exit, ended⟩, moves.quiet.log⟩
    · exact absurd phase (moves.running exit)

/-- A source about to report an empty batch has just got it, or was about to before. -/
theorem reporting_step (e : SourceEvent) (reporting : (s.stepSource opts e).phase = .reporting) :
    (s.stepSource opts e).log = s.log ∧
      (s.phase = .reporting ∨ ∃ now, e = .answered (.ok []) now ∧ s.phase = .polling true) := by
  have stepped := stepSource_stepped opts s e
  generalize s.stepSource opts e = s' at stepped reporting
  cases stepped with
  | undue => exact ⟨rfl, .inl reporting⟩
  | answered ids now draining polling =>
    cases ids with
    | nil =>
      cases draining with
      | false => cases reporting
      | true => exact ⟨List.append_nil _, .inr ⟨now, rfl, polling⟩⟩
    | cons id ids => cases reporting
  | offered answer rest phase =>
    rcases rest with _ | ⟨id, _ | ⟨next, rest⟩⟩
    · cases answer with
      | backpressure => cases reporting
      | admitted => exact ⟨rfl, .inl reporting⟩
      | unroutable => exact ⟨rfl, .inl reporting⟩
    · cases answer <;> cases reporting
    · cases answer <;> cases reporting
  | report => cases reporting
  | resume => cases reporting
  | moves _ _ moves => exact absurd reporting moves.reporting.2

theorem empty_step (opts : Options) (s : System) (e : SourceEvent) :
    (s.stepSource opts e).drains = s.drains ∧ ((s.stepSource opts e).empty = s.empty ∨
      e = .report ∧ s.phase = .reporting ∧ (s.stepSource opts e).empty = s.empty + 1 ∧
        (s.stepSource opts e).log = s.log ∧ (s.stepSource opts e).Resting) := by
  have stepped := stepSource_stepped opts s e
  generalize s.stepSource opts e = s' at stepped
  cases stepped with
  | undue => exact ⟨rfl, .inl rfl⟩
  | answered ids now draining polling => exact ⟨rfl, .inl rfl⟩
  | offered answer rest phase =>
    unfold admitNext
    split <;> exact ⟨rfl, .inl rfl⟩
  | report phase => exact ⟨rfl, .inr ⟨rfl, phase, rfl, rfl, .inl rfl⟩⟩
  | resume => exact ⟨rfl, .inl rfl⟩
  | moves _ _ moves =>
    obtain ⟨_, _, _, rfl⟩ := moves.eq
    exact ⟨rfl, .inl rfl⟩

/-- A call of `drain` keeps the count it began with, and returns only once the count has moved. -/
theorem stepDrain_calls (e : DrainEvent) {i : Nat} {call : DrainCall} (hi : (s.stepDrain e).drains[i]? = some call) :
    (s.drains.length ≤ i ∧ call = { seen := s.empty, phase := .subscribed }) ∨
      ∃ before, s.drains[i]? = some before ∧ call.seen = before.seen ∧
        (call.phase = .returned → before.phase = .returned ∨ s.empty ≠ before.seen) := by
  have kept (h : s.drains[i]? = some call) : ∃ before, s.drains[i]? = some before ∧ call.seen = before.seen ∧
      (call.phase = .returned → before.phase = .returned ∨ s.empty ≠ before.seen) := ⟨call, h, rfl, .inl⟩
  have changed {j : Nat} {seen : Nat} {phase phase' : DrainPhase} (hj : s.drains[j]? = some ⟨seen, phase⟩)
      (h : (s.drains.set j ⟨seen, phase'⟩)[i]? = some call) (due : phase' = .returned → s.empty ≠ seen) :
      ∃ before, s.drains[i]? = some before ∧ call.seen = before.seen ∧
        (call.phase = .returned → before.phase = .returned ∨ s.empty ≠ before.seen) := by
    by_cases same : j = i
    · subst same
      rw [List.getElem?_set_self (List.getElem?_eq_some_iff.mp hj).1] at h
      obtain rfl := Option.some.inj h
      exact ⟨_, hj, rfl, fun returned => .inr (due returned)⟩
    · rw [List.getElem?_set_ne same] at h
      exact kept h
  cases e with
  | subscribe =>
    simp only [stepDrain] at hi
    rcases Nat.lt_or_ge i s.drains.length with lt | ge
    · rw [List.getElem?_append_left lt] at hi
      exact .inr (kept hi)
    · rw [List.getElem?_append_right ge] at hi
      refine .inl ⟨ge, ?_⟩
      rw [List.getElem?_singleton] at hi
      split at hi
      · exact (Option.some.inj hi).symm
      · cases hi
  | raise j =>
    simp only [stepDrain] at hi
    split at hi
    · exact .inr (changed ‹_› hi (by rintro ⟨⟩))
    · exact .inr (kept hi)
  | finish j =>
    simp only [stepDrain] at hi
    split at hi
    · split at hi
      · exact .inr (kept hi)
      · exact .inr (changed ‹_› hi fun _ => ‹_›)
    · exact .inr (kept hi)
  | callOff j =>
    simp only [stepDrain] at hi
    split at hi
    · exact .inr (changed ‹_› hi (by rintro ⟨⟩))
    · exact .inr (kept hi)

/-! ### The empty batch of a drain -/

/-- At the `k`-th event the server answered a draining poll with nothing, and the poll's offset was past all that was
    fetched, as far as an offset can be. -/
structure Empty (opts : Options) (events : List Event) (k : Nat) : Prop where
  answered : ∃ now, events[k]? = some (.source (.answered (.ok []) now))
  draining : (run opts (events.take k)).phase = .polling true
  covered : ∀ f ∈ (run opts (events.take k)).log, Covers (run opts (events.take k)).offset f

/-- After the `j`-th event a hold ended because the flag was down. -/
def Resumed (opts : Options) (events : List Event) (j : Nat) : Prop :=
  ∃ l, j < l ∧ events[l]? = some (.source .resume) ∧ (run opts (events.take l)).phase = .holding ∧
    (run opts (events.take l)).on.on = false

/-- Such a batch came, and was reported when the `i`-th call of `drain` had begun. Nothing was fetched since, unless
    the source was let go on. -/
def RanDry (opts : Options) (events : List Event) (i : Nat) : Prop :=
  ∃ k j, k < j ∧ Empty opts events k ∧ events[j]? = some (.source .report) ∧
    i < (run opts (events.take j)).drains.length ∧
    ((run opts events).log = (run opts (events.take k)).log ∧ (run opts events).Resting ∨ Resumed opts events j)

theorem Empty.concat {k : Nat} (h : Empty opts events k) (e : Event) : Empty opts (events ++ [e]) k := by
  obtain ⟨now, answered⟩ := h.answered
  obtain ⟨get, take⟩ := getElem?_concat (b := e) answered
  refine ⟨⟨now, get⟩, ?_, ?_⟩
  · rw [take]
    exact h.draining
  · rw [take]
    exact h.covered

theorem Empty.take_concat {k : Nat} (h : Empty opts events k) (e : Event) : (events ++ [e]).take k = events.take k := by
  obtain ⟨now, answered⟩ := h.answered
  exact (getElem?_concat answered).2

theorem RanDry.concat {i : Nat} (h : RanDry opts events i) (e : Event) : RanDry opts (events ++ [e]) i := by
  obtain ⟨k, j, lt, empty, report, began, since⟩ := h
  obtain ⟨get, take⟩ := getElem?_concat (b := e) report
  refine ⟨k, j, lt, empty.concat e, get, take ▸ began, ?_⟩
  rw [empty.take_concat e]
  rcases since with ⟨log, resting⟩ | ⟨l, after, resume, holding, down⟩
  · rw [run_concat]
    cases e with
    | source e =>
      rcases resting_step resting e with ⟨resting', log'⟩ | ⟨rfl, holding, down⟩
      · exact .inl ⟨log'.trans log, resting'⟩
      · refine .inr ⟨events.length, (List.getElem?_eq_some_iff.mp report).1, by simp, ?_, ?_⟩ <;> rwa [List.take_left]
    | drain e =>
      obtain ⟨phase, log', -, -⟩ := stepDrain_source (run opts events) e
      refine .inl ⟨log'.trans log, ?_⟩
      rw [Resting, step, phase]
      exact resting
  · obtain ⟨get, take⟩ := getElem?_concat (b := e) resume
    exact .inr ⟨l, after, get, take ▸ holding, take ▸ down⟩

/-- What the counts of the drains remember of a run. -/
structure Remembers (opts : Options) (events : List Event) : Prop where
  reporting : (run opts events).phase = .reporting →
    ∃ k, Empty opts events k ∧ (run opts events).log = (run opts (events.take k)).log
  seen : ∀ i call, (run opts events).drains[i]? = some call → call.seen ≤ (run opts events).empty ∧
    (call.seen < (run opts events).empty → RanDry opts events i) ∧
    (call.phase = .returned → call.seen < (run opts events).empty)

theorem remembers_drain (h : Remembers opts events) (e : DrainEvent) : Remembers opts (events ++ [.drain e]) := by
  obtain ⟨phase, log, -, empty⟩ := stepDrain_source (run opts events) e
  constructor
  · intro reporting
    rw [run_concat] at reporting ⊢
    obtain ⟨k, asked, same⟩ := h.reporting (phase.symm.trans reporting)
    refine ⟨k, asked.concat _, ?_⟩
    rw [asked.take_concat]
    exact log.trans same
  · intro i call hi
    rw [run_concat] at hi ⊢
    change _ ≤ (stepDrain _ e).empty ∧ (_ < (stepDrain _ e).empty → _) ∧ (_ → _ < (stepDrain _ e).empty)
    rw [empty]
    rcases stepDrain_calls e hi with ⟨-, rfl⟩ | ⟨before, hb, seen, returned⟩
    · exact ⟨Nat.le_refl _, fun lt => absurd lt (Nat.lt_irrefl _), nofun⟩
    · obtain ⟨le, dry, done⟩ := h.seen i before hb
      rw [seen]
      refine ⟨le, fun lt => (dry lt).concat _, fun ended => ?_⟩
      rcases returned ended with ended | ne
      · exact done ended
      · exact Nat.lt_of_le_of_ne le ne.symm

/-- A source in a poll has taken all it fetched, and asks past it. -/
theorem covered_of_polling {old ahead : List Fetched} (h : Admitting s old ahead) {draining : Bool}
    (polling : s.phase = .polling draining) : ∀ f ∈ s.log, Covers s.offset f := by
  have rest := h.rest (by simp [polling])
  rw [polling] at rest
  rw [h.log, List.map_eq_nil_iff.mp rest, List.append_nil]
  exact h.covered

theorem remembers_source (h : Remembers opts events) {old ahead : List Fetched}
    (admitting : Admitting (run opts events) old ahead) (e : SourceEvent) : Remembers opts (events ++ [.source e]) := by
  constructor
  · intro reporting
    rw [run_concat] at reporting ⊢
    obtain ⟨log, before | ⟨now, rfl, polling⟩⟩ := reporting_step e reporting
    · obtain ⟨k, asked, same⟩ := h.reporting before
      refine ⟨k, asked.concat _, ?_⟩
      rw [asked.take_concat]
      exact log.trans same
    · refine ⟨events.length, ⟨⟨now, by simp⟩, ?_, ?_⟩, ?_⟩ <;> rw [List.take_left]
      · exact polling
      · exact covered_of_polling admitting polling
      · exact log
  · intro i call hi
    obtain ⟨drains, counted⟩ := empty_step opts (run opts events) e
    rw [run_concat] at hi ⊢
    change (stepSource opts _ e).drains[i]? = some call at hi
    rw [drains] at hi
    obtain ⟨le, dry, done⟩ := h.seen i call hi
    change _ ≤ (stepSource opts _ e).empty ∧ (_ < (stepSource opts _ e).empty → _) ∧ (_ → _ < (stepSource opts _ e).empty)
    rcases counted with same | ⟨rfl, reporting, count, log, resting⟩
    · rw [same]
      exact ⟨le, fun lt => (dry lt).concat _, done⟩
    · rw [count]
      refine ⟨Nat.le_succ_of_le le, fun _ => ?_, fun _ => Nat.lt_succ_of_le le⟩
      obtain ⟨k, asked, same⟩ := h.reporting reporting
      obtain ⟨now, answered⟩ := asked.answered
      refine ⟨k, events.length, (List.getElem?_eq_some_iff.mp answered).1, asked.concat _, by simp, ?_, .inl ⟨?_, ?_⟩⟩
      · rw [List.take_left]
        exact (List.getElem?_eq_some_iff.mp hi).1
      · rw [run_concat, asked.take_concat]
        exact log.trans same
      · rw [run_concat]
        exact resting

theorem remembers_run (serves : Serves opts events) : Remembers opts events := by
  induction events using List.reverseRecOn with
  | nil => exact ⟨nofun, nofun⟩
  | append_singleton events e ih =>
    have h := ih serves.of_concat
    cases e with
    | source e =>
      obtain ⟨old, ahead, admitting⟩ := admitting_run serves.of_concat
      exact remembers_source h admitting e
    | drain e => exact remembers_drain h e

/-- Whatever the server, the sink and the callers of `drain` do: the offset is never past the last update of those
    taken in order from the first, so an update not taken is never confirmed; and a call of `drain` returns only after
    a draining poll past all that was fetched found nothing. An update with the id `i64::MAX` is the one no offset is
    past. -/
theorem run_offset (opts : Options) (events : List Event) (serves : Serves opts events) :
    let s := run opts events
    (match (s.log.takeWhile (·.taken)).getLast? with
      | none => s.offset = 0
      | some last => s.offset ≤ last.id + 1) ∧
    (∀ f ∈ s.log, ¬f.taken → s.offset ≤ f.id) ∧
    ∀ i seen, s.drains[i]? = some ⟨seen, .returned⟩ → RanDry opts events i := by
  intro s
  obtain ⟨old, ahead, admitting⟩ : ∃ old ahead, Admitting s old ahead := admitting_run serves
  refine ⟨?_, fun f hf untaken => ?_, fun i seen hi => ?_⟩
  · rw [takeWhile_taken admitting]
    have offset := admitting.offset
    cases last : old.getLast? with
    | none => simpa [last] using offset
    | some f =>
      rw [last] at offset
      change s.offset ≤ f.id + 1
      rw [offset]
      exact Int.min_le_left _ _
  · rw [admitting.log] at hf
    rcases List.mem_append.mp hf with hf | hf
    · exact absurd (admitting.taken f hf) untaken
    · exact admitting.above f hf
  · obtain ⟨le, dry, returned⟩ := (remembers_run serves).seen i _ hi
    exact dry (returned rfl)

/-- A batch the sink takes one by one, and a drain of the source afterwards. -/
def drained (ids : List Int) (answers : List Admit) : List Event :=
  [.source (.identified (.ok ())), .source (.webhookDeleted (.ok ()) 0), .source .request, .source (.answered (.ok ids) 0)] ++
    answers.map (fun answer => .source (.offered answer)) ++
    [.drain .subscribe, .drain (.raise 0), .source .request, .source (.answered (.ok []) 0), .source .report,
      .drain (.finish 0)]

def defaults : Options := { deleteWebhookOnStart := true, localUpstream := false }

theorem run_offset_drained :
    (run defaults (drained [5, 6] [.admitted, .unroutable])).offset = 7 ∧
      RanDry defaults (drained [5, 6] [.admitted, .unroutable]) 0 := by
  refine ⟨by decide, (run_offset defaults _ ?_).2.2 0 0 (by decide)⟩
  intro k ids now draining answered polling
  have lt : k < 12 := (List.getElem?_eq_some_iff.mp answered).1
  interval_cases k <;> cases answered
  · exact ⟨by decide, by decide⟩
  · exact ⟨.nil, nofun⟩

/-- After the update `i64::MAX` no offset covers what was fetched, and a drain returns all the same. -/
theorem drain_idMax :
    Serves defaults (drained [idMax] [.admitted]) ∧
      (run defaults (drained [idMax] [.admitted])).drains = [⟨0, .returned⟩] ∧
      ¬∃ k now, (drained [idMax] [.admitted])[k]? = some (.source (.answered (.ok []) now)) ∧
        ∀ f ∈ (run defaults ((drained [idMax] [.admitted]).take k)).log,
          f.id < (run defaults ((drained [idMax] [.admitted]).take k)).offset := by
  refine ⟨?_, by decide, ?_⟩
  · intro k ids now draining answered polling
    have lt : k < 11 := (List.getElem?_eq_some_iff.mp answered).1
    interval_cases k <;> cases answered
    · exact ⟨by decide, by decide⟩
    · exact ⟨.nil, nofun⟩
  · rintro ⟨k, now, answered, covered⟩
    have lt : k < 11 := (List.getElem?_eq_some_iff.mp answered).1
    interval_cases k <;> cases answered
    exact absurd (covered ⟨idMax, [.admitted]⟩ (by decide)) (by decide)

end System
end Tgin.LongPoll
