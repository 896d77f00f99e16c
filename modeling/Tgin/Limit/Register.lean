import Tgin.Limit.Free
import Tgin.Limit.Ledger

/-! The bookings of a calendar in effect: those still live, and those folded before they were cancelled. A booking may be
    cancelled again and again here. While each cancellation finds the booking's own slot, or none at its instant, the slots
    are those of the live bookings, and a request in time order gets the least instant the bookings in effect allow. -/

namespace Tgin.Limit
open Gcra
open Ledger (Op instants)

structure Register where
  calendar : SlotCalendar
  granted : List Ticket
  /-- Granted, and neither cancelled nor folded. -/
  live : List Ticket
  /-- Folded, and not cancelled before. -/
  folded : List Ticket
  deriving DecidableEq, Repr

namespace Register

def new (calendar : SlotCalendar) : Register := { calendar, granted := [], live := [], folded := [] }

def inEffect (r : Register) : List Ticket := r.folded ++ r.live

/-- The first `n` slots have been folded. -/
def fold (r : Register) (n : Nat) : Register := { r with live := r.live.drop n, folded := r.folded ++ r.live.take n }

def step (r : Register) (op : Op) : Register :=
  match op with
  | .acquire now source maxDelay =>
    match r.calendar.acquire now source maxDelay with
    | (.error _, calendar) => { r.fold (r.calendar.len - calendar.len) with calendar }
    | (.ok booking, calendar) =>
      let r := r.fold (r.calendar.len + 1 - calendar.len)
      let ticket : Ticket := { id := r.granted.length, booking }
      let index := partitionPoint (instants r.live) (· ≤ booking.at)
      { r with calendar, granted := r.granted ++ [ticket], live := r.live.insertIdx index ticket }
  | .retainRecent now =>
    let calendar := r.calendar.retainRecent now
    { r.fold (r.calendar.len - calendar.len) with calendar }
  | .cancel ticket =>
    if ticket ∈ r.granted then { r with calendar := r.calendar.cancel ticket.booking, live := r.live.erase ticket } else r

def run (r : Register) (ops : List Op) : Register := ops.foldl step r

/-- The slots are those of the live bookings. -/
def Exact (r : Register) : Prop := r.calendar.state.slots = instants r.live

instance (r : Register) : Decidable r.Exact := inferInstanceAs (Decidable (_ = _))

/-- A booking that is cancelled is still live, or no slot stands at its instant. -/
def Harmless (r : Register) : Op → Prop
  | .acquire .. | .retainRecent _ => True
  | .cancel ticket => ticket ∈ r.granted → ticket ∈ r.live ∨ ticket.booking.at ∉ r.calendar.state.slots

/-- Every operation of the run is harmless where it happens. -/
def AllHarmless : Register → List Op → Prop
  | _, [] => True
  | r, op :: ops => r.Harmless op ∧ AllHarmless (r.step op) ops

/-- The calendar has charged what is folded, and its slots are the live bookings'. -/
structure Invariant (r : Register) : Prop where
  charged : r.calendar.Charged (instants r.folded)
  exact : r.Exact

section
variable {r : Register}

theorem invariant_new {calendar : SlotCalendar} (h : calendar.Charged []) (empty : calendar.state.slots = []) :
    Invariant (new calendar) :=
  ⟨h, empty⟩

/-- What a cancellation leaves of the slots is the live bookings' exactly where it is harmless. -/
theorem exact_cancel (h : r.Invariant) {ticket : Ticket} (granted : ticket ∈ r.granted) :
    (r.step (.cancel ticket)).Exact ↔ r.Harmless (.cancel ticket) := by
  have sorted := h.charged.state.sorted
  have slots : (r.step (.cancel ticket)).Exact ↔
      (instants r.live).erase ticket.booking.at = instants (r.live.erase ticket) := by
    simp only [step, if_pos granted, Exact, SlotCalendar.cancel_eq sorted]
    rw [h.exact]
  rw [slots, Harmless, h.exact]
  by_cases live : ticket ∈ r.live
  · exact iff_of_true (Ledger.instants_erase (h.exact ▸ sorted) live).symm fun _ => .inl live
  · rw [List.erase_of_not_mem live]
    constructor
    · intro same _
      refine .inr fun stands => ?_
      have shorter := List.length_erase_of_mem stands
      rw [same] at shorter
      have pos := List.length_pos_of_mem stands
      omega
    · intro harmless
      exact List.erase_of_not_mem ((harmless granted).resolve_left live)

theorem invariant_fold (h : r.Invariant) {n : Nat} {calendar : SlotCalendar}
    (charged : calendar.Charged (instants r.folded ++ r.calendar.state.slots.take n))
    (slots : calendar.state.slots = r.calendar.state.slots.drop n) : Invariant { r.fold n with calendar } := by
  refine ⟨?_, slots.trans ((congrArg (List.drop n) h.exact).trans (Ledger.instants_drop r.live n).symm)⟩
  change calendar.Charged (instants (r.folded ++ r.live.take n))
  rw [Ledger.instants_append, Ledger.instants_take, ← h.exact]
  exact charged

/-- A new booking gets a slot. -/
theorem invariant_grant (h : r.Invariant) {booking : Booking} {calendar : SlotCalendar}
    (charged : calendar.Charged (instants r.folded))
    (slots : calendar.state.slots =
      r.calendar.state.slots.insertIdx (partitionPoint r.calendar.state.slots (· ≤ booking.at)) booking.at) (ticket : Ticket)
    (own : ticket.booking = booking) :
    Invariant { r with
      calendar
      granted := r.granted ++ [ticket]
      live := r.live.insertIdx (partitionPoint (instants r.live) (· ≤ booking.at)) ticket } := by
  refine ⟨charged, slots.trans ?_⟩
  change _ = instants (r.live.insertIdx _ ticket)
  rw [Ledger.instants_insertIdx, own, h.exact]

theorem invariant_step (h : r.Invariant) {op : Op} (harmless : r.Harmless op) : (r.step op).Invariant := by
  cases op with
  | acquire now source maxDelay =>
    obtain ⟨n, hn, -, -, charged, slots⟩ := SlotCalendar.acquire_charged h.charged now source maxDelay
    simp only [step]
    cases hr : r.calendar.acquire now source maxDelay with
    | mk result calendar =>
      rw [hr] at charged slots
      cases result with
      | error denied =>
        simp only [SlotCalendar.len_drop hn slots]
        exact invariant_fold h charged slots
      | ok booking =>
        obtain ⟨slots, -⟩ := slots
        simp only [SlotCalendar.len_insertIdx hn partitionPoint_le slots]
        -- The calendar after folding and before granting.
        have sub : (r.calendar.state.slots.drop n).Sublist calendar.state.slots := by
          rw [slots]
          exact sublist_insertIdx partitionPoint_le _
        have folded := invariant_fold h (SlotCalendar.charged_sublist charged sub) rfl
        refine invariant_grant folded ?_ slots _ rfl
        change calendar.Charged (instants (r.folded ++ r.live.take n))
        rw [Ledger.instants_append, Ledger.instants_take, ← h.exact]
        exact charged
  | retainRecent now =>
    obtain ⟨n, hn, -, slots, charged⟩ := SlotCalendar.foldBefore_charged h.charged now
    have count : r.calendar.len - (r.calendar.retainRecent now).len = n := SlotCalendar.len_drop hn slots
    simp only [step, count]
    exact invariant_fold h charged slots
  | cancel ticket =>
    by_cases granted : ticket ∈ r.granted
    · have exact' := (exact_cancel h granted).mpr harmless
      simp only [step, if_pos granted] at exact' ⊢
      exact ⟨SlotCalendar.cancel_charged h.charged _, exact'⟩
    · simp only [step, if_neg granted]
      exact h

theorem run_invariant (h : r.Invariant) {ops : List Op} (harmless : AllHarmless r ops) : (r.run ops).Invariant := by
  induction ops generalizing r with
  | nil => exact h
  | cons op ops ih => exact ih (invariant_step h harmless.1) harmless.2

end

/-- In a run whose cancellations are harmless the slots are always those of the live bookings; and the next cancellation
    takes out its own booking's slot, or nothing if that is gone, exactly if it is harmless too. -/
theorem run_exact {count burst : NonZeroU32} {per : Duration} {calendar : SlotCalendar}
    (h : SlotCalendar.new count per burst = .ok calendar) (ops : List Op) (harmless : AllHarmless (new calendar) ops) :
    ((new calendar).run ops).Exact ∧ ∀ ticket ∈ ((new calendar).run ops).granted,
      (((new calendar).run ops).step (.cancel ticket)).Exact ↔ ((new calendar).run ops).Harmless (.cancel ticket) := by
  obtain ⟨charged, empty, -⟩ := SlotCalendar.new_charged h
  have inv := run_invariant (invariant_new charged empty) harmless
  exact ⟨inv.exact, fun ticket granted => exact_cancel inv granted⟩

/-- Two bookings at one instant; the first is cancelled. -/
def cancelledOnce : List Op := [.acquire 0 0 0, .acquire 0 0 0, .cancel ⟨0, ⟨0, 0⟩⟩]

theorem run_exact_cancelledOnce : ((new Ledger.perSecond).run cancelledOnce).Exact ∧
    ∀ ticket ∈ ((new Ledger.perSecond).run cancelledOnce).granted,
      (((new Ledger.perSecond).run cancelledOnce).step (.cancel ticket)).Exact ↔
        ((new Ledger.perSecond).run cancelledOnce).Harmless (.cancel ticket) :=
  run_exact Ledger.perSecond_new cancelledOnce ⟨trivial, trivial, fun _ => .inl (by decide), trivial⟩

/-- It is cancelled again, and the other's slot goes. -/
theorem cancelledTwice_inexact : ¬ ∀ (count burst : NonZeroU32) per calendar, SlotCalendar.new count per burst = .ok calendar →
    ∀ ops, ((new calendar).run ops).Exact := by
  intro h
  exact absurd (h _ _ _ _ Ledger.perSecond_new (cancelledOnce ++ [.cancel ⟨0, ⟨0, 0⟩⟩])) (by decide)

/-! ### In time order -/

def Op.now : Op → Option Instant
  | .acquire now .. | .retainRecent now => some now
  | .cancel _ => none

/-- The operations' nows do not decrease. -/
def InTime (ops : List Op) : Prop := (ops.filterMap Op.now).Pairwise (· ≤ ·)

instance (ops : List Op) : Decidable (InTime ops) := inferInstanceAs (Decidable (List.Pairwise ..))

/-- The instants from `start` on that the bookings in effect leave to one more booking. -/
def Free (r : Register) (start : Instant) : Set Instant := r.calendar.quota.Free (instants r.inEffect) start

/-- A request is granted the least free instant, if that is within its delay, and denied otherwise. -/
def AnswersLeast (r : Register) (now : Instant) (source maxDelay : Duration) : Prop :=
  match (r.calendar.acquire now source maxDelay).1 with
  | .ok booking => IsLeast (r.Free (now + source)) booking.at ∧ booking.at ≤ now + maxDelay
  | .error _ => ∀ t ∈ r.Free (now + source), now + maxDelay < t

/-- The slots are the live bookings', and the calendar has kept to time. -/
structure Timely (r : Register) (time : Instant) : Prop where
  invariant : r.Invariant
  timely : r.calendar.Timely (instants r.folded) time

section
variable {r : Register} {time now : Instant}

/-- A request in time order is answered by what is free. -/
theorem Timely.answersLeast (h : r.Timely time) (hnow : time ≤ now) (source maxDelay : Duration) :
    r.AnswersLeast now source maxDelay := by
  have answered := h.timely.answers hnow source maxDelay
  rw [h.invariant.exact, ← Ledger.instants_append] at answered
  unfold AnswersLeast
  revert answered
  rcases (r.calendar.acquire now source maxDelay).1 with denied | booking
  · rintro (⟨t, least, late, -⟩ | ⟨empty, -⟩) u free
    · exact (Nat.add_lt_of_lt_sub' late).trans_le (least.2 free)
    · exact absurd free (Set.eq_empty_iff_forall_notMem.mp empty u)
  · rintro ⟨least, delay, inTime⟩
    exact ⟨least, Nat.sub_le_iff_le_add'.mp (delay ▸ inTime)⟩

theorem Timely.step (h : r.Timely time) {op : Op} (harmless : r.Harmless op) (hnow : ∀ now ∈ Op.now op, time ≤ now) :
    (r.step op).Timely ((Op.now op).getD time) := by
  refine ⟨invariant_step h.invariant harmless, ?_⟩
  -- The instants folded, if the first `n` slots are.
  have folded (n : Nat) : instants (r.fold n).folded = instants r.folded ++ r.calendar.state.slots.take n := by
    rw [fold, Ledger.instants_append, Ledger.instants_take, h.invariant.exact]
  cases op with
  | acquire now source maxDelay =>
    obtain ⟨n, hn, timely, slots⟩ := h.timely.acquire (hnow now rfl) source maxDelay
    simp only [Register.step]
    cases hr : r.calendar.acquire now source maxDelay with
    | mk result calendar =>
      rw [hr] at timely slots
      cases result with
      | error denied =>
        rw [← folded n] at timely
        simp only [SlotCalendar.len_drop hn slots]
        exact timely
      | ok booking =>
        rw [← folded n] at timely
        simp only [SlotCalendar.len_insertIdx hn partitionPoint_le slots]
        exact timely
  | retainRecent now =>
    obtain ⟨n, hn, slots, timely⟩ := h.timely.retainRecent (hnow now rfl)
    have count : r.calendar.len - (r.calendar.retainRecent now).len = n := SlotCalendar.len_drop hn slots
    rw [← folded n] at timely
    simp only [Register.step, count]
    exact timely
  | cancel ticket =>
    simp only [Register.step]
    split
    · exact h.timely.cancel ticket.booking
    · exact h.timely

theorem Timely.run (h : r.Timely time) {ops : List Op} (harmless : AllHarmless r ops)
    (inTime : (time :: (ops.filterMap Op.now ++ [now])).Pairwise (· ≤ ·)) : ∃ last ≤ now, (r.run ops).Timely last := by
  induction ops generalizing r time with
  | nil => exact ⟨time, List.rel_of_pairwise_cons inTime List.mem_cons_self, h⟩
  | cons op ops ih =>
    cases hop : Op.now op with
    | none =>
      rw [List.filterMap_cons_none hop] at inTime
      refine @ih _ time ?_ harmless.2 inTime
      have timely := h.step harmless.1 (by simp [hop])
      rwa [hop] at timely
    | some instant =>
      rw [List.filterMap_cons_some hop, List.cons_append] at inTime
      refine @ih _ instant ?_ harmless.2 inTime.of_cons
      have timely := h.step harmless.1 fun u hu => by
        cases hop.symm.trans hu
        exact List.rel_of_pairwise_cons inTime List.mem_cons_self
      rwa [hop] at timely

end

/-- In a run in time order whose cancellations are harmless, every request is answered by what the bookings in effect leave,
    however much has been folded. -/
theorem run_answersLeast {count burst : NonZeroU32} {per : Duration} {calendar : SlotCalendar}
    (h : SlotCalendar.new count per burst = .ok calendar) (ops : List Op) (harmless : AllHarmless (new calendar) ops)
    (now : Instant) (source maxDelay : Duration) (inTime : InTime (ops ++ [.acquire now source maxDelay])) :
    ((new calendar).run ops).AnswersLeast now source maxDelay := by
  obtain ⟨charged, empty, -⟩ := SlotCalendar.new_charged h
  have timely : (new calendar).Timely 0 := by
    refine ⟨invariant_new charged empty, charged, ?_, nofun⟩
    change calendar.state.slots.Pairwise _
    rw [empty]
    exact .nil
  rw [InTime, List.filterMap_append] at inTime
  obtain ⟨last, hlast, reached⟩ := timely.run harmless (List.pairwise_cons.mpr ⟨fun u _ => Nat.zero_le u, inTime⟩)
  exact reached.answersLeast hlast source maxDelay

theorem run_answersLeast_cancelledOnce : ((new Ledger.perSecond).run cancelledOnce).AnswersLeast 5 0 0 :=
  run_answersLeast Ledger.perSecond_new cancelledOnce ⟨trivial, trivial, fun _ => .inl (by decide), trivial⟩ 5 0 0 (by decide)

/-- Its slot gone, a booking still in effect no longer holds up the next. -/
theorem cancelledTwice_early : ¬ ∀ (count burst : NonZeroU32) per calendar, SlotCalendar.new count per burst = .ok calendar →
    ∀ ops now source maxDelay, InTime (ops ++ [.acquire now source maxDelay]) →
      ((new calendar).run ops).AnswersLeast now source maxDelay := by
  intro h
  have early := h _ _ _ _ Ledger.perSecond_new (cancelledOnce ++ [.cancel ⟨0, ⟨0, 0⟩⟩, .acquire 0 0 0]) 0 0 0 (by decide)
  have answer : (((new Ledger.perSecond).run (cancelledOnce ++ [.cancel ⟨0, ⟨0, 0⟩⟩, .acquire 0 0 0])).calendar.acquire 0 0 0).1 =
      .ok ⟨0, 0⟩ := by decide
  rw [AnswersLeast, answer] at early
  obtain ⟨⟨⟨-, -, conforms⟩, -⟩, -⟩ := early
  -- Three at one instant, and the quota takes two.
  obtain ⟨-, -, third, -⟩ : Conforms (10 ^ 9) (10 ^ 9) none [0, 0, 0] := conforms
  exact absurd (third (2 * 10 ^ 9) rfl) (by decide)

end Register
end Tgin.Limit
