import Mathlib.Order.Bounds.Basic
import Tgin.Limit.Earliest

/-! What a request in time order is answered: the least instant that all bookings in effect leave free. Those folded are before
    any instant asked for, so the floor and the slots say all that matters (`Timely.mem_free`). -/

namespace Tgin.Limit
open Gcra

theorem pairwise_insertIdx {slots : List Instant} {t : Instant} (sorted : slots.Pairwise (· ≤ ·)) :
    (slots.insertIdx (partitionPoint slots (· ≤ t)) t).Pairwise (· ≤ ·) := by
  induction slots with
  | nil => exact List.pairwise_singleton ..
  | cons slot slots ih =>
    obtain ⟨first, sorted⟩ := List.pairwise_cons.mp sorted
    rcases Nat.lt_or_ge t slot with before | after
    · have point : partitionPoint (slot :: slots) (· ≤ t) = 0 := by
        rw [partitionPoint, List.takeWhile_cons_of_neg (by simpa using before)]
        rfl
      rw [point, List.insertIdx_zero]
      refine List.pairwise_cons.mpr ⟨fun u hu => ?_, List.pairwise_cons.mpr ⟨first, sorted⟩⟩
      rcases List.mem_cons.mp hu with rfl | hu
      · exact before.le
      · exact before.le.trans (first u hu)
    · have point : partitionPoint (slot :: slots) (· ≤ t) = partitionPoint slots (· ≤ t) + 1 := by
        rw [partitionPoint, List.takeWhile_cons_of_pos (by simpa using after)]
        rfl
      rw [point, List.insertIdx_succ_cons]
      refine List.pairwise_cons.mpr ⟨fun u hu => ?_, ih sorted⟩
      rcases List.mem_cons.mp ((List.perm_insertIdx t _ partitionPoint_le).subset hu) with rfl | hu
      · exact after
      · exact first u hu

/-- A booking after what is folded is inserted among the slots. -/
theorem insertionSort_booked {before : List Instant} {state : Calendar} {t : Instant}
    (sorted : (before ++ state.slots).Pairwise (· ≤ ·)) (past : ∀ u ∈ before, u ≤ t) :
    (t :: (before ++ state.slots)).insertionSort (· ≤ ·) = before ++ state.booked t := by
  have same : (t :: (before ++ state.slots)).Perm (before ++ state.booked t) :=
    List.perm_middle.symm.trans ((List.perm_insertIdx t _ partitionPoint_le).symm.append_left before)
  obtain ⟨hbefore, hslots, across⟩ := List.pairwise_append.mp sorted
  refine List.Perm.eq_of_pairwise' (r := (· ≤ ·)) (List.pairwise_insertionSort _ _) ?_ ((List.perm_insertionSort _ _).trans same)
  refine List.pairwise_append.mpr ⟨hbefore, pairwise_insertIdx hslots, fun u hu v hv => ?_⟩
  rcases List.mem_cons.mp ((List.perm_insertIdx t _ partitionPoint_le).subset hv) with rfl | hv
  · exact past u hu
  · exact across u hu v hv

/-- The instants from `start` on that some bookings leave to one more. -/
def Quota.Free (quota : Quota) (bookings : List Instant) (start : Instant) : Set Instant :=
  {t | start ≤ t ∧ t ≤ Instant.LAST ∧ Conforms quota.interval quota.tolerance none ((t :: bookings).insertionSort (· ≤ ·))}

/-- A request is granted the least of the instants free, if that is within its delay, and denied otherwise. -/
def Answered (free : Set Instant) (now : Instant) (maxDelay : Duration) : Except Denied Booking → Prop
  | .ok booking => IsLeast free booking.at ∧ booking.delay = booking.at - now ∧ booking.delay ≤ maxDelay
  | .error denied =>
    (∃ t, IsLeast free t ∧ maxDelay < t - now ∧ denied.retryAfter = t - now) ∨ free = ∅ ∧ denied.retryAfter = Duration.MAX

namespace SlotCalendar
variable {c : SlotCalendar} {folded : List Instant} {time now : Instant}

/-- What is folded started before `time`, and before what is not. -/
structure Timely (c : SlotCalendar) (folded : List Instant) (time : Instant) : Prop where
  charged : c.Charged folded
  sorted : (folded ++ c.state.slots).Pairwise (· ≤ ·)
  past : ∀ t ∈ folded, t < time

theorem Timely.mono (h : c.Timely folded time) (hnow : time ≤ now) : c.Timely folded now :=
  ⟨h.charged, h.sorted, fun t ht => (h.past t ht).trans_le hnow⟩

/-- What is free shows in the slots left after folding. -/
theorem Timely.mem_free (h : c.Timely folded time) {n : Nat} {state : Calendar}
    (folds : Charged { c with state } (folded ++ c.state.slots.take n)) (slots : state.slots = c.state.slots.drop n)
    {start t : Instant} (past : ∀ u ∈ folded ++ c.state.slots.take n, u ≤ start) :
    t ∈ c.quota.Free (folded ++ c.state.slots) start ↔
      start ≤ t ∧ t ≤ Instant.LAST ∧ Conforms c.quota.interval c.quota.tolerance state.floor (state.booked t) := by
  refine and_congr_right fun hstart => and_congr_right fun _ => ?_
  have all : folded ++ c.state.slots = folded ++ c.state.slots.take n ++ state.slots := by
    rw [slots, List.append_assoc, List.take_append_drop]
  rw [all, insertionSort_booked (all ▸ h.sorted) fun u hu => (past u hu).trans hstart, conforms_append]
  exact (and_iff_right folds.folded).trans (by rw [show state.floor = _ from folds.floor])

/-- A request in time order is granted the least free instant, or denied because of it. -/
theorem Timely.answers (h : c.Timely folded time) (hnow : time ≤ now) (source maxDelay : Duration) :
    Answered (c.quota.Free (folded ++ c.state.slots) (now + source)) now maxDelay (c.acquire now source maxDelay).1 := by
  unfold SlotCalendar.acquire
  cases hstart : Instant.checkedAdd now source with
  | none =>
    refine .inr ⟨Set.eq_empty_iff_forall_notMem.mpr fun t free => ?_, rfl⟩
    have out : ¬now + source ≤ Instant.LAST := by simpa [Instant.checkedAdd] using hstart
    exact out (free.1.trans free.2.1)
  | some start =>
    obtain ⟨rfl, last⟩ := Instant.checkedAdd_eq_some.mp hstart
    obtain ⟨n, -, taken, slots, folds⟩ := foldBefore_charged h.charged now
    have past : ∀ u ∈ folded ++ c.state.slots.take n, u ≤ now + source := by
      intro u hu
      rcases List.mem_append.mp hu with hu | hu
      · exact (h.past u hu).le.trans (hnow.trans (Nat.le_add_right ..))
      · exact (taken u hu).le.trans (Nat.le_add_right ..)
    -- Whatever is free, the search finds it or something before it.
    have least : ∀ u ∈ c.quota.Free (folded ++ c.state.slots) (now + source), ∃ t,
        earliest c.quota (foldBefore c.quota c.state now) (now + source) = some t ∧ t ≤ u := by
      intro u free
      obtain ⟨hstart, hlast, conforms⟩ := (h.mem_free folds slots past).mp free
      exact earliest_reaches folds.quota folds.state last hstart hlast conforms
    dsimp only
    cases found : earliest c.quota (foldBefore c.quota c.state now) (now + source) with
    | none =>
      refine .inr ⟨Set.eq_empty_iff_forall_notMem.mpr fun u free => ?_, rfl⟩
      obtain ⟨t, some, -⟩ := least u free
      cases found.symm.trans some
    | some t =>
      obtain ⟨hfrom, booked⟩ := earliest_conforms folds.quota folds.state last found
      have lower : ∀ u ∈ c.quota.Free (folded ++ c.state.slots) (now + source), t ≤ u := by
        intro u free
        obtain ⟨t', some, le⟩ := least u free
        exact Option.some.inj (found.symm.trans some) ▸ le
      have free : t ∈ c.quota.Free (folded ++ c.state.slots) (now + source) :=
        (h.mem_free folds slots past).mpr
          ⟨hfrom, booked.slots_le t ((List.perm_insertIdx t _ partitionPoint_le).mem_iff.mpr List.mem_cons_self), booked.conforms⟩
      dsimp only
      by_cases late : Instant.saturatingDurationSince t now > maxDelay
      · rw [if_pos late]
        exact .inl ⟨t, ⟨free, lower⟩, late, rfl⟩
      · rw [if_neg late]
        exact ⟨⟨free, lower⟩, rfl, Nat.le_of_not_lt late⟩

/-- Folding leaves the bookings as they are. -/
theorem Timely.fold (h : c.Timely folded time) (hnow : time ≤ now) {n : Nat} {c' : SlotCalendar}
    (charged : c'.Charged (folded ++ c.state.slots.take n)) (slots : c'.state.slots = c.state.slots.drop n)
    (taken : ∀ t ∈ c.state.slots.take n, t < now) : c'.Timely (folded ++ c.state.slots.take n) now := by
  refine ⟨charged, ?_, fun t ht => ?_⟩
  · rw [slots, List.append_assoc, List.take_append_drop]
    exact h.sorted
  · rcases List.mem_append.mp ht with ht | ht
    · exact (h.past t ht).trans_le hnow
    · exact taken t ht

theorem Timely.retainRecent (h : c.Timely folded time) (hnow : time ≤ now) :
    ∃ n ≤ c.state.slots.length, (c.retainRecent now).state.slots = c.state.slots.drop n ∧
      (c.retainRecent now).Timely (folded ++ c.state.slots.take n) now := by
  obtain ⟨n, hn, taken, slots, charged⟩ := foldBefore_charged h.charged now
  exact ⟨n, hn, slots, h.fold hnow charged slots taken⟩

theorem Timely.acquire (h : c.Timely folded time) (hnow : time ≤ now) (source maxDelay : Duration) :
    ∃ n ≤ c.state.slots.length, (c.acquire now source maxDelay).2.Timely (folded ++ c.state.slots.take n) now ∧
      match (c.acquire now source maxDelay).1 with
      | .error _ => (c.acquire now source maxDelay).2.state.slots = c.state.slots.drop n
      | .ok booking => (c.acquire now source maxDelay).2.state.slots =
          (c.state.slots.drop n).insertIdx (partitionPoint (c.state.slots.drop n) (· ≤ booking.at)) booking.at := by
  obtain ⟨n, hn, taken, -, charged, slots⟩ := acquire_charged h.charged now source maxDelay
  refine ⟨n, hn, ?_⟩
  revert charged slots
  rcases c.acquire now source maxDelay with ⟨denied | booking, c'⟩
  · exact fun charged slots => ⟨h.fold hnow charged slots taken, slots⟩
  · intro charged slots
    obtain ⟨slots, hstart, -⟩ := slots
    -- The calendar after folding and before granting.
    have sub : (c.state.slots.drop n).Sublist c'.state.slots := by
      rw [slots]
      exact sublist_insertIdx partitionPoint_le _
    have folds := h.fold hnow (charged_sublist charged sub) rfl taken
    obtain ⟨hfolded, hslots, across⟩ := List.pairwise_append.mp folds.sorted
    refine ⟨⟨charged, List.pairwise_append.mpr ⟨hfolded, slots ▸ pairwise_insertIdx hslots, fun u hu v hv => ?_⟩, folds.past⟩, slots⟩
    rw [slots] at hv
    rcases List.mem_cons.mp ((List.perm_insertIdx _ _ partitionPoint_le).subset hv) with rfl | hv
    · exact (folds.past u hu).le.trans ((Nat.le_add_right ..).trans hstart)
    · exact across u hu v hv

theorem Timely.cancel (h : c.Timely folded time) (booking : Booking) : (c.cancel booking).Timely folded time := by
  refine ⟨cancel_charged h.charged booking, ?_, h.past⟩
  rw [cancel_eq h.charged.state.sorted]
  exact h.sorted.sublist (List.erase_sublist.append_left _)

end SlotCalendar

end Tgin.Limit
