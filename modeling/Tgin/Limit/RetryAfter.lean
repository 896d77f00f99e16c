import Tgin.Limit.Earliest
import Tgin.Limit.Ledger

/-! How long a denied request is told to wait: exactly until the first instant at which it would be granted at once. -/

namespace Tgin.Limit
open Gcra

/-- A request is granted at once after `wait`, and at no instant before. -/
def ExactWait {Grant : Type} (ask : Instant → Except Denied Grant) (now : Instant) (wait : Duration) : Prop :=
  (∃ grant, ask (now + wait) = .ok grant) ∧ ∀ sooner, now ≤ sooner → sooner < now + wait → ∃ denied, ask sooner = .error denied

/-! ### The keyed limiter -/

section
variable {tat now sooner tolerance : Nat}

theorem wait_pos : 0 < max tat now - now - tolerance ↔ now + tolerance < tat := by omega

theorem waited (h : now + tolerance < tat) : tat ≤ now + (tat - now - tolerance) + tolerance := by omega

theorem not_waited (h : now + tolerance < tat) (before : sooner < now + (tat - now - tolerance)) : ¬tat ≤ sooner + tolerance := by
  omega

end

namespace Quota
variable {quota : Quota} {now : Instant} {maxDelay : Duration}

/-- A denial that is not for good is by a theoretical arrival time too far ahead. -/
theorem book_denied {stored : Option Tat} {denied : Denied} (h : quota.book stored now maxDelay = .error denied)
    (below : denied.retryAfter < Duration.MAX) :
    ∃ tat : Instant, stored = some (.at tat) ∧ now + quota.tolerance < tat ∧ denied.retryAfter = tat - now - quota.tolerance := by
  unfold book at h
  dsimp only at h
  split at h
  · split at h
    · rename_i late
      rw [Instant.saturatingDurationSince, Nat.sub_self, Nat.zero_sub] at late
      exact absurd late (Nat.not_lt_zero _)
    · cases h
  · rename_i tat
    split at h
    · rename_i late
      cases h
      have ahead := wait_pos.mp (Nat.zero_lt_of_lt late)
      exact ⟨tat, rfl, ahead, by rw [Instant.saturatingDurationSince, Nat.max_eq_left (Nat.le_of_lt (Nat.lt_of_add_right_lt ahead))]⟩
    · cases h
  · cases h
    exact absurd below (Nat.lt_irrefl _)

/-- Without a delay a request is granted once the theoretical arrival time is within the tolerance. -/
theorem book_at_once (quota : Quota) (tat now : Instant) :
    (∃ booked, quota.book (some (.at tat)) now 0 = .ok booked) ↔ tat ≤ now + quota.tolerance := by
  unfold book
  dsimp only
  by_cases late : Instant.saturatingDurationSince (max tat now) now - quota.tolerance > 0
  · rw [if_pos late]
    exact ⟨nofun, fun le => absurd (wait_pos.mp late) (Nat.not_lt_of_le le)⟩
  · rw [if_neg late]
    exact ⟨fun _ => Nat.le_of_not_lt fun ahead => late (wait_pos.mpr ahead), fun _ => ⟨_, rfl⟩⟩

end Quota

namespace KeyedLimiter
variable {K : Type} [Ord K] [Std.TransOrd K] {l : KeyedLimiter K} {key : K} {now : Instant} {maxDelay : Duration} {denied : Denied}

theorem acquire_ok_iff (l : KeyedLimiter K) (key : K) (now : Instant) (maxDelay : Duration) :
    (∃ admission, (l.acquire key now maxDelay).1 = .ok admission) ↔
      ∃ booked, l.quota.book (((l.shard key).map[key]?).map (·.tat)) now maxDelay = .ok booked := by
  unfold acquire
  dsimp only
  cases l.quota.book (((l.shard key).map[key]?).map (·.tat)) now maxDelay with
  | error _ => exact ⟨nofun, nofun⟩
  | ok booked => exact ⟨fun _ => ⟨booked, rfl⟩, fun _ => ⟨_, rfl⟩⟩

/-- A denied request changes nothing. -/
theorem acquire_denied (h : (l.acquire key now maxDelay).1 = .error denied) :
    l.quota.book (((l.shard key).map[key]?).map (·.tat)) now maxDelay = .error denied ∧ (l.acquire key now maxDelay).2 = l := by
  unfold acquire at h ⊢
  dsimp only at h ⊢
  cases hbook : l.quota.book (((l.shard key).map[key]?).map (·.tat)) now maxDelay with
  | error _ =>
    rw [hbook] at h
    cases h
    exact ⟨rfl, rfl⟩
  | ok _ =>
    rw [hbook] at h
    cases h

theorem exactWait (h : (l.acquire key now maxDelay).1 = .error denied) (below : denied.retryAfter < Duration.MAX) :
    ExactWait (fun later => ((l.acquire key now maxDelay).2.acquire key later 0).1) now denied.retryAfter := by
  obtain ⟨hbook, same⟩ := acquire_denied h
  obtain ⟨tat, stored, ahead, wait⟩ := Quota.book_denied hbook below
  have granted (later : Instant) :
      (∃ admission, (l.acquire key later 0).1 = .ok admission) ↔ tat ≤ later + l.quota.tolerance := by
    rw [acquire_ok_iff, stored, Quota.book_at_once]
  rw [same, wait]
  refine ⟨(granted _).mpr (waited ahead), fun sooner _ before => ?_⟩
  cases answer : (l.acquire key sooner 0).1 with
  | error denied => exact ⟨denied, answer⟩
  | ok admission => exact absurd ((granted sooner).mp ⟨admission, answer⟩) (not_waited ahead before)

end KeyedLimiter

/-! ### The slot calendar -/

namespace SlotCalendar

inductive Call where
  | acquire (now : Instant) (source maxDelay : Duration)
  | cancel (booking : Booking)
  | retainRecent (now : Instant)
  deriving DecidableEq, Repr

def step (c : SlotCalendar) : Call → SlotCalendar
  | .acquire now source maxDelay => (c.acquire now source maxDelay).2
  | .cancel booking => c.cancel booking
  | .retainRecent now => c.retainRecent now

def run (c : SlotCalendar) (calls : List Call) : SlotCalendar := calls.foldl step c

variable {c : SlotCalendar} {folded : List Instant} {now later : Instant} {maxDelay : Duration} {denied : Denied}

theorem step_charged (h : c.Charged folded) (call : Call) : ∃ folded, (c.step call).Charged folded := by
  cases call with
  | acquire now source maxDelay =>
    obtain ⟨n, -, -, -, charged, -⟩ := acquire_charged h now source maxDelay
    exact ⟨_, charged⟩
  | cancel booking => exact ⟨folded, cancel_charged h booking⟩
  | retainRecent now =>
    obtain ⟨n, -, -, -, charged⟩ := foldBefore_charged h now
    exact ⟨_, charged⟩

theorem run_charged (h : c.Charged folded) (calls : List Call) : ∃ folded, (c.run calls).Charged folded := by
  induction calls generalizing c folded with
  | nil => exact ⟨folded, h⟩
  | cons call calls ih =>
    obtain ⟨_, h⟩ := step_charged h call
    exact ih h

theorem booked_append (floor floor' : Option Instant) {before : List Instant} (slots : List Instant) {t : Instant}
    (h : ∀ u ∈ before, u ≤ t) :
    Calendar.booked { floor, slots := before ++ slots } t = before ++ Calendar.booked { floor := floor', slots } t := by
  unfold Calendar.booked
  induction before with
  | nil => rfl
  | cons first before ih =>
    have point : partitionPoint (first :: before ++ slots) (· ≤ t) = partitionPoint (before ++ slots) (· ≤ t) + 1 := by
      rw [List.cons_append, partitionPoint, List.takeWhile_cons_of_pos (by simpa using h first List.mem_cons_self)]
      rfl
    dsimp only at ih ⊢
    rw [point, List.cons_append, List.insertIdx_succ_cons, ih fun u hu => h u (List.mem_cons_of_mem _ hu)]
    rfl

/-- Folding what is before an instant does not change whether it may be booked. -/
theorem conforms_fold (h : c.Charged folded) (now : Instant) :
    Conforms c.quota.interval c.quota.tolerance (foldBefore c.quota c.state now).floor ((foldBefore c.quota c.state now).booked now) ↔
      Conforms c.quota.interval c.quota.tolerance c.state.floor (c.state.booked now) := by
  obtain ⟨n, -, past, slots, folds⟩ := foldBefore_charged h now
  have floor : (foldBefore c.quota c.state now).floor = tat c.quota.interval c.state.floor (c.state.slots.take n) := by
    have all := folds.floor
    rw [tat_append, ← h.floor] at all
    exact all
  have same : c.state.booked now = c.state.slots.take n ++ (foldBefore c.quota c.state now).booked now := by
    have booked := booked_append c.state.floor (foldBefore c.quota c.state now).floor (c.state.slots.drop n) fun u hu =>
      Nat.le_of_lt (past u hu)
    rw [List.take_append_drop, ← slots] at booked
    exact booked
  have conforms := h.state.conforms
  rw [← List.take_append_drop n c.state.slots, conforms_append] at conforms
  rw [floor, same, conforms_append]
  exact (and_iff_right conforms.1).symm

/-- Without a delay a request is granted if its own instant may be booked. -/
theorem acquire_at_once (h : c.Charged folded) (last : now ≤ Instant.LAST) :
    (∃ booking, (c.acquire now 0 0).1 = .ok booking) ↔
      Conforms c.quota.interval c.quota.tolerance c.state.floor (c.state.booked now) := by
  obtain ⟨n, -, -, -, folds⟩ := foldBefore_charged h now
  have start : Instant.checkedAdd now 0 = some now := Instant.checkedAdd_eq_some.mpr ⟨rfl, last⟩
  have reaches := earliest_reaches folds.quota folds.state last (Nat.le_refl now) last
  rw [conforms_fold h] at reaches
  unfold acquire
  rw [start]
  dsimp only
  cases found : earliest c.quota (foldBefore c.quota c.state now) now with
  | none =>
    refine ⟨nofun, fun conforms => ?_⟩
    obtain ⟨t, some, -⟩ := reaches conforms
    cases found.symm.trans some
  | some t =>
    obtain ⟨after, booked⟩ := earliest_conforms folds.quota folds.state last found
    dsimp only
    by_cases late : Instant.saturatingDurationSince t now > 0
    · rw [if_pos late]
      refine ⟨nofun, fun conforms => absurd late ?_⟩
      obtain ⟨t', some, le⟩ := reaches conforms
      cases found.symm.trans some
      exact Nat.not_lt_of_le (Nat.le_of_eq (Nat.sub_eq_zero_of_le le))
    · rw [if_neg late]
      refine ⟨fun _ => (conforms_fold h now).mp ?_, fun _ => ⟨_, rfl⟩⟩
      obtain rfl : t = now := Nat.le_antisymm (Nat.le_of_sub_eq_zero (Nat.eq_zero_of_not_pos late)) after
      exact booked.conforms

/-- A denial that is not for good is by the earliest instant that is free. -/
theorem acquire_denied (denies : (c.acquire now 0 maxDelay).1 = .error denied) (below : denied.retryAfter < Duration.MAX) :
    now ≤ Instant.LAST ∧ (c.acquire now 0 maxDelay).2 = { c with state := foldBefore c.quota c.state now } ∧
      ∃ t, earliest c.quota (foldBefore c.quota c.state now) now = some t ∧ denied.retryAfter = t - now := by
  unfold acquire at denies ⊢
  cases start : Instant.checkedAdd now 0 with
  | none =>
    rw [start] at denies
    cases denies
    exact absurd below (Nat.lt_irrefl _)
  | some start' =>
    obtain ⟨same, last⟩ := Instant.checkedAdd_eq_some.mp start
    rw [start] at denies
    cases same
    refine ⟨last, ?_⟩
    dsimp only [Nat.add_zero] at denies ⊢
    cases found : earliest c.quota (foldBefore c.quota c.state now) now with
    | none =>
      rw [found] at denies
      cases denies
      exact absurd below (Nat.lt_irrefl _)
    | some t =>
      rw [found] at denies
      dsimp only at denies ⊢
      by_cases late : Instant.saturatingDurationSince t now > maxDelay
      · rw [if_pos late] at denies ⊢
        cases denies
        exact ⟨rfl, t, rfl, rfl⟩
      · rw [if_neg late] at denies
        cases denies

theorem exactWait (h : c.Charged folded) (denies : (c.acquire now 0 maxDelay).1 = .error denied)
    (below : denied.retryAfter < Duration.MAX) :
    ExactWait (fun later => ((c.acquire now 0 maxDelay).2.acquire later 0 0).1) now denied.retryAfter := by
  obtain ⟨n, -, -, -, folds⟩ := foldBefore_charged h now
  obtain ⟨last, state, t, found, wait⟩ := acquire_denied denies below
  obtain ⟨after, booked⟩ := earliest_conforms folds.quota folds.state last found
  have last' : t ≤ Instant.LAST :=
    booked.slots_le t ((List.perm_insertIdx t _ partitionPoint_le).mem_iff.mpr List.mem_cons_self)
  rw [state, wait, ExactWait, Nat.add_sub_cancel' after]
  refine ⟨(acquire_at_once folds last').mpr booked.conforms, fun sooner between before => ?_⟩
  cases answer : (acquire { c with state := foldBefore c.quota c.state now } sooner 0 0).1 with
  | error denied => exact ⟨denied, rfl⟩
  | ok booking =>
    have soon : sooner ≤ Instant.LAST := (Nat.le_of_lt before).trans last'
    obtain ⟨t', some, le⟩ := earliest_reaches folds.quota folds.state last between soon
      ((acquire_at_once folds soon).mp ⟨booking, answer⟩)
    cases found.symm.trans some
    exact absurd before (Nat.not_lt_of_le le)

end SlotCalendar

/-- What a denied request is told to wait is neither too short nor too long, in any state of either limiter. -/
theorem retryAfter_exact {K : Type} [Ord K] [Std.TransOrd K] :
    (∀ (l : KeyedLimiter K) key now maxDelay denied, (l.acquire key now maxDelay).1 = .error denied →
      denied.retryAfter < Duration.MAX →
        ExactWait (fun later => ((l.acquire key now maxDelay).2.acquire key later 0).1) now denied.retryAfter) ∧
    ∀ (count burst : NonZeroU32) per (calendar : SlotCalendar), SlotCalendar.new count per burst = .ok calendar →
      ∀ calls now maxDelay denied, ((calendar.run calls).acquire now 0 maxDelay).1 = .error denied →
        denied.retryAfter < Duration.MAX →
          ExactWait (fun later => (((calendar.run calls).acquire now 0 maxDelay).2.acquire later 0 0).1) now denied.retryAfter := by
  refine ⟨fun l key now maxDelay denied => l.exactWait, fun count burst per calendar new calls now maxDelay denied => ?_⟩
  obtain ⟨folded, charged⟩ := SlotCalendar.run_charged (SlotCalendar.new_charged new).1 calls
  exact SlotCalendar.exactWait charged

/-- The burst is spent. -/
def burstSpent : List SlotCalendar.Call := [.acquire 0 0 0, .acquire 0 0 0]

theorem retryAfter_exact_burstSpent :
    ExactWait (fun later => (((Ledger.perSecond.run burstSpent).acquire 5 0 0).2.acquire later 0 0).1) 5 (10 ^ 9 - 5) :=
  (retryAfter_exact (K := Nat)).2 _ _ _ _ Ledger.perSecond_new burstSpent 5 0 ⟨10 ^ 9 - 5⟩ (by decide) (by decide)

end Tgin.Limit
