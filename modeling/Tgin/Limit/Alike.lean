import Tgin.Limit.Free
import Tgin.Limit.InOrder

/-! Quotas that answer alike: calendars that fold to the same from some time on, and keyed limiters with the same arrival times.
    Requests keep them so, and a booking that is cancelled at once leaves them so. -/

namespace Tgin.Limit
open Std (ExtTreeMap)

/-! ### Calendars -/

namespace SlotCalendar
variable {quota : Quota} {now now' : Instant} {source maxDelay : Duration}

theorem foldBefore_cons (quota : Quota) (floor : Option Instant) (slot : Instant) (slots : List Instant) (now : Instant) :
    foldBefore quota { floor, slots := slot :: slots } now =
      if slot < now then
        match Instant.checkedAdd (floor.elim slot fun floor => max floor slot) quota.interval with
        | none => { floor, slots := slot :: slots }
        | some next => foldBefore quota { floor := some next, slots } now
      else { floor, slots := slot :: slots } := by
  unfold foldBefore
  by_cases before : slot < now
  · have point : partitionPoint (slot :: slots) (· < now) = partitionPoint slots (· < now) + 1 := by
      rw [partitionPoint, List.takeWhile_cons_of_pos (by simpa using before)]
      rfl
    rw [if_pos before]
    dsimp only
    rw [point, List.take_succ_cons, foldSlots]
    cases Instant.checkedAdd (floor.elim slot fun floor => max floor slot) quota.interval with
    | none => rfl
    | some next => rfl
  · have point : partitionPoint (slot :: slots) (· < now) = 0 := by
      rw [partitionPoint, List.takeWhile_cons_of_neg (by simpa using before)]
      rfl
    rw [if_neg before]
    dsimp only
    rw [point]
    rfl

/-- What has been folded is as if folded later. -/
theorem foldBefore_foldBefore (quota : Quota) (state : Calendar) (h : now ≤ now') :
    foldBefore quota (foldBefore quota state now) now' = foldBefore quota state now' := by
  obtain ⟨floor, slots⟩ := state
  induction slots generalizing floor with
  | nil => rfl
  | cons slot slots ih =>
    rw [foldBefore_cons quota floor slot slots now]
    split
    · rename_i before
      rw [foldBefore_cons, if_pos (before.trans_le h)]
      split
      · rename_i past
        rw [foldBefore_cons, if_pos (before.trans_le h), past]
      · exact ih _
    · rfl

/-- From `time` on the two fold to the same. -/
structure Alike (time : Instant) (c c' : SlotCalendar) : Prop where
  quota : c'.quota = c.quota
  folds : ∀ now, time ≤ now → foldBefore c.quota c'.state now = foldBefore c.quota c.state now

namespace Alike
variable {time : Instant} {c c' c'' : SlotCalendar}

theorem refl (time : Instant) (c : SlotCalendar) : Alike time c c := ⟨rfl, fun _ _ => rfl⟩

theorem symm (h : Alike time c c') : Alike time c' c :=
  ⟨h.quota.symm, fun now hnow => h.quota ▸ (h.folds now hnow).symm⟩

theorem trans (h : Alike time c c') (h' : Alike time c' c'') : Alike time c c'' :=
  ⟨h'.quota.trans h.quota, fun now hnow => (h.quota ▸ h'.folds now hnow).trans (h.folds now hnow)⟩

theorem mono (h : Alike time c c') (hnow : time ≤ now) : Alike now c c' :=
  ⟨h.quota, fun later hlater => h.folds later (hnow.trans hlater)⟩

theorem fold (h : Alike time c c') (hnow : time ≤ now) : Alike now c { c' with state := foldBefore c'.quota c'.state now } := by
  refine ⟨h.quota, fun later hlater => ?_⟩
  rw [h.quota, foldBefore_foldBefore _ _ hlater]
  exact h.folds later (hnow.trans hlater)

/-- A request is answered alike. -/
theorem acquire (h : Alike time c c') (hnow : time ≤ now) (source maxDelay : Duration) :
    (c'.acquire now source maxDelay).1 = (c.acquire now source maxDelay).1 ∧
      Alike now (c.acquire now source maxDelay).2 (c'.acquire now source maxDelay).2 := by
  obtain ⟨quota, state⟩ := c
  obtain ⟨quota', state'⟩ := c'
  obtain rfl : quota' = quota := h.quota
  unfold SlotCalendar.acquire
  cases Instant.checkedAdd now source with
  | none => exact ⟨rfl, h.mono hnow⟩
  | some start =>
    dsimp only
    rw [show foldBefore quota' state' now = foldBefore quota' state now from h.folds now hnow]
    exact ⟨rfl, refl ..⟩

theorem retainRecent (h : Alike time c c') (hnow : time ≤ now) : Alike now (c.retainRecent now) (c'.retainRecent now) := by
  refine ⟨h.quota, fun later _ => ?_⟩
  rw [SlotCalendar.retainRecent, SlotCalendar.retainRecent, h.quota, h.folds now hnow]

end Alike

theorem sorted_fold (quota : Quota) {state : Calendar} (sorted : state.slots.Pairwise (· ≤ ·)) (now : Instant) :
    (foldBefore quota state now).slots.Pairwise (· ≤ ·) :=
  sorted.sublist (List.drop_sublist ..)

theorem sorted_acquire {c : SlotCalendar} (sorted : c.state.slots.Pairwise (· ≤ ·)) :
    (c.acquire now source maxDelay).2.state.slots.Pairwise (· ≤ ·) := by
  have folded := sorted_fold c.quota sorted now
  unfold acquire
  split
  · exact sorted
  · dsimp only
    split
    · exact folded
    · split
      · exact folded
      · exact pairwise_insertIdx folded

theorem acquire_le {c c' : SlotCalendar} {booking : Booking} (h : c.acquire now source maxDelay = (.ok booking, c')) :
    booking.delay ≤ maxDelay := by
  unfold acquire at h
  split at h
  · cases h
  · dsimp only at h
    split at h
    · cases h
    · split at h
      · cases h
      · rename_i inTime
        cases h
        exact Nat.le_of_not_lt inTime

theorem sorted_cancel {c : SlotCalendar} (sorted : c.state.slots.Pairwise (· ≤ ·)) (booking : Booking) :
    (c.cancel booking).state.slots.Pairwise (· ≤ ·) := by
  rw [cancel_eq sorted]
  exact sorted.sublist List.erase_sublist

theorem erase_insertIdx {slots : List Instant} (sorted : slots.Pairwise (· ≤ ·)) (t : Instant) :
    (slots.insertIdx (partitionPoint slots (· ≤ t)) t).erase t = slots := by
  refine List.Perm.eq_of_pairwise' (r := (· ≤ ·)) ((pairwise_insertIdx sorted).sublist List.erase_sublist) sorted ?_
  have le : partitionPoint slots (· ≤ t) ≤ slots.length := partitionPoint_le
  have perm := (List.perm_insertIdx t slots le).erase t
  rwa [List.erase_cons_head] at perm

/-- A request that is refused, or cancelled at once, leaves the calendar folded. -/
theorem Alike.undo {time : Instant} {c c' : SlotCalendar} (h : Alike time c c') (hnow : time ≤ now)
    (sorted : c'.state.slots.Pairwise (· ≤ ·)) (source maxDelay : Duration) :
    match (c'.acquire now source maxDelay).1 with
    | .error _ => Alike now c (c'.acquire now source maxDelay).2
    | .ok booking => Alike now c ((c'.acquire now source maxDelay).2.cancel booking) := by
  have folded := sorted_fold c'.quota sorted now
  have alike := h.fold hnow
  unfold SlotCalendar.acquire
  cases Instant.checkedAdd now source with
  | none => exact h.mono hnow
  | some start =>
    dsimp only
    cases earliest c'.quota (foldBefore c'.quota c'.state now) start with
    | none => exact alike
    | some t =>
      dsimp only
      by_cases late : Instant.saturatingDurationSince t now > maxDelay
      · rw [if_pos late]
        exact alike
      · rw [if_neg late]
        dsimp only
        rw [cancel_eq (pairwise_insertIdx folded)]
        dsimp only
        rw [erase_insertIdx folded]
        exact alike

end SlotCalendar

/-! ### Keyed limiters -/

namespace KeyedLimiter
variable {K : Type} [Ord K] [Std.TransOrd K] {now : Instant} {maxDelay : Duration} {key : K}

theorem book_le {quota : Quota} {stored : Option Tat} {tat : Tat} {wait : Duration}
    (h : quota.book stored now maxDelay = .ok (tat, wait)) : wait ≤ maxDelay := by
  have booked {t : Instant} (h : (if Instant.saturatingDurationSince t now - quota.tolerance > maxDelay then
      (.error { retryAfter := Instant.saturatingDurationSince t now - quota.tolerance } : Except Denied (Tat × Duration))
      else .ok ((Instant.checkedAdd t quota.interval).elim .never .at,
        Instant.saturatingDurationSince t now - quota.tolerance)) = .ok (tat, wait)) : wait ≤ maxDelay := by
    split at h
    · cases h
    · rename_i inTime
      cases h
      exact Nat.le_of_not_lt inTime
  unfold Quota.book at h
  split at h
  · exact booked h
  · exact booked h
  · cases h

theorem acquire_le [DecidableEq K] [Std.LawfulEqOrd K] {l l' : KeyedLimiter K} {admission : Admit}
    (h : l.acquire key now maxDelay = (.ok admission, l')) : admission.delay ≤ maxDelay := by
  have booked := acquire_book l key now maxDelay
  split at booked
  · rw [booked] at h
    cases h
  · rename_i tat delay hbook
    obtain ⟨admission', l'', acquired, rfl, -⟩ := booked
    rw [acquired] at h
    cases h
    exact book_le hbook

/-- The two have the same arrival times. -/
structure Alike (l l' : KeyedLimiter K) : Prop where
  quota : l'.quota = l.quota
  arrival : ∀ key, l'.arrival key = l.arrival key

namespace Alike
variable {l l' l'' : KeyedLimiter K}

theorem refl (l : KeyedLimiter K) : Alike l l := ⟨rfl, fun _ => rfl⟩

theorem symm (h : Alike l l') : Alike l' l := ⟨h.quota.symm, fun key => (h.arrival key).symm⟩

theorem trans (h : Alike l l') (h' : Alike l' l'') : Alike l l'' :=
  ⟨h'.quota.trans h.quota, fun key => (h'.arrival key).trans (h.arrival key)⟩

section
variable [Std.LawfulEqOrd K]

theorem retainRecent (h : Alike l l') : Alike (l.retainRecent now) (l'.retainRecent now) := by
  refine ⟨h.quota, fun key => ?_⟩
  rw [retainRecent_arrival, retainRecent_arrival, h.arrival]

variable [DecidableEq K]

/-- A request is answered alike. -/
theorem acquire (h : Alike l l') (key : K) (now : Instant) (maxDelay : Duration) :
    ((l'.acquire key now maxDelay).1.map (·.delay) = (l.acquire key now maxDelay).1.map (·.delay)) ∧
      Alike (l.acquire key now maxDelay).2 (l'.acquire key now maxDelay).2 := by
  have booked := acquire_book l key now maxDelay
  have booked' := acquire_book l' key now maxDelay
  rw [h.quota, h.arrival] at booked'
  revert booked booked'
  cases l.quota.book (l.arrival key) now maxDelay with
  | error denied =>
    intro booked booked'
    rw [booked, booked']
    exact ⟨rfl, h⟩
  | ok booked =>
    rintro ⟨admission, m, acquired, delay, arrival, quota⟩ ⟨admission', m', acquired', delay', arrival', quota'⟩
    rw [acquired, acquired']
    refine ⟨congrArg Except.ok (delay'.trans delay.symm), quota'.trans quota.symm, fun key' => ?_⟩
    rw [arrival, arrival', h.arrival]

/-- A request that is refused, or cancelled at once, leaves the arrival times. -/
theorem undo (h : Alike l l') (key : K) (now : Instant) (maxDelay : Duration) :
    match (l'.acquire key now maxDelay).1 with
    | .error _ => Alike l (l'.acquire key now maxDelay).2
    | .ok admission => Alike l ((l'.acquire key now maxDelay).2.cancel key admission) := by
  unfold KeyedLimiter.acquire
  dsimp only
  cases l'.quota.book (((l'.shard key).map[key]?).map (·.tat)) now maxDelay with
  | error denied => exact h
  | ok booked =>
    dsimp only
    set entry : Entry := { tat := booked.1, stamp := (l'.shard key).nextStamp }
    set shard : Shard K := { map := (l'.shard key).map.insert key entry, nextStamp := wrappingAdd (l'.shard key).nextStamp 1 }
    have others (key' : K) (ne : key' ≠ key) : shard.map[key']? = (l'.shard key).map[key']? := Ordered.getElem?_insert_of_ne ne _
    have here : (l'.setShard key shard).entry key = some entry := by
      rw [entry_setShard l' key shard others, if_pos rfl]
      exact ExtTreeMap.getElem?_insert_self
    have undone : Alike l' ((l'.setShard key shard).cancel key { delay := booked.2, stamp := entry.stamp, prev := l'.entry key }) := by
      refine ⟨(cancel_same ..).1, fun key' => ?_⟩
      rw [KeyedLimiter.arrival, cancel_entry here rfl, entry_setShard l' key shard others]
      split
      · rename_i same
        rw [same]
        rfl
      · rfl
    exact h.trans undone

end

end Alike

end KeyedLimiter

end Tgin.Limit
