import Tgin.Limit.Calendar

/-! The search of the slot calendar finds the least instant there is: a position where some booking fits is not passed
    over, and the booking it gives is no later. -/

namespace Tgin.Limit
open Gcra

/-- The slots with one more booking. -/
def Calendar.booked (state : Calendar) (t : Instant) : List Instant :=
  state.slots.insertIdx (partitionPoint state.slots (· ≤ t)) t

theorem Calendar.booked_eq (state : Calendar) (t : Instant) :
    state.booked t = state.slots.take (partitionPoint state.slots (· ≤ t)) ++
      t :: state.slots.drop (partitionPoint state.slots (· ≤ t)) :=
  insertIdx_eq partitionPoint_le t

theorem partitionPoint_mono {slots : List Instant} {t u : Instant} (h : t ≤ u) :
    partitionPoint slots (· ≤ t) ≤ partitionPoint slots (· ≤ u) := by
  unfold partitionPoint
  induction slots with
  | nil => exact le_rfl
  | cons slot slots ih =>
    by_cases ht : slot ≤ t
    · simpa [List.takeWhile_cons, ht, ht.trans h] using ih
    · simp [List.takeWhile_cons, ht]

/-- A start in the middle keeps its distance to both sides. -/
theorem conforms_middle {T tau : Nat} {c : Option Nat} {l l' : List Nat} {t : Nat} (h : Conforms T tau c (l ++ t :: l')) :
    (∀ x ∈ tat T c l, x ≤ t + tau ∧ After T tau (x + T) l') ∧ After T tau (t + T) l' := by
  obtain ⟨-, here, rest⟩ := conforms_append.mp h
  have after := (conforms_some.mp rest).1
  cases hx : tat T c l with
  | none =>
    rw [hx, next_none] at after
    exact ⟨by rintro _ ⟨⟩, after⟩
  | some x =>
    rw [hx, next_some, after_max] at after
    refine ⟨fun y hy => ?_, after.2⟩
    obtain rfl := Option.some.inj hy
    exact ⟨here x hx, after.1⟩

namespace SlotCalendar
variable {quota : Quota} {state : Calendar} {start origin : Instant} {search : Search} {p : Nat} {u : Instant}

/-- The loop stops at a position that fits, or before it. -/
theorem Search.loop_stops {floor : Option Int} {fuel n : Nat} {lower : Int} (hn : n ≤ search.s.length) (hfuel : n < p + fuel)
    (fits : search.fits n (search.prefixMax floor n) = some lower) (hp : p ≤ n) :
    ∃ q l, p ≤ q ∧ q ≤ n ∧ search.fits q (search.prefixMax floor q) = some l ∧
      search.loop fuel p (search.prefixMax floor p) = some l := by
  induction fuel generalizing p with
  | zero => omega
  | succ fuel ih =>
    unfold Search.loop
    cases here : search.fits p (search.prefixMax floor p) with
    | some l => exact ⟨p, l, le_rfl, hp, here, rfl⟩
    | none =>
      have hlt : p < n := by
        refine Nat.lt_of_le_of_ne hp ?_
        rintro rfl
        cases here.symm.trans fits
      have hs : search.s[p]? = some search.s[p] := List.getElem?_eq_getElem (by omega)
      obtain ⟨q, l, hq, hqn, found, loop⟩ := ih (p := p + 1) (by omega) hlt
      refine ⟨q, l, by omega, hqn, found, ?_⟩
      simp only [hs]
      rw [← Search.prefixMax_succ hs]
      exact loop

/-- What stands before a position is no later than an instant after it. -/
theorem low_le (hp : partitionPoint state.slots (· ≤ u) = p) (hu : start ≤ u) :
    (Search.exact quota state.slots start origin).low p ≤ (u : Int) - origin := by
  have hu := Int.ofNat_le.mpr hu
  unfold Search.low
  split
  · change (start : Int) - origin ≤ u - origin
    omega
  · rename_i behind
    replace behind : p ≠ partitionPoint state.slots (· ≤ start) := behind
    have le : p ≤ state.slots.length := hp ▸ partitionPoint_le
    have hfirst : partitionPoint state.slots (· ≤ start) ≤ p := hp ▸ partitionPoint_mono (Int.ofNat_le.mp hu)
    have hlast : p - 1 < state.slots.length := by omega
    have before : state.slots[p - 1] ≤ u :=
      of_decide_eq_true (@of_mem_take_partitionPoint _ (· ≤ u) _ (List.mem_take_iff_getElem.mpr ⟨p - 1, by omega, rfl⟩))
    change (state.slots.map fun t : Nat => (t : Int) - origin).getD (p - 1) 0 ≤ u - origin
    rw [List.getD_eq_getElem?_getD, List.getElem?_map, List.getElem?_eq_getElem hlast, Option.map_some, Option.getD_some]
    have := Int.ofNat_le.mpr before
    omega

/-- A booking that keeps the calendar conformant fits at its position, where the search gives one no later. -/
theorem fits_of_conforms (wf : quota.WellFormed) (cal : state.WellFormed quota) (hstart : start ≤ Instant.LAST)
    (horigin : origin ≤ start) (hu : start ≤ u) (hp : partitionPoint state.slots (· ≤ u) = p)
    (conforms : Conforms quota.interval quota.tolerance state.floor (state.booked u)) :
    ∃ lower : Int, lower ≤ u - origin ∧
      (Search.exact quota state.slots start origin).fits p
        ((Search.exact quota state.slots start origin).prefixMax (state.floor.map fun x : Nat => (x : Int) - origin) p) =
          some lower := by
  have le : p ≤ state.slots.length := hp ▸ partitionPoint_le
  have hT := Duration.lt_of_le_max wf.interval_le
  have htau := Duration.lt_of_le_max wf.tolerance_le
  have mul := mul_interval_le wf cal le
  have pos := Nat.le_mul_of_pos_right p wf.interval_pos
  have last : origin ≤ Instant.LAST := horigin.trans hstart
  rw [Calendar.booked_eq, hp] at conforms
  obtain ⟨before, after⟩ := conforms_middle conforms
  rw [Search.after_iff_suffixMin start origin] at after
  have low := @low_le quota _ _ origin _ _ hp hu
  have reach : ((Search.exact quota state.slots start origin).prefixMax (state.floor.map fun x : Nat => (x : Int) - origin) p).elim
      ((Search.exact quota state.slots start origin).low p)
      (fun before => max ((Search.exact quota state.slots start origin).low p)
        (before - quota.tolerance + (p * quota.interval : Nat))) ≤ (u : Int) - origin := by
    rw [Search.prefixMax_exact _ _ le]
    cases hx : tat quota.interval state.floor (state.slots.take p) with
    | none => exact low
    | some x =>
      have ahead := Int.ofNat_le.mpr (before x hx).1
      rw [Option.map_some, Option.elim_some]
      push_cast at ahead ⊢
      omega
  obtain ⟨lower, hlower⟩ : ∃ lower, lower = _ := ⟨_, rfl⟩
  refine ⟨lower, hlower ▸ reach, (Search.fits_eq_some quota.interval quota.tolerance rfl rfl (by omega) (by omega) (by omega)
    (by omega) (prefixMax_bounds wf cal last le) (suffixMin_bounds wf cal last)).mpr
      ⟨fun x hx m hm => ?_, hlower, fun next hnext => ?_, fun m hm => ?_⟩⟩
  all_goals replace reach := hlower ▸ reach
  · rw [Search.prefixMax_exact _ _ le] at hx
    obtain ⟨y, hy, rfl⟩ := Option.map_eq_some_iff.mp hx
    have apart := (Search.after_iff_suffixMin start origin).mp (before y hy).2 m hm
    push_cast at apart ⊢
    omega
  · obtain ⟨v, hv, rfl⟩ : ∃ v, state.slots[p]? = some v ∧ (v : Int) - origin = next := by
      simpa [Search.exact, Option.map_eq_some_iff] using hnext
    have later : u < v := Nat.lt_of_not_le (of_decide_eq_false (@of_mem_getElem?_partitionPoint _ (· ≤ u) v (hp ▸ hv)))
    have := Int.ofNat_lt.mpr later
    omega
  · have apart := after m hm
    push_cast at apart ⊢
    omega

/-- An instant at which the calendar may be booked is found, or an earlier one. -/
theorem earliest_reaches (wf : quota.WellFormed) (cal : state.WellFormed quota) (hstart : start ≤ Instant.LAST)
    (hu : start ≤ u) (last : u ≤ Instant.LAST)
    (conforms : Conforms quota.interval quota.tolerance state.floor (state.booked u)) :
    ∃ t, earliest quota state start = some t ∧ t ≤ u := by
  obtain ⟨origin, horigin, heq⟩ := earliest_eq wf cal hstart
  have length : (Search.exact quota state.slots start origin).s.length = state.slots.length := List.length_mapIdx
  have first : (Search.exact quota state.slots start origin).first ≤ partitionPoint state.slots (· ≤ u) := partitionPoint_mono hu
  have le : partitionPoint state.slots (· ≤ u) ≤ state.slots.length := partitionPoint_le
  obtain ⟨lower, below, fits⟩ := fits_of_conforms wf cal hstart horigin hu rfl conforms
  have enough : partitionPoint state.slots (· ≤ u) < (Search.exact quota state.slots start origin).first +
      (state.slots.length + 1 - (Search.exact quota state.slots start origin).first) := by omega
  obtain ⟨q, l, hfirst, hq, found, loop⟩ := Search.loop_stops (by omega) enough fits first
  obtain ⟨t, rfl, hstart', -, next, -⟩ := exact_fits wf cal hstart horigin hfirst (hq.trans le) found
  have reached : t ≤ u := by
    rcases Nat.lt_or_eq_of_le hq with hlt | rfl
    · have inside : q < state.slots.length := hlt.trans_le le
      have here : state.slots[q]? = some state.slots[q] := List.getElem?_eq_getElem inside
      have before : state.slots[q] ≤ u :=
        of_decide_eq_true (@of_mem_take_partitionPoint _ (· ≤ u) _ (List.mem_take_iff_getElem.mpr ⟨q, by omega, rfl⟩))
      exact (next _ here).le.trans before
    · rw [fits] at found
      have := Option.some.inj found
      omega
  refine ⟨t, ?_, reached⟩
  have origin_le : origin ≤ t := horigin.trans hstart'
  have range : ¬((t : Int) - origin < 0 ∨ (t : Int) - origin > (Duration.MAX : Int)) := by
    have := Int.ofNat_le.mpr origin_le
    have := Int.ofNat_le.mpr (reached.trans last)
    simp only [Instant.LAST, Duration.MAX] at this ⊢
    omega
  rw [heq]
  dsimp only
  rw [loop]
  dsimp only
  rw [if_neg range, ← Int.ofNat_sub origin_le, Int.toNat_natCast, Instant.checkedAdd_eq_some, Nat.add_sub_cancel' origin_le]
  exact ⟨rfl, reached.trans last⟩

end SlotCalendar

end Tgin.Limit
