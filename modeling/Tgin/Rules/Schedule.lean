import Mathlib.Algebra.BigOperators.Fin
import Tgin.Lib.SmoothWrr
import Tgin.Rules

/-! The schedule of a weighted split is one period of smooth weighted round robin over the weights of the spec:
    the code's loops compute the rounds, over weights divided by their gcd. -/

namespace Tgin.Rules
open SmoothWrr Finset

variable {m : Matchers}

/-- The weights of a split, by child position. -/
def weightOf (weights : List UInt32) (i : ℕ) : ℤ := (weights.getD i 0).toNat

/-- The child that smooth weighted round robin picks in the round after `ticket` others. -/
def weightedChild (weights : List UInt32) (ticket : ℕ) : ℕ :=
  (step (range weights.length) (weightOf weights) (firstMax weights.length)
    (after (range weights.length) (weightOf weights) (firstMax weights.length) ticket 0)).1

/-! ### The loops -/

/-- A list holds the first `n` values of a function. -/
def Holds (n : ℕ) (list : List Int) (v : ℕ → ℤ) : Prop := list.length = n ∧ ∀ i < n, list.getD i 0 = v i

theorem Holds.modify {n : ℕ} {list : List Int} {v : ℕ → ℤ} (h : Holds n list v) (i : ℕ) (f : ℤ → ℤ) :
    Holds n (list.modify i f) (Function.update v i (f (v i))) := by
  refine ⟨by rw [List.length_modify, h.1], fun j hj => ?_⟩
  have hj' : j < list.length := h.1.symm ▸ hj
  have hv := h.2 j hj
  rw [List.getD_eq_getElem?_getD, List.getElem?_eq_getElem hj', Option.getD_some] at hv
  rw [List.getD_eq_getElem?_getD, List.getElem?_modify, List.getElem?_eq_getElem hj']
  by_cases h : i = j
  · subst h
    simp [hv]
  · simp [h, hv, Function.update_of_ne (Ne.symm h)]

/-- Some of the first values raised. -/
def raisedUpto (weight current : ℕ → ℤ) (k : ℕ) : ℕ → ℤ := fun i => if i < k then raised weight current i else current i

theorem raiseAndPick_eq {n : ℕ} {reduced current : List Int} {weight v : ℕ → ℤ} (hr : Holds n reduced weight)
    (hc : Holds n current v) :
    (raiseAndPick reduced current).1 = firstMax n (raised weight v) ∧
      Holds n (raiseAndPick reduced current).2 (raised weight v) := by
  rw [raiseAndPick, hr.1]
  -- After `k` elements the first `k` values are raised and `pick` is the first of their largest.
  suffices h : ∀ k ≤ n, ∀ acc, acc = (List.range k).foldl
      (fun (acc : ℕ × List Int) i =>
        let current := acc.2.modify i (· + reduced.getD i 0)
        (if current.getD i 0 > current.getD acc.1 0 then i else acc.1, current))
      (0, current) → acc.1 = firstMax k (raised weight v) ∧ Holds n acc.2 (raisedUpto weight v k) by
    obtain ⟨hp, hl, hv⟩ := h n le_rfl _ rfl
    exact ⟨hp, hl, fun i hi => by rw [hv i hi, raisedUpto, if_pos hi]⟩
  intro k hk
  induction k with
  | zero =>
    rintro _ rfl
    exact ⟨rfl, hc.1, fun i hi => by simpa [raisedUpto] using hc.2 i hi⟩
  | succ k ih =>
    rintro _ rfl
    obtain ⟨hp, hh⟩ := ih (by omega) _ rfl
    rw [List.range_succ, List.foldl_append, List.foldl_cons, List.foldl_nil]
    generalize hacc : (List.range k).foldl _ _ = acc at hp hh
    have hm : Holds n (acc.2.modify k (· + reduced.getD k 0)) (raisedUpto weight v (k + 1)) := by
      obtain ⟨hl, hv⟩ := hh.modify k (· + reduced.getD k 0)
      refine ⟨hl, fun i hi => (hv i hi).trans ?_⟩
      by_cases hik : i = k
      · rw [hik, Function.update_self, hr.2 k hk]
        simp [raisedUpto, raised]
      · rw [Function.update_of_ne hik, raisedUpto, raisedUpto]
        exact if_congr (by omega) rfl rfl
    have value : ∀ i < k + 1, (acc.2.modify k (· + reduced.getD k 0)).getD i 0 = raised weight v i := fun i hi => by
      rw [hm.2 i (by omega), raisedUpto, if_pos hi]
    have pick : acc.1 < k + 1 := by
      rw [hp]
      rcases Nat.eq_zero_or_pos k with rfl | hk
      · exact Nat.zero_lt_one
      · exact Nat.lt_succ_of_lt (firstMax_lt hk _)
    refine ⟨?_, hm⟩
    simp only [value k (Nat.lt_succ_self k), value _ pick]
    rw [firstMax, hp]

theorem wrrRounds_eq {n : ℕ} {reduced : List Int} {weight : ℕ → ℤ} (hr : Holds n reduced weight) {total : ℤ}
    (htotal : total = ∑ i ∈ range n, weight i) (rounds : ℕ) {current : List Int} {v : ℕ → ℤ} (hc : Holds n current v)
    (schedule : List ℕ) :
    wrrRounds reduced total rounds current schedule =
      schedule ++ (picks (range n) weight (firstMax n) rounds v).map index := by
  induction rounds generalizing current v schedule with
  | zero => simp [wrrRounds, picks]
  | succ rounds ih =>
    obtain ⟨hp, hh⟩ := raiseAndPick_eq hr hc
    rw [wrrRounds]
    generalize raiseAndPick reduced current = acc at hp hh
    obtain ⟨pick, current⟩ := acc
    dsimp only at hp hh ⊢
    rw [hp, ih (hh.modify _ (· - total)), htotal, picks, List.map_cons, List.append_assoc]
    rfl

/-! ### The schedule -/

/-- What the weights are divided by. -/
def divisor (weights : List UInt32) : ℕ := weights.foldl (fun g w => g.gcd w.toNat) 0

/-- The weights divided by their gcd. -/
def shareOf (weights : List UInt32) (i : ℕ) : ℕ := (weights.getD i 0).toNat / divisor weights

theorem foldl_gcd_dvd (weights : List UInt32) (g : ℕ) :
    weights.foldl (fun g w => g.gcd w.toNat) g ∣ g ∧ ∀ w ∈ weights, weights.foldl (fun g w => g.gcd w.toNat) g ∣ w.toNat := by
  induction weights generalizing g with
  | nil => exact ⟨dvd_rfl, by simp⟩
  | cons w weights ih =>
    obtain ⟨hg, hw⟩ := ih (g.gcd w.toNat)
    rw [List.foldl_cons]
    refine ⟨hg.trans (Nat.gcd_dvd_left ..), fun w' hw' => ?_⟩
    rcases List.mem_cons.mp hw' with rfl | hw'
    · exact hg.trans (Nat.gcd_dvd_right ..)
    · exact hw w' hw'

theorem mul_shareOf (weights : List UInt32) (i : ℕ) :
    divisor weights * shareOf weights i = (weights.getD i 0).toNat := by
  refine Nat.mul_div_cancel' ?_
  rw [List.getD_eq_getElem?_getD]
  cases h : weights[i]? with
  | none => exact dvd_zero _
  | some w => exact (foldl_gcd_dvd weights 0).2 w (List.mem_of_getElem? h)

/-- How many picks a schedule has. -/
def period (weights : List UInt32) : ℕ := ∑ i ∈ range weights.length, shareOf weights i

theorem shareOf_lt (weights : List UInt32) (i : ℕ) : shareOf weights i < 2 ^ 32 :=
  Nat.lt_of_le_of_lt (Nat.div_le_self ..) (UInt32.toNat_lt _)

/-- The weights divided by their gcd, as the code lists them. -/
def reduced (weights : List UInt32) : List Int := weights.map fun w => ((w.toNat / divisor weights : ℕ) : ℤ)

theorem smoothWrrSchedule_def (weights : List UInt32) :
    smoothWrrSchedule (m := m) weights =
      if divisor weights = 0 then .error .zeroTotalWeight
      else
        let period := ((reduced weights).sum % (wordSize : ℤ)).toNat
        if period > MAX_WEIGHT_PERIOD then .error (.weightPeriodTooLarge period)
        else .ok (wrrRounds (reduced weights) period period (List.replicate (reduced weights).length 0) []) := rfl

theorem reduced_holds (weights : List UInt32) :
    Holds weights.length (reduced weights) fun i => (shareOf weights i : ℤ) := by
  refine ⟨List.length_map .., fun i hi => ?_⟩
  rw [reduced, List.getD_eq_getElem?_getD, List.getElem?_map, List.getElem?_eq_getElem hi]
  simp [shareOf, List.getElem?_eq_getElem hi]

theorem Holds.sum {n : ℕ} {list : List Int} {v : ℕ → ℤ} (h : Holds n list v) : list.sum = ∑ i ∈ range n, v i := by
  obtain ⟨rfl, h⟩ := h
  rw [← Fin.sum_univ_eq_sum_range, ← Fin.sum_univ_getElem]
  refine Finset.sum_congr rfl fun i _ => ?_
  rw [← h i i.isLt]
  simp

theorem foldl_gcd_zero {weights : List UInt32} (h : ∀ w ∈ weights, w.toNat = 0) (g : ℕ) :
    weights.foldl (fun g w => g.gcd w.toNat) g = g := by
  induction weights generalizing g with
  | nil => rfl
  | cons w weights ih =>
    rw [List.foldl_cons, h w List.mem_cons_self, Nat.gcd_zero_right]
    exact ih (fun w hw => h w (List.mem_cons_of_mem _ hw)) g

theorem period_pos {weights : List UInt32} (h : divisor weights ≠ 0) : 0 < period weights := by
  refine Nat.pos_of_ne_zero fun hp => h (foldl_gcd_zero (fun w hw => ?_) 0)
  obtain ⟨i, hi, rfl⟩ := List.getElem_of_mem hw
  have share : shareOf weights i = 0 := Finset.sum_eq_zero_iff.mp hp i (mem_range.mpr hi)
  have whole := mul_shareOf weights i
  rw [share, Nat.mul_zero, List.getD_eq_getElem?_getD, List.getElem?_eq_getElem hi] at whole
  exact whole.symm

theorem period_lt {weights : List UInt32} (hlen : weights.length < 2 ^ 32) : period weights < wordSize := by
  have h : period weights ≤ weights.length * (2 ^ 32 - 1) := by
    have := Finset.sum_le_card_nsmul (range weights.length) (shareOf weights) (2 ^ 32 - 1)
      fun i _ => Nat.le_sub_one_of_lt (shareOf_lt weights i)
    rwa [card_range, smul_eq_mul] at this
  refine Nat.lt_of_le_of_lt (h.trans (Nat.mul_le_mul_right _ (Nat.le_sub_one_of_lt hlen))) (by decide)

theorem divisor_pos {weights : List UInt32} (pos : 0 < period weights) : 0 < divisor weights := by
  refine Nat.pos_of_ne_zero fun hd => ?_
  simp [period, shareOf, hd] at pos

/-- Smooth weighted round robin picks the same over the shares. -/
theorem weightedChild_eq {weights : List UInt32} (pos : 0 < period weights) (ticket : ℕ) :
    weightedChild weights ticket =
      (step (range weights.length) (fun i => (shareOf weights i : ℤ)) (firstMax weights.length)
        (after (range weights.length) (fun i => (shareOf weights i : ℤ)) (firstMax weights.length) ticket 0)).1 := by
  have hg : 0 < (divisor weights : ℤ) := Int.natCast_pos.mpr (divisor_pos pos)
  have weight : weightOf weights = fun i => (divisor weights : ℤ) * (shareOf weights i : ℤ) :=
    funext fun i => by rw [weightOf, ← mul_shareOf, Nat.cast_mul]
  have zero : (0 : ℕ → ℤ) = fun i => (divisor weights : ℤ) * (0 : ℕ → ℤ) i := funext fun i => by simp
  rw [weightedChild, weight]
  conv_lhs => rw [zero]
  rw [after_mul hg, step_mul hg]

/-- One period of smooth weighted round robin over the shares. -/
def rounds (weights : List UInt32) : List ℕ :=
  picks (range weights.length) (fun i => (shareOf weights i : ℤ)) (firstMax weights.length) (period weights) 0

@[simp] theorem length_rounds (weights : List UInt32) : (rounds weights).length = period weights := length_picks ..

theorem getElem?_rounds {weights : List UInt32} {t : ℕ} (ht : t < period weights) :
    (rounds weights)[t]? = some (weightedChild weights t) := by
  rw [rounds, getElem?_picks ht, weightedChild_eq (Nat.zero_lt_of_lt ht)]

theorem length_pos_of_period {weights : List UInt32} (pos : 0 < period weights) : 0 < weights.length := by
  refine Nat.pos_of_ne_zero fun hn => ?_
  rw [period, hn, range_zero, sum_empty] at pos
  exact lt_irrefl 0 pos

theorem lt_of_mem_rounds {weights : List UInt32} {i : ℕ} (h : i ∈ rounds weights) : i < weights.length := by
  obtain ⟨t, ht⟩ := List.mem_iff_getElem?.mp h
  have lt : t < period weights := by
    have := (List.getElem?_eq_some_iff.mp ht).1
    rwa [length_rounds] at this
  rw [rounds, getElem?_picks lt] at ht
  rw [← Option.some.inj ht]
  exact firstMax_lt (length_pos_of_period (Nat.zero_lt_of_lt lt)) _

/-- The schedule is that period, its children as indices. -/
theorem smoothWrrSchedule_rounds {weights : List UInt32} (fits : period weights < wordSize) :
    smoothWrrSchedule (m := m) weights =
      if divisor weights = 0 then .error .zeroTotalWeight
      else if period weights > MAX_WEIGHT_PERIOD then .error (.weightPeriodTooLarge (period weights))
      else .ok ((rounds weights).map index) := by
  have hr := reduced_holds weights
  have hsum : (reduced weights).sum = (period weights : ℤ) := by rw [hr.sum, period, Nat.cast_sum]
  have hmod : ((period weights : ℤ) % (wordSize : ℤ)).toNat = period weights := by
    rw [← Int.natCast_mod, Int.toNat_natCast, Nat.mod_eq_of_lt fits]
  have zeros : Holds weights.length (List.replicate weights.length 0) 0 := by
    refine ⟨List.length_replicate .., fun i hi => ?_⟩
    rw [List.getD_eq_getElem?_getD, List.getElem?_replicate, if_pos hi]
    rfl
  rw [smoothWrrSchedule_def]
  simp only [hsum, hmod]
  rw [hr.1, wrrRounds_eq hr (by rw [period, Nat.cast_sum]) _ zeros]
  rfl

/-- An index stands for any position that a `u32` holds. -/
theorem index_eq {i : ℕ} (h : i < 2 ^ 32) : index i = i := Nat.min_eq_left (by omega)

/-- A schedule that compiles is one period of smooth weighted round robin over the shares. -/
theorem smoothWrrSchedule_eq {weights : List UInt32} (hlen : weights.length < 2 ^ 32) {schedule : List ℕ}
    (h : smoothWrrSchedule (m := m) weights = .ok schedule) : 0 < period weights ∧ schedule = rounds weights := by
  rw [smoothWrrSchedule_rounds (period_lt hlen)] at h
  split at h
  · cases h
  · rename_i hd
    have pos := period_pos hd
    split at h
    · cases h
    · refine ⟨pos, (Except.ok.inj h).symm.trans ?_⟩
      exact (List.map_congr_left fun i hi => index_eq ((lt_of_mem_rounds hi).trans hlen)).trans (List.map_id _)

/-- The picks of one period repeat. -/
theorem weightedChild_mod {weights : List UInt32} (pos : 0 < period weights) (ticket : ℕ) :
    weightedChild weights (ticket % period weights) = weightedChild weights ticket := by
  rw [weightedChild_eq pos, weightedChild_eq pos,
    ← step_after_mod (fun i => Int.natCast_nonneg _) (by rw [period, Nat.cast_sum]) pos]

/-- The child a schedule gives to a ticket is the one that smooth weighted round robin picks next. -/
theorem schedule_getD {weights : List UInt32} (hlen : weights.length < 2 ^ 32) {schedule : List ℕ}
    (h : smoothWrrSchedule (m := m) weights = .ok schedule) (ticket : ℕ) :
    schedule.isEmpty = false ∧ schedule.getD (ticket % schedule.length) 0 = weightedChild weights ticket := by
  obtain ⟨pos, rfl⟩ := smoothWrrSchedule_eq hlen h
  have hlt : ticket % period weights < period weights := Nat.mod_lt _ pos
  refine ⟨?_, ?_⟩
  · rw [List.isEmpty_eq_false_iff, ← List.length_pos_iff, length_rounds]
    exact pos
  · rw [length_rounds, List.getD_eq_getElem?_getD, getElem?_rounds hlt, Option.getD_some, weightedChild_mod pos]

theorem shareOf_of_le {weights : List UInt32} {i : ℕ} (hi : weights.length ≤ i) : shareOf weights i = 0 := by
  rw [shareOf, List.getD_eq_getElem?_getD, List.getElem?_eq_none hi]
  exact Nat.zero_div _

/-- The rounds are what the first period of tickets picks. -/
theorem map_weightedChild (weights : List UInt32) :
    (List.range (period weights)).map (weightedChild weights) = rounds weights := by
  refine List.ext_getElem? fun t => ?_
  rw [List.getElem?_map]
  rcases Nat.lt_or_ge t (period weights) with ht | ht
  · rw [List.getElem?_range ht, getElem?_rounds ht, Option.map_some]
  · rw [List.getElem?_eq_none (by rwa [List.length_range]), List.getElem?_eq_none (by rwa [length_rounds]), Option.map_none]

/-- One period of smooth weighted round robin picks each child its share of the times. -/
theorem count_rounds (weights : List UInt32) (i : ℕ) : (rounds weights).count i = shareOf weights i := by
  rcases Nat.eq_zero_or_pos (period weights) with none | pos
  · have share : shareOf weights i = 0 := by
      by_cases hi : i < weights.length
      · exact Finset.sum_eq_zero_iff.mp none i (mem_range.mpr hi)
      · exact shareOf_of_le (Nat.le_of_not_lt hi)
    rw [List.eq_nil_of_length_eq_zero ((length_rounds weights).trans none), share]
    rfl
  have npos := length_pos_of_period pos
  have mem : ∀ v, firstMax weights.length v ∈ range weights.length := fun v => mem_range.mpr (firstMax_lt npos v)
  by_cases hi : i < weights.length
  · have count := count_picks_total mem (fun v i hi => le_firstMax v (mem_range.mp hi))
      (fun i => Int.natCast_nonneg (shareOf weights i)) (by rw [period, Nat.cast_sum]) pos (mem_range.mpr hi)
    exact Int.ofNat_inj.mp count
  · rw [shareOf_of_le (Nat.le_of_not_lt hi), List.count_eq_zero]
    exact fun h => hi (lt_of_mem_rounds h)

theorem count_weightedChild (weights : List UInt32) (i : ℕ) :
    ((List.range (period weights)).map (weightedChild weights)).count i = shareOf weights i := by
  rw [map_weightedChild, count_rounds]

/-- The weights are the shares as many times as their gcd. -/
theorem sum_eq (weights : List UInt32) : (weights.map (·.toNat)).sum = divisor weights * period weights := by
  rw [period, Finset.mul_sum, ← Fin.sum_univ_eq_sum_range, ← Fin.sum_univ_fun_getElem]
  refine Finset.sum_congr rfl fun i _ => ?_
  rw [mul_shareOf, List.getD_eq_getElem?_getD, List.getElem?_eq_getElem i.isLt]
  rfl

theorem divisor_ne_zero {weights : List UInt32} (nonzero : ∃ w ∈ weights, w ≠ 0) : divisor weights ≠ 0 := by
  obtain ⟨w, hw, ne⟩ := nonzero
  intro none
  have dvd := (foldl_gcd_dvd weights 0).2 w hw
  rw [show weights.foldl (fun g w => g.gcd w.toNat) 0 = 0 from none, zero_dvd_iff] at dvd
  exact ne (UInt32.toNat_inj.mp dvd)

end Tgin.Rules
