import Mathlib.Algebra.BigOperators.Group.Finset.Basic
import Mathlib.Algebra.BigOperators.Ring.Finset
import Mathlib.Algebra.Order.BigOperators.Group.Finset
import Mathlib.Data.Nat.Periodic
import Mathlib.Tactic.Ring
import Mathlib.Tactic.Linarith

/-! Smooth weighted round robin over a finite set: every round raises each element's current value by its
    weight, picks one of the largest and takes the total weight from it. Whatever it does on ties, each
    element is picked its weight many times in as many rounds as the total weight, and the values are then
    back where they began. -/

namespace SmoothWrr
open Finset

section
variable {ι : Type} [DecidableEq ι] (s : Finset ι) (weight : ι → ℤ) (pick : (ι → ℤ) → ι)

/-- The values of a round before the pick. -/
def raised (current : ι → ℤ) : ι → ℤ := fun i => current i + weight i

/-- One round: what it picks and the values it leaves. -/
def step (current : ι → ℤ) : ι × (ι → ℤ) :=
  let picked := pick (raised weight current)
  (picked, Function.update (raised weight current) picked (raised weight current picked - ∑ i ∈ s, weight i))

/-- The values after `n` rounds. -/
def after : ℕ → (ι → ℤ) → ι → ℤ
  | 0, current => current
  | n + 1, current => after n (step s weight pick current).2

/-- What `n` rounds pick, in order. -/
def picks : ℕ → (ι → ℤ) → List ι
  | 0, _ => []
  | n + 1, current => (step s weight pick current).1 :: picks n (step s weight pick current).2

variable {s weight pick}

theorem after_add (m n : ℕ) (current : ι → ℤ) :
    after s weight pick (m + n) current = after s weight pick n (after s weight pick m current) := by
  induction m generalizing current with
  | zero => rw [Nat.zero_add, after]
  | succ m ih => rw [Nat.add_right_comm, after, ih, after]

@[simp] theorem length_picks (n : ℕ) (current : ι → ℤ) : (picks s weight pick n current).length = n := by
  induction n generalizing current with
  | zero => rfl
  | succ n ih => rw [picks, List.length_cons, ih]

/-- The pick of a round, from the values before it. -/
theorem getElem?_picks {n t : ℕ} (ht : t < n) (current : ι → ℤ) :
    (picks s weight pick n current)[t]? = some (step s weight pick (after s weight pick t current)).1 := by
  induction n generalizing t current with
  | zero => omega
  | succ n ih =>
    cases t with
    | zero => rfl
    | succ t =>
      rw [picks, List.getElem?_cons_succ, ih (by omega)]
      rfl

/-- A value grows by its weight each round and loses the total with each pick. -/
theorem after_apply (n : ℕ) (current : ι → ℤ) (i : ι) :
    after s weight pick n current i =
      current i + n * weight i - (∑ j ∈ s, weight j) * (picks s weight pick n current).count i := by
  induction n generalizing current with
  | zero => simp [after, picks]
  | succ n ih =>
    rw [after, ih, picks, List.count_cons]
    by_cases h : i = (step s weight pick current).1
    · subst h
      simp only [step, Function.update_self, raised, BEq.rfl, if_true]
      push_cast
      ring
    · have hb : ((step s weight pick current).1 == i) = false := by simpa using Ne.symm h
      have hu : (step s weight pick current).2 i = current i + weight i := Function.update_of_ne h ..
      rw [hb, hu]
      push_cast
      ring

variable (mem : ∀ v, pick v ∈ s) (largest : ∀ v : ι → ℤ, ∀ i ∈ s, v i ≤ v (pick v)) (nonneg : ∀ i, 0 ≤ weight i)

include mem in
theorem sum_step (current : ι → ℤ) : ∑ i ∈ s, (step s weight pick current).2 i = ∑ i ∈ s, current i := by
  have hp := mem (raised weight current)
  have split := Finset.add_sum_erase s (raised weight current) hp
  have total : ∑ i ∈ s, raised weight current i = ∑ i ∈ s, current i + ∑ i ∈ s, weight i := Finset.sum_add_distrib
  have sum : ∑ i ∈ s, (step s weight pick current).2 i = _ := Finset.sum_update_of_mem hp _ _
  rw [sum, Finset.sdiff_singleton_eq_erase]
  linarith

include mem in
theorem sum_after (n : ℕ) (current : ι → ℤ) : ∑ i ∈ s, after s weight pick n current i = ∑ i ∈ s, current i := by
  induction n generalizing current with
  | zero => rfl
  | succ n ih => rw [after, ih, sum_step mem]

include largest nonneg in
/-- Values that sum to zero and lie above minus the total stay so: what is picked was positive. -/
theorem step_gt (total : 0 < ∑ i ∈ s, weight i) {current : ι → ℤ} (hsum : ∑ i ∈ s, current i = 0)
    (h : ∀ i ∈ s, -∑ i ∈ s, weight i < current i) :
    ∀ i ∈ s, -∑ i ∈ s, weight i < (step s weight pick current).2 i := by
  intro i hi
  by_cases hp : i = pick (raised weight current)
  · have positive : 0 < raised weight current (pick (raised weight current)) := by
      by_contra hle
      have : ∑ i ∈ s, raised weight current i ≤ 0 :=
        Finset.sum_nonpos fun i hi => (largest _ i hi).trans (not_lt.mp hle)
      simp only [raised, Finset.sum_add_distrib] at this
      omega
    have hu : (step s weight pick current).2 i = raised weight current i - ∑ i ∈ s, weight i := by
      rw [hp]
      exact Function.update_self ..
    rw [hu, hp]
    omega
  · have hu : (step s weight pick current).2 i = current i + weight i := Function.update_of_ne hp ..
    have := h i hi
    have := nonneg i
    omega

include mem largest nonneg in
theorem after_gt (total : 0 < ∑ i ∈ s, weight i) (n : ℕ) :
    ∀ i ∈ s, -∑ i ∈ s, weight i < after s weight pick n 0 i := by
  have h (current : ι → ℤ) (hsum : ∑ i ∈ s, current i = 0) (h : ∀ i ∈ s, -∑ i ∈ s, weight i < current i) :
      ∀ i ∈ s, -∑ i ∈ s, weight i < after s weight pick n current i := by
    induction n generalizing current with
    | zero => exact h
    | succ n ih =>
      exact ih _ ((sum_step mem current).trans hsum) (step_gt largest nonneg total hsum h)
  exact h 0 (by simp) fun i _ => by simpa using total

include mem largest nonneg in
/-- After as many rounds as the total weight every value is zero again: each is a multiple of the total above
    minus the total, so none is negative, and they sum to zero. -/
theorem after_total {total : ℕ} (htotal : ∑ i ∈ s, weight i = total) (pos : 0 < total) {i : ι} (hi : i ∈ s) :
    after s weight pick total 0 i = 0 := by
  have pos' : 0 < ∑ i ∈ s, weight i := by omega
  have nonneg' : ∀ i ∈ s, 0 ≤ after s weight pick total 0 i := by
    intro i hi
    have gt := after_gt mem largest nonneg pos' total i hi
    rw [after_apply, htotal, Pi.zero_apply, zero_add, ← mul_sub] at gt ⊢
    have : -1 < weight i - (picks s weight pick total 0).count i := by
      by_contra hle
      have := mul_le_mul_of_nonneg_left (not_lt.mp hle) (Int.natCast_nonneg total)
      omega
    exact mul_nonneg (Int.natCast_nonneg total) (by omega)
  have sum : ∑ i ∈ s, after s weight pick total 0 i = 0 := (sum_after mem total 0).trans (by simp)
  exact (Finset.sum_eq_zero_iff_of_nonneg nonneg').mp sum i hi

include mem largest nonneg in
/-- In as many rounds as the total weight each element is picked its weight many times. -/
theorem count_picks_total {total : ℕ} (htotal : ∑ i ∈ s, weight i = total) (pos : 0 < total) {i : ι} (hi : i ∈ s) :
    ((picks s weight pick total 0).count i : ℤ) = weight i := by
  have h := after_total mem largest nonneg htotal pos hi
  rw [after_apply, htotal, Pi.zero_apply, zero_add, ← mul_sub] at h
  have := (mul_eq_zero.mp h).resolve_left (by omega)
  omega

end

/-! ### Weights by index, the first of the largest -/

section
variable {n : ℕ}

/-- The first of the largest of `v 0, …, v (n - 1)`. -/
def firstMax : ℕ → (ℕ → ℤ) → ℕ
  | 0, _ => 0
  | n + 1, v => if v n > v (firstMax n v) then n else firstMax n v

theorem firstMax_lt (pos : 0 < n) (v : ℕ → ℤ) : firstMax n v < n := by
  induction n with
  | zero => omega
  | succ n ih =>
    rw [firstMax]
    split
    · exact Nat.lt_succ_self n
    · rcases Nat.eq_zero_or_pos n with rfl | hn
      · exact Nat.zero_lt_one
      · exact Nat.lt_succ_of_lt (ih hn)

theorem le_firstMax (v : ℕ → ℤ) {i : ℕ} (hi : i < n) : v i ≤ v (firstMax n v) := by
  induction n with
  | zero => omega
  | succ n ih =>
    rw [firstMax]
    rcases Nat.lt_succ_iff_lt_or_eq.mp hi with hi | rfl
    · split
      · rename_i h
        exact (ih hi).trans (le_of_lt h)
      · exact ih hi
    · split
      · exact le_rfl
      · rename_i h
        exact not_lt.mp h

theorem firstMax_congr {v v' : ℕ → ℤ} (h : ∀ i < n, v i = v' i) : firstMax n v = firstMax n v' := by
  induction n with
  | zero => rfl
  | succ n ih =>
    rw [firstMax, firstMax, ih fun i hi => h i (Nat.lt_succ_of_lt hi), h n (Nat.lt_succ_self n)]
    rcases Nat.eq_zero_or_pos n with rfl | hn
    · simp [firstMax]
    · rw [h _ (Nat.lt_succ_of_lt (firstMax_lt hn v'))]

theorem firstMax_mul {g : ℤ} (pos : 0 < g) (v : ℕ → ℤ) : firstMax n (fun i => g * v i) = firstMax n v := by
  induction n with
  | zero => rfl
  | succ n ih => simp only [firstMax, ih, gt_iff_lt, mul_lt_mul_iff_right₀ pos]

variable {weight : ℕ → ℤ}

/-- Weights multiplied by a positive factor pick the same. -/
theorem step_mul {g : ℤ} (pos : 0 < g) (current : ℕ → ℤ) :
    step (range n) (fun i => g * weight i) (firstMax n) (fun i => g * current i) =
      ((step (range n) weight (firstMax n) current).1,
        fun i => g * (step (range n) weight (firstMax n) current).2 i) := by
  have hr : raised (fun i => g * weight i) (fun i => g * current i) = fun i => g * raised weight current i :=
    funext fun i => (mul_add ..).symm
  simp only [step, hr, firstMax_mul pos]
  refine Prod.ext rfl (funext fun i => ?_)
  by_cases h : i = firstMax n (raised weight current)
  · subst h
    simp only [Function.update_self, ← Finset.mul_sum, mul_sub]
  · simp only [Function.update_of_ne h]

theorem after_mul {g : ℤ} (pos : 0 < g) (t : ℕ) (current : ℕ → ℤ) :
    after (range n) (fun i => g * weight i) (firstMax n) t (fun i => g * current i) =
      fun i => g * after (range n) weight (firstMax n) t current i := by
  induction t generalizing current with
  | zero => rfl
  | succ t ih => rw [after, step_mul pos, ih, after]

/-- A round reads and writes each element's value alone, and the pick. -/
theorem step_congr {current current' : ℕ → ℤ} (h : ∀ i < n, current i = current' i) :
    (step (range n) weight (firstMax n) current).1 = (step (range n) weight (firstMax n) current').1 ∧
      ∀ i < n, (step (range n) weight (firstMax n) current).2 i = (step (range n) weight (firstMax n) current').2 i := by
  have hr : ∀ i < n, raised weight current i = raised weight current' i := fun i hi => by
    simp only [raised, h i hi]
  have hp := firstMax_congr hr
  refine ⟨hp, fun i hi => ?_⟩
  simp only [step, hp]
  by_cases hi' : i = firstMax n (raised weight current')
  · rw [← hi', Function.update_self, Function.update_self, hr i hi]
  · rw [Function.update_of_ne hi', Function.update_of_ne hi', hr i hi]

theorem after_congr {current current' : ℕ → ℤ} (h : ∀ i < n, current i = current' i) (t : ℕ) :
    ∀ i < n, after (range n) weight (firstMax n) t current i = after (range n) weight (firstMax n) t current' i := by
  induction t generalizing current current' with
  | zero => exact h
  | succ t ih => exact ih (step_congr h).2

/-- The rounds repeat after as many as the total weight: the pick only depends on the values of the elements. -/
theorem step_after_mod {total : ℕ} (nonneg : ∀ i, 0 ≤ weight i) (htotal : ∑ i ∈ range n, weight i = total)
    (pos : 0 < total) (t : ℕ) :
    (step (range n) weight (firstMax n) (after (range n) weight (firstMax n) t 0)).1 =
      (step (range n) weight (firstMax n) (after (range n) weight (firstMax n) (t % total) 0)).1 := by
  have npos : 0 < n := by
    rcases Nat.eq_zero_or_pos n with rfl | hn
    · rw [Finset.range_zero, Finset.sum_empty] at htotal
      omega
    · exact hn
  have mem : ∀ v, firstMax n v ∈ range n := fun v => mem_range.mpr (firstMax_lt npos v)
  have largest : ∀ v : ℕ → ℤ, ∀ i ∈ range n, v i ≤ v (firstMax n v) := fun v i hi => le_firstMax v (mem_range.mp hi)
  refine (step_congr fun i hi => ?_).1
  induction t using Nat.strongRecOn generalizing i with
  | ind t ih =>
    rcases Nat.lt_or_ge t total with h | h
    · rw [Nat.mod_eq_of_lt h]
    · rw [Nat.mod_eq_sub_mod h, ← ih (t - total) (by omega) i hi]
      conv_lhs => rw [show t = total + (t - total) by omega, after_add]
      refine after_congr (fun i hi => ?_) _ i hi
      exact after_total mem largest nonneg htotal pos (mem_range.mpr hi)

end

/-! ### Windows of a periodic choice -/

/-- A periodic function takes each value as often in any window of one period. -/
theorem count_period {f : ℕ → ℕ} {p : ℕ} (periodic : Function.Periodic f p) (a x : ℕ) :
    ((List.range' a p).map f).count x = ((List.range p).map f).count x := by
  have window (a : ℕ) : ((List.range' a p).map f).count x = p.count (fun t => f t = x) := by
    have h := Nat.filter_multiset_Ico_card_eq_of_periodic a p (fun t => f t = x) fun t => congrArg (· = x) (periodic t)
    have ico : Multiset.Ico a (a + p) = (List.range' a p : Multiset ℕ) := by
      change ((List.range' a (a + p - a) : List ℕ) : Multiset ℕ) = _
      rw [Nat.add_sub_cancel_left]
    rw [ico, Multiset.filter_coe, Multiset.coe_card, ← List.countP_eq_length_filter] at h
    rw [← h, List.count, List.countP_map]
    rfl
  rw [window, List.range_eq_range', window]

end SmoothWrr
