import Mathlib.Data.List.Basic

/-! Runs of covered places in a list, each of which a mask takes the place of. -/

namespace Runs

variable {α : Type}

/-- The list from place `n` on with each run of covered places as one mask; `inside` is whether the place before is covered. -/
def masked (mask : List α) (covered : Nat → Bool) : (n : Nat) → (inside : Bool) → List α → List α
  | _, _, [] => []
  | n, inside, a :: rest =>
    if covered n then (if inside then [] else mask) ++ masked mask covered (n + 1) true rest
    else a :: masked mask covered (n + 1) false rest

/-- Whether a place is in one of the spans, each of them its start and its end. -/
def within (spans : List (Nat × Nat)) (n : Nat) : Bool := spans.any fun span => span.1 ≤ n && n < span.2

section
variable {mask gap run rest l : List α} {covered covered' : Nat → Bool} {n : Nat} {inside : Bool}

theorem masked_congr (h : ∀ i, n ≤ i → covered i = covered' i) : masked mask covered n inside l = masked mask covered' n inside l := by
  induction l generalizing n inside with
  | nil => rfl
  | cons a l ih =>
    have rest (inside : Bool) : masked mask covered (n + 1) inside l = masked mask covered' (n + 1) inside l :=
      ih fun i hi => h i (Nat.le_of_succ_le hi)
    rw [masked, masked, h n (Nat.le_refl n), rest, rest]

/-- A gap is kept, and ends a run before it. -/
theorem masked_gap (h : ∀ i, n ≤ i → i < n + gap.length → covered i = false) (first : gap ≠ [] ∨ inside = false) (rest : List α) :
    masked mask covered n inside (gap ++ rest) = gap ++ masked mask covered (n + gap.length) false rest := by
  induction gap generalizing n inside with
  | nil =>
    obtain rfl := first.resolve_left fun ne => ne rfl
    rfl
  | cons a gap ih =>
    have here := h n (Nat.le_refl n) (by simp)
    have next : masked mask covered (n + 1) false (gap ++ rest) = gap ++ masked mask covered (n + 1 + gap.length) false rest :=
      ih (fun i hi lt => h i (Nat.le_of_succ_le hi) (by simp at lt ⊢; omega)) (.inr rfl)
    rw [List.cons_append, masked, here, if_neg Bool.false_ne_true, next, List.length_cons, Nat.add_right_comm, Nat.add_assoc]
    rfl

/-- Of a run there is one mask, where it begins. -/
theorem masked_run (h : ∀ i, n ≤ i → i < n + run.length → covered i = true) (ne : run ≠ []) (inside : Bool) (rest : List α) :
    masked mask covered n inside (run ++ rest) =
      (if inside then [] else mask) ++ masked mask covered (n + run.length) true rest := by
  induction run generalizing n inside with
  | nil => exact absurd rfl ne
  | cons a run ih =>
    have here := h n (Nat.le_refl n) (by simp)
    rw [List.cons_append, masked, here, if_pos rfl]
    congr 1
    by_cases last : run = []
    · subst last
      rfl
    · have next := ih (n := n + 1) (fun i hi lt => h i (Nat.le_of_succ_le hi) (by simp at lt ⊢; omega)) last true
      rw [next, if_pos rfl, List.nil_append, List.length_cons, Nat.add_right_comm, Nat.add_assoc]

/-- Without covered places a list is as it was. -/
theorem masked_none (h : ∀ i, n ≤ i → covered i = false) (inside : Bool) (l : List α) : masked mask covered n inside l = l := by
  cases l with
  | nil => rfl
  | cons a l =>
    have whole : masked mask covered n inside (a :: l ++ []) = _ := masked_gap (fun i hi _ => h i hi) (.inl (List.cons_ne_nil a l)) []
    rwa [List.append_nil, masked, List.append_nil] at whole

theorem within_iff {spans : List (Nat × Nat)} : within spans n = true ↔ ∃ span ∈ spans, span.1 ≤ n ∧ n < span.2 := by
  simp [within]

theorem within_cons {span : Nat × Nat} {spans : List (Nat × Nat)} :
    within (span :: spans) n = true ↔ (span.1 ≤ n ∧ n < span.2) ∨ within spans n = true := by
  simp [within]

end

end Runs
