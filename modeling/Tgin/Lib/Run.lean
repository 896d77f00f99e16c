import Mathlib.Tactic.Common

/-! Machines that take one input at a time and answer each. Two machines whose states are related after
    every input give the same answers over a whole run. -/

namespace Run
variable {I O S S' : Type}

/-- The answers to a list of inputs and the state after them. -/
def run (step : I → S → O × S) : List I → S → List O × S
  | [], s => ([], s)
  | i :: is, s =>
    let (o, s) := step i s
    let (os, s) := run step is s
    (o :: os, s)

variable {step : I → S → O × S} {step' : I → S' → O × S'}

@[simp] theorem run_nil (s : S) : run step [] s = ([], s) := rfl

theorem run_cons (i : I) (is : List I) (s : S) :
    run step (i :: is) s = ((step i s).1 :: (run step is (step i s).2).1, (run step is (step i s).2).2) := rfl

theorem run_append (is is' : List I) (s : S) :
    run step (is ++ is') s =
      ((run step is s).1 ++ (run step is' (run step is s).2).1, (run step is' (run step is s).2).2) := by
  induction is generalizing s with
  | nil => rfl
  | cons i is ih => simp only [List.cons_append, run_cons, ih]

/-- A property every input preserves holds after every run. -/
theorem run_invariant {P : S → Prop} (preserved : ∀ i s, P s → P (step i s).2) (is : List I) {s : S} (h : P s) :
    P (run step is s).2 := by
  induction is generalizing s with
  | nil => exact h
  | cons i is ih => exact ih (preserved i s h)

/-- A property that the inputs allowed preserve holds after every run of such inputs. -/
theorem run_invariant_of {P : S → Prop} {ok : I → Prop} (preserved : ∀ i s, ok i → P s → P (step i s).2) {is : List I}
    (his : ∀ i ∈ is, ok i) {s : S} (h : P s) : P (run step is s).2 := by
  induction is generalizing s with
  | nil => exact h
  | cons i is ih =>
    rw [List.forall_mem_cons] at his
    exact ih his.2 (preserved i s his.1 h)

/-- Related machines answer alike and stay related. -/
theorem run_simulates {R : S → S' → Prop}
    (simulates : ∀ i s s', R s s' → (step i s).1 = (step' i s').1 ∧ R (step i s).2 (step' i s').2)
    (is : List I) {s : S} {s' : S'} (h : R s s') :
    (run step is s).1 = (run step' is s').1 ∧ R (run step is s).2 (run step' is s').2 := by
  induction is generalizing s s' with
  | nil => exact ⟨rfl, h⟩
  | cons i is ih =>
    obtain ⟨ho, hs⟩ := simulates i s s' h
    obtain ⟨hos, hs⟩ := ih hs
    exact ⟨by simp only [run_cons, ho, hos], hs⟩

end Run
