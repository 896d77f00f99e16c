import Mathlib.Data.List.Perm.Subperm
import Mathlib.Data.List.Sort
import Mathlib.Tactic.Ring

/-! The generic cell rate algorithm over a list of start times, in any unit: `T` is the emission interval and
    `tau` the tolerance. `Conforms` follows the theoretical arrival time through the list, which need not be
    sorted. What conforms in some order conforms when sorted, without some of its starts too
    (`spaced_of_conforms`), so a limiter may book out of order. -/

namespace Gcra

variable (T tau : Nat)

/-- The start at place `j` is at least `c + j T - tau`. -/
def After (c : Nat) : List Nat → Prop
  | [] => True
  | t :: ts => c ≤ t + tau ∧ After (c + T) ts

/-- The theoretical arrival time after one more start. -/
def next (c : Option Nat) (t : Nat) : Nat := c.elim t (max · t) + T

/-- The theoretical arrival time after some starts. -/
def tat (c : Option Nat) : List Nat → Option Nat
  | [] => c
  | t :: ts => tat (some (next T c t)) ts

/-- No start is earlier than the theoretical arrival time before it by more than `tau`. -/
def Conforms (c : Option Nat) : List Nat → Prop
  | [] => True
  | t :: ts => (∀ x ∈ c, x ≤ t + tau) ∧ Conforms (some (next T c t)) ts

/-- No `burst` and more starts, in order, are closer together than so many intervals less the burst. -/
def Spaced (burst : Nat) (starts : List Nat) : Prop :=
  let sorted := starts.insertionSort (· ≤ ·)
  ∀ i j (_ : i < j) (_ : j < sorted.length), ((j : Int) - i + 1 - burst) * T ≤ (sorted[j] : Int) - sorted[i]

variable {T tau}

theorem next_none {t : Nat} : next T none t = t + T := rfl

theorem next_some {c t : Nat} : next T (some c) t = max (c + T) (t + T) := by
  simp only [next, Option.elim_some]
  omega

theorem after_max {a b : Nat} {l : List Nat} : After T tau (max a b) l ↔ After T tau a l ∧ After T tau b l := by
  induction l generalizing a b with
  | nil => simp [After]
  | cons t ts ih =>
    have : max a b + T = max (a + T) (b + T) := by omega
    simp only [After, this, ih, Nat.max_le]
    tauto

theorem after_mono {a b : Nat} {l : List Nat} (hab : a ≤ b) (h : After T tau b l) : After T tau a l := by
  rw [← Nat.max_eq_right hab, after_max] at h
  exact h.1

theorem after_sublist {c : Nat} {l l' : List Nat} (hl : l.Sublist l') (h : After T tau c l') : After T tau c l := by
  induction hl generalizing c with
  | slnil => trivial
  | cons t hl ih => exact ih (after_mono (Nat.le_add_right c T) h.2)
  | cons_cons t hl ih => exact ⟨h.1, ih h.2⟩

theorem after_getElem {c : Nat} {l : List Nat} (h : After T tau c l) (j : Nat) (hj : j < l.length) :
    c + j * T ≤ l[j] + tau := by
  induction l generalizing c j with
  | nil => simp at hj
  | cons t ts ih =>
    cases j with
    | zero => simpa using h.1
    | succ j =>
      have := ih h.2 j (by simpa using hj)
      rw [List.getElem_cons_succ, Nat.succ_mul]
      omega

theorem after_of_getElem {c : Nat} {l : List Nat} (h : ∀ j (hj : j < l.length), c + j * T ≤ l[j] + tau) :
    After T tau c l := by
  induction l generalizing c with
  | nil => trivial
  | cons t ts ih =>
    have first := h 0 (by simp)
    rw [Nat.zero_mul, Nat.add_zero, List.getElem_cons_zero] at first
    refine ⟨first, ih fun j hj => ?_⟩
    have := h (j + 1) (by simpa using hj)
    rw [List.getElem_cons_succ, Nat.succ_mul] at this
    omega

theorem conforms_some {c : Nat} {l : List Nat} :
    Conforms T tau (some c) l ↔ After T tau c l ∧ Conforms T tau none l := by
  induction l generalizing c with
  | nil => simp [After, Conforms]
  | cons t ts ih =>
    simp only [Conforms, After, ih, next_some, next_none, after_max, Option.mem_def, Option.some.injEq,
      forall_eq', reduceCtorEq, false_implies, implies_true, true_and]
    tauto

theorem conforms_cons {t : Nat} {ts : List Nat} :
    Conforms T tau none (t :: ts) ↔ After T tau (t + T) ts ∧ Conforms T tau none ts := by
  simp [Conforms, conforms_some, next_none]

theorem conforms_iff {c : Option Nat} {l : List Nat} :
    Conforms T tau c l ↔ (∀ x ∈ c, After T tau x l) ∧ Conforms T tau none l := by
  cases c with
  | none => simp
  | some c => simp [conforms_some]

theorem conforms_append {c : Option Nat} {l l' : List Nat} :
    Conforms T tau c (l ++ l') ↔ Conforms T tau c l ∧ Conforms T tau (tat T c l) l' := by
  induction l generalizing c with
  | nil => simp [Conforms, tat]
  | cons t ts ih => simp only [List.cons_append, Conforms, tat, ih, and_assoc]

theorem tat_append {c : Option Nat} {l l' : List Nat} : tat T c (l ++ l') = tat T (tat T c l) l' := by
  induction l generalizing c with
  | nil => rfl
  | cons t ts ih => exact ih

/-- A start only puts the theoretical arrival time further. -/
theorem tat_append_le {c : Option Nat} {l : List Nat} (l' : List Nat) {x : Nat} (hx : x ∈ tat T c l) :
    ∃ y ∈ tat T c (l ++ l'), x ≤ y := by
  rw [tat_append]
  generalize tat T c l = c at hx
  induction l' generalizing c x with
  | nil => exact ⟨x, hx, le_rfl⟩
  | cons t ts ih =>
    rw [Option.mem_def] at hx
    obtain ⟨y, hy, le⟩ := ih (some (next T c t)) rfl
    refine ⟨y, hy, le_trans ?_ le⟩
    rw [hx, next_some]
    omega

/-- Starts that begin no earlier than the theoretical arrival time before them do not depend on it. -/
theorem tat_resume {c : Option Nat} {t : Nat} {ts : List Nat} (h : ∀ x ∈ c, x ≤ t) : tat T c (t :: ts) = tat T none (t :: ts) := by
  cases c with
  | none => rfl
  | some x => rw [tat, tat, next_some, next_none, Nat.max_eq_right (Nat.add_le_add_right (h x rfl) T)]

theorem conforms_resume {c : Option Nat} {l : List Nat} (h : ∀ x ∈ c, ∀ t ∈ l.head?, x ≤ t) :
    Conforms T tau c l ↔ Conforms T tau none l := by
  cases l with
  | nil => rfl
  | cons t ts =>
    cases c with
    | none => rfl
    | some x =>
      have le : x ≤ t := h x rfl t rfl
      rw [Conforms, Conforms, next_some, next_none, Nat.max_eq_right (Nat.add_le_add_right le T)]
      refine and_congr_left fun _ => iff_of_true ?_ nofun
      rintro y ⟨⟩
      exact Nat.le_add_right_of_le le

/-- Each start puts the theoretical arrival time at most one interval further. -/
theorem tat_le {c : Option Nat} {l : List Nat} {b : Nat} (hc : ∀ x ∈ c, x ≤ b) (hl : ∀ t ∈ l, t ≤ b) :
    ∀ x ∈ tat T c l, x ≤ b + l.length * T := by
  induction l generalizing c b with
  | nil => simpa [tat] using hc
  | cons t ts ih =>
    rw [List.forall_mem_cons] at hl
    rw [List.length_cons, Nat.succ_mul, Nat.add_comm _ T, ← Nat.add_assoc]
    refine ih ?_ fun u hu => Nat.le_add_right_of_le (hl.2 u hu)
    rintro x ⟨⟩
    refine Nat.add_le_add_right ?_ T
    cases c with
    | none => exact hl.1
    | some c => exact Nat.max_le.mpr ⟨hc c rfl, hl.1⟩

theorem conforms_sublist {c : Option Nat} {l l' : List Nat} (hl : l.Sublist l') (h : Conforms T tau c l') :
    Conforms T tau c l := by
  rw [conforms_iff] at h ⊢
  refine ⟨fun x hx => after_sublist hl (h.1 x hx), ?_⟩
  replace h := h.2
  induction hl with
  | slnil => trivial
  | cons t hl ih => exact ih (conforms_cons.mp h).2
  | cons_cons t hl ih =>
    obtain ⟨ha, hc⟩ := conforms_cons.mp h
    exact conforms_cons.mpr ⟨after_sublist hl ha, ih hc⟩

/-- One more start in the middle conforms if it keeps its distance to both sides, and the two sides still keep
    theirs with one more start between them. -/
theorem conforms_insert {c : Option Nat} {l l' : List Nat} {t : Nat} (h : Conforms T tau c (l ++ l'))
    (before : ∀ x ∈ tat T c l, x ≤ t + tau ∧ After T tau (x + T) l') (after : After T tau (t + T) l') :
    Conforms T tau c (l ++ t :: l') := by
  obtain ⟨hl, hl'⟩ := conforms_append.mp h
  refine conforms_append.mpr ⟨hl, fun x hx => (before x hx).1, conforms_some.mpr ⟨?_, (conforms_iff.mp hl').2⟩⟩
  cases hx : tat T c l with
  | none => exact after
  | some x =>
    rw [next_some, after_max]
    exact ⟨(before x hx).2, after⟩

theorem conforms_getElem {l : List Nat} (h : Conforms T tau none l) {i j : Nat} (hij : i < j) (hj : j < l.length) :
    l[i] + (j - i) * T ≤ l[j] + tau := by
  induction l generalizing i j with
  | nil => simp at hj
  | cons t ts ih =>
    obtain ⟨ha, hc⟩ := conforms_cons.mp h
    obtain ⟨j, rfl⟩ : ∃ k, j = k + 1 := ⟨j - 1, by omega⟩
    cases i with
    | zero =>
      have := after_getElem ha j (by simpa using hj)
      rw [List.getElem_cons_zero, List.getElem_cons_succ, Nat.sub_zero, Nat.succ_mul]
      omega
    | succ i =>
      rw [List.getElem_cons_succ, List.getElem_cons_succ, Nat.add_sub_add_right]
      exact ih hc (by omega) (by simpa using hj)

/-- Some of the starts of a conforming list, sorted, keep their distances. Those from the `i`th to the `j`th
    are starts of the list between two times, and there the first and the last of them are far enough apart. -/
theorem sorted_of_conforms {l u : List Nat} (h : Conforms T tau none l) (hu : u.Subperm l)
    (sorted : u.Pairwise (· ≤ ·)) {i j : Nat} (hij : i < j) (hj : j < u.length) :
    u[i] + (j - i) * T ≤ u[j] + tau := by
  set within : Nat → Bool := fun t => decide (u[i] ≤ t) && decide (t ≤ u[j]) with hwithin
  set window := l.filter within with hwindow
  have chosen : ((u.drop i).take (j - i + 1)).length = j - i + 1 := by
    rw [List.length_take, List.length_drop]
    omega
  have between : ∀ t ∈ (u.drop i).take (j - i + 1), within t := by
    intro t ht
    obtain ⟨k, hk, rfl⟩ := List.mem_iff_getElem.mp ht
    rw [chosen] at hk
    rw [List.getElem_take, List.getElem_drop]
    have hle := List.pairwise_iff_getElem.mp sorted
    have hl : u[i] ≤ u[i + k] := by
      rcases Nat.eq_zero_or_pos k with rfl | hk0
      · exact Nat.le_refl _
      · exact hle i (i + k) (by omega) (by omega) (by omega)
    have hr : u[i + k] ≤ u[j] := by
      rcases Nat.lt_or_ge (i + k) j with hlt | hge
      · exact hle (i + k) j (by omega) hj hlt
      · have : i + k = j := by omega
        simp [this]
    simp [hwithin, hl, hr]
  have length : j - i + 1 ≤ window.length := by
    have sub : ((u.drop i).take (j - i + 1)).Sublist (u.filter within) := by
      rw [← List.filter_eq_self.mpr between]
      exact ((List.take_sublist _ _).trans (List.drop_sublist _ _)).filter _
    calc j - i + 1 = ((u.drop i).take (j - i + 1)).length := chosen.symm
      _ ≤ (u.filter within).length := sub.length_le
      _ ≤ window.length := (hu.filter within).length_le
  have conforms : Conforms T tau none window := conforms_sublist List.filter_sublist h
  have apart := conforms_getElem conforms (i := 0) (j := window.length - 1) (by omega) (by omega)
  have first : u[i] ≤ window[0] := by
    have := (List.mem_filter.mp (List.getElem_mem (l := window) (n := 0) (by omega))).2
    simp only [hwithin, Bool.and_eq_true, decide_eq_true_eq] at this
    exact this.1
  have last : window[window.length - 1] ≤ u[j] := by
    have := (List.mem_filter.mp (List.getElem_mem (l := window) (n := window.length - 1) (by omega))).2
    simp only [hwithin, Bool.and_eq_true, decide_eq_true_eq] at this
    exact this.2
  have fewer : (j - i) * T ≤ (window.length - 1 - 0) * T := Nat.mul_le_mul_right T (by omega)
  omega

/-- The distance of the algorithm, in terms of the burst. -/
theorem spaced_of_le {i j burst first last : Nat} (hij : i < j) (hburst : 0 < burst)
    (apart : first + (j - i) * T ≤ last + tau) (htau : tau ≤ T * (burst - 1)) :
    ((j : Int) - i + 1 - burst) * T ≤ (last : Int) - first := by
  obtain ⟨d, rfl⟩ := Nat.exists_eq_add_of_lt hij
  obtain ⟨e, rfl⟩ := Nat.exists_eq_add_of_lt hburst
  rw [show i + d + 1 - i = d + 1 by omega] at apart
  have step : ((i + d + 1 : Nat) - i + 1 - (0 + e + 1 : Nat) : Int) * T =
      ((d + 1) * T : Nat) - (T * (0 + e + 1 - 1) : Nat) := by
    simp only [Nat.zero_add, Nat.add_sub_cancel]
    push_cast
    ring
  rw [step]
  omega

theorem spaced_of_conforms {l u : List Nat} {burst : Nat} (h : Conforms T tau none l) (hu : u.Subperm l)
    (hburst : 0 < burst) (htau : tau ≤ T * (burst - 1)) : Spaced T burst u := by
  intro i j hij hj
  have sub := (List.perm_insertionSort (· ≤ ·) u).subperm.trans hu
  exact spaced_of_le hij hburst (sorted_of_conforms h sub (List.pairwise_insertionSort (· ≤ ·) u) hij hj) htau

end Gcra
