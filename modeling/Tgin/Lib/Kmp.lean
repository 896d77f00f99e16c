import Mathlib.Data.List.Infix

/-! Searching a pattern in a text read one element at a time. `Longest p t k` says that the text ends with the first `k`
    of the pattern and with no more of them; the next element is tried against the candidates from the longest down. The
    table of a pattern's own borders is the same search, of the pattern in its own prefixes. -/

namespace Kmp
variable {α : Type} {p t : List α} {a : α} {k : Nat}

/-- The text ends with the first `k` of the pattern. -/
def Border (p t : List α) (k : Nat) : Prop := k ≤ p.length ∧ p.take k <:+ t

structure Longest (p t : List α) (k : Nat) : Prop where
  border : Border p t k
  le : ∀ {j : Nat}, Border p t j → j ≤ k

/-- A border that may be the one that `a` extends: no longer one is. -/
structure Candidate (p t : List α) (a : α) (k : Nat) : Prop where
  border : Border p t k
  le : ∀ {j : Nat}, Border p (t ++ [a]) (j + 1) → j ≤ k

theorem border_zero (p t : List α) : Border p t 0 := ⟨Nat.zero_le _, List.nil_suffix⟩

theorem border_succ_iff : Border p (t ++ [a]) (k + 1) ↔ p[k]? = some a ∧ Border p t k := by
  have inj (b : α) : p.take k ++ [b] <:+ t ++ [a] ↔ b = a ∧ p.take k <:+ t := by
    rw [List.suffix_concat_iff]
    constructor
    · rintro (heq | ⟨_, heq, hs⟩)
      · exact absurd heq (by simp)
      · obtain ⟨rfl, hb⟩ := List.append_inj' heq rfl
        exact ⟨List.singleton_inj.mp hb, hs⟩
    · rintro ⟨rfl, hs⟩
      exact .inr ⟨_, rfl, hs⟩
  constructor
  · rintro ⟨hk, hs⟩
    rw [List.take_add_one, List.getElem?_eq_getElem hk, Option.toList_some, inj] at hs
    exact ⟨(List.getElem?_eq_getElem hk).trans (congrArg some hs.1), Nat.le_of_lt hk, hs.2⟩
  · rintro ⟨ha, -, hs⟩
    refine ⟨(List.getElem?_eq_some_iff.mp ha).1, ?_⟩
    rw [List.take_add_one, ha, Option.toList_some, inj]
    exact ⟨rfl, hs⟩

/-- The shorter of two borders is one of the longer. -/
theorem Border.within {j : Nat} (hj : Border p t j) (hk : Border p t k) (h : j < k) : Border p (p.take k).tail j := by
  refine ⟨hj.1, List.suffix_of_suffix_length_le hj.2 ((List.tail_suffix _).trans hk.2) ?_⟩
  rw [List.length_tail, List.length_take, List.length_take, Nat.min_eq_left hj.1, Nat.min_eq_left hk.1]
  exact Nat.le_sub_one_of_lt h

theorem Border.trans {j : Nat} (hj : Border p (p.take k).tail j) (hk : Border p t k) : Border p t j :=
  ⟨hj.1, hj.2.trans ((List.tail_suffix _).trans hk.2)⟩

theorem longest_nil (p : List α) : Longest p [] 0 := by
  refine ⟨border_zero p [], fun {j} h => ?_⟩
  have := h.2.length_le
  rw [List.length_take, Nat.min_eq_left h.1] at this
  exact this

/-- A beginning of the pattern ends with itself. -/
theorem longest_take (hk : k ≤ p.length) : Longest p (p.take k) k := by
  refine ⟨⟨hk, List.suffix_rfl⟩, fun {j} h => ?_⟩
  have := h.2.length_le
  rwa [List.length_take, List.length_take, Nat.min_eq_left h.1, Nat.min_eq_left hk] at this

/-- The search starts from the longest border. -/
theorem Longest.candidate (h : Longest p t k) (a : α) : Candidate p t a k :=
  ⟨h.border, fun hj => h.le (border_succ_iff.mp hj).2⟩

theorem Candidate.hit (h : Candidate p t a k) (ha : p[k]? = some a) : Longest p (t ++ [a]) (k + 1) := by
  refine ⟨border_succ_iff.mpr ⟨ha, h.border⟩, fun {j} hj => ?_⟩
  cases j with
  | zero => exact Nat.zero_le _
  | succ j => exact Nat.succ_le_succ (h.le hj)

theorem Candidate.miss (h : Candidate p t a 0) (ha : p[0]? ≠ some a) : Longest p (t ++ [a]) 0 := by
  refine ⟨border_zero p _, fun {j} hj => ?_⟩
  cases j with
  | zero => exact Nat.le_refl _
  | succ j =>
    obtain rfl : j = 0 := Nat.le_zero.mp (h.le hj)
    exact absurd (border_succ_iff.mp hj).1 ha

/-- The next candidate is the longest border of the one that failed. -/
theorem Candidate.fall {f : Nat} (h : Candidate p t a k) (ha : p[k]? ≠ some a) (hf : Longest p (p.take k).tail f) :
    Candidate p t a f := by
  refine ⟨hf.border.trans h.border, fun {j} hj => ?_⟩
  obtain ⟨hja, hjb⟩ := border_succ_iff.mp hj
  rcases Nat.lt_or_eq_of_le (h.le hj) with lt | rfl
  · exact hf.le (hjb.within h.border lt)
  · exact absurd hja ha

/-- What a failed candidate gives up, before its longest border. -/
theorem Longest.split {f : Nat} (hf : Longest p (p.take k).tail f) (hk : k ≤ p.length) :
    p.take k = p.take (k - f) ++ p.take f := by
  obtain ⟨front, hfront⟩ := hf.border.2.trans (List.tail_suffix _)
  have length : front.length = k - f := by
    have := congrArg List.length hfront
    rw [List.length_append, List.length_take, List.length_take, Nat.min_eq_left hf.border.1, Nat.min_eq_left hk] at this
    exact Nat.eq_sub_of_add_eq this
  have front_eq : front = p.take (k - f) := by
    have := congrArg (List.take (k - f)) hfront
    rwa [← length, List.take_left, List.take_take, length, Nat.min_eq_left (Nat.sub_le ..)] at this
  rw [← front_eq, hfront]

theorem Longest.lt {f : Nat} (hf : Longest p (p.take k).tail f) (hk : 0 < k) : f < k := by
  have := hf.border.2.length_le
  rw [List.length_take, Nat.min_eq_left hf.border.1, List.length_tail, List.length_take] at this
  have := Nat.min_le_left k p.length
  omega

/-! ### Occurrences -/

/-- The whole pattern ends the text. -/
theorem Longest.eq_length_iff (h : Longest p t k) : k = p.length ↔ p <:+ t := by
  constructor
  · rintro rfl
    simpa using h.border.2
  · intro hs
    exact Nat.le_antisymm h.border.1 (h.le ⟨Nat.le_refl _, by simpa using hs⟩)

/-- The pattern is first found after the first `i` of the text. -/
def Leftmost (p t : List α) (i : Nat) : Prop := p <+: t.drop i ∧ ∀ j < i, ¬p <+: t.drop j

theorem Leftmost.take {i n : Nat} (h : Leftmost p t i) (hn : n ≤ p.length) : t.take (i + n) = t.take i ++ p.take n := by
  obtain ⟨back, hback⟩ := h.1
  rw [List.take_add, ← hback, List.take_append_of_le_length hn]

/-- It is not found before. -/
theorem Leftmost.not_infix {i n : Nat} (h : Leftmost p t i) (hn : n < i + p.length) : ¬p <:+: t.take n := by
  rintro ⟨front, back, heq⟩
  have length := congrArg List.length heq
  rw [List.length_append, List.length_append, List.length_take] at length
  have whole : front ++ (p ++ (back ++ t.drop n)) = t := by
    rw [← List.append_assoc p, ← List.append_assoc front, ← List.append_assoc front, heq, List.take_append_drop]
  refine h.2 front.length (by omega) ⟨back ++ t.drop n, ?_⟩
  calc
    p ++ (back ++ t.drop n) = (front ++ (p ++ (back ++ t.drop n))).drop front.length := List.drop_left.symm
    _ = t.drop front.length := by rw [whole]

/-- An occurrence that ends within a text is one of it. -/
theorem prefix_drop_append {j : Nat} (h : j + p.length ≤ t.length) (u : List α) : p <+: (t ++ u).drop j ↔ p <+: t.drop j := by
  rw [List.drop_append_of_le_length (by omega)]
  constructor
  · intro found
    refine List.prefix_of_prefix_length_le found (List.prefix_append ..) ?_
    rw [List.length_drop]
    omega
  · exact fun found => found.trans (List.prefix_append ..)

theorem infix_of_prefix_drop {j : Nat} (h : p <+: t.drop j) : p <:+: t := h.isInfix.trans (List.drop_suffix j t).isInfix

/-- What follows a text does not change where the pattern is first found in it. -/
theorem Leftmost.append {i : Nat} (h : Leftmost p t i) (u : List α) (hi : i + p.length ≤ t.length) : Leftmost p (t ++ u) i := by
  refine ⟨(prefix_drop_append hi u).mpr h.1, fun j hj found => h.2 j hj ?_⟩
  exact (prefix_drop_append (by omega) u).mp found

/-- It is found where a text first ends with it. -/
theorem leftmost_concat {front : List α} (absent : ¬p <:+: t) (h : front ++ p = t ++ [a]) : Leftmost p (t ++ [a]) front.length := by
  refine ⟨?_, fun j hj found => absent ?_⟩
  · rw [← h, List.drop_left]
  · have length := congrArg List.length h
    rw [List.length_append, List.length_append, List.length_singleton] at length
    exact infix_of_prefix_drop ((prefix_drop_append (by omega) [a]).mp found)

theorem Leftmost.eq {i j : Nat} (hi : Leftmost p t i) (hj : Leftmost p t j) : i = j := by
  rcases Nat.lt_trichotomy i j with lt | rfl | lt
  · exact absurd hi.1 (hj.2 i lt)
  · rfl
  · exact absurd hj.1 (hi.2 j lt)

end Kmp
