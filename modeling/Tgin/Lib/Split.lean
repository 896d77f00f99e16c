import Mathlib.Data.List.DropRight

/-! A list cut at an element, and what is left of it once its ends are trimmed. -/

namespace Split

variable {α : Type} [DecidableEq α]

/-- What stands before the first `a`, and what after it. -/
def once (a : α) : List α → Option (List α × List α)
  | [] => none
  | b :: l => if b = a then some ([], l) else (once a l).map fun (left, right) => (b :: left, right)

/-- What is left of a list that begins with another. -/
def strip (start l : List α) : Option (List α) := if start.isPrefixOf l then some (l.drop start.length) else none

/-- The list without the elements at its ends that match `p`. -/
def trim (p : α → Bool) (l : List α) : List α := (l.dropWhile p).rdropWhile p

/-- `core` between elements that match `p`. -/
def Padded (p : α → Bool) (core l : List α) : Prop :=
  ∃ left right, l = left ++ core ++ right ∧ (∀ a ∈ left, p a) ∧ ∀ a ∈ right, p a

section
variable {a : α} {l left right : List α}

theorem once_eq_none : once a l = none ↔ a ∉ l := by
  induction l with
  | nil => exact ⟨fun _ => List.not_mem_nil, fun _ => rfl⟩
  | cons b l ih =>
    rw [once]
    by_cases hb : b = a
    · subst hb
      rw [if_pos rfl]
      exact ⟨nofun, fun h => absurd List.mem_cons_self h⟩
    · rw [if_neg hb, Option.map_eq_none_iff, ih, List.mem_cons, not_or]
      exact ⟨fun h => ⟨Ne.symm hb, h⟩, And.right⟩

theorem once_eq_some : once a l = some (left, right) ↔ l = left ++ a :: right ∧ a ∉ left := by
  induction l generalizing left with
  | nil => exact ⟨nofun, fun ⟨h, _⟩ => absurd h.symm (List.append_ne_nil_of_right_ne_nil _ (List.cons_ne_nil _ _))⟩
  | cons b l ih =>
    rw [once]
    by_cases hb : b = a
    · subst hb
      rw [if_pos rfl]
      constructor
      · rintro ⟨⟩
        exact ⟨rfl, List.not_mem_nil⟩
      · rintro ⟨eq, absent⟩
        cases left with
        | nil =>
          cases eq
          rfl
        | cons c left =>
          cases eq
          exact absurd List.mem_cons_self absent
    · rw [if_neg hb, Option.map_eq_some_iff]
      constructor
      · rintro ⟨⟨before, after⟩, cut, ⟨⟩⟩
        obtain ⟨rfl, absent⟩ := ih.mp cut
        exact ⟨rfl, fun mem => (List.mem_cons.mp mem).elim (fun h => hb h.symm) absent⟩
      · rintro ⟨eq, absent⟩
        cases left with
        | nil =>
          cases eq
          exact absurd rfl hb
        | cons c left =>
          cases eq
          exact ⟨(left, right), ih.mpr ⟨rfl, fun mem => absent (List.mem_cons_of_mem _ mem)⟩, rfl⟩

theorem strip_eq_some {start rest : List α} : strip start l = some rest ↔ l = start ++ rest := by
  unfold strip
  split
  · rename_i h
    obtain ⟨tail, rfl⟩ := List.isPrefixOf_iff_prefix.mp h
    rw [List.drop_left, Option.some.injEq, List.append_cancel_left_eq]
  · rename_i h
    refine iff_of_false nofun ?_
    rintro rfl
    exact h (List.isPrefixOf_iff_prefix.mpr (List.prefix_append ..))

/-- The first `a` is found where what stands before it ends. -/
theorem findIdx?_eq (a : α) (l : List α) : l.findIdx? (· = a) = (once a l).map fun parts => parts.1.length := by
  induction l with
  | nil => rfl
  | cons b l ih =>
    rw [List.findIdx?_cons, once]
    by_cases hb : b = a
    · subst hb
      rw [if_pos rfl, if_pos (decide_eq_true rfl)]
      rfl
    · rw [if_neg hb, if_neg (by simpa using hb), ih, Option.map_map, Option.map_map]
      rfl

theorem once_append (absent : a ∉ left) : once a (left ++ a :: right) = some (left, right) := once_eq_some.mpr ⟨rfl, absent⟩

theorem once_past (absent : a ∉ left) (l : List α) : once a (left ++ l) = (once a l).map fun parts => (left ++ parts.1, parts.2) := by
  induction left with
  | nil => exact Option.map_id'.symm
  | cons b left ih =>
    obtain ⟨ne, others⟩ := not_or.mp (mt List.mem_cons.mpr absent)
    rw [List.cons_append, once, if_neg (Ne.symm ne), ih others, Option.map_map]
    rfl

end

section
variable {p : α → Bool} {core l : List α}

omit [DecidableEq α] in
theorem padded_trim (p : α → Bool) (l : List α) : Padded p (trim p l) l := by
  refine ⟨l.takeWhile p, (l.dropWhile p).rtakeWhile p, ?_, fun a => List.mem_takeWhile_imp, fun a => List.mem_rtakeWhile_imp⟩
  rw [trim, List.append_assoc, List.rdropWhile_append_rtakeWhile, List.takeWhile_append_dropWhile]

omit [DecidableEq α] in
/-- Trimming leaves what is nowhere to be trimmed. -/
theorem Padded.trim_eq (h : Padded p core l) (solid : ∀ a ∈ core, p a = false) : trim p l = core := by
  obtain ⟨left, right, rfl, hl, hr⟩ := h
  have ends {l r : List α} (hr : ∀ a ∈ r, p a) (solid : ∀ a ∈ l, p a = false) : (l ++ r).rdropWhile p = l := by
    rw [List.rdropWhile, List.reverse_append, List.dropWhile_append_of_pos fun a ha => hr a (List.mem_reverse.mp ha)]
    cases eq : l.reverse with
    | nil => rw [List.dropWhile_nil, List.reverse_nil, ← List.reverse_eq_nil_iff.mp eq]
    | cons b rest =>
      have first : p b = false := solid b (List.mem_reverse.mp (eq ▸ List.mem_cons_self))
      rw [List.dropWhile_cons_of_neg (by rw [first]; exact Bool.false_ne_true), ← eq, List.reverse_reverse]
  rw [trim, List.append_assoc, List.dropWhile_append_of_pos hl]
  cases core with
  | nil =>
    rw [List.nil_append, show right.dropWhile p = [] from List.dropWhile_eq_nil_iff.mpr hr]
    rfl
  | cons b rest =>
    rw [List.cons_append, List.dropWhile_cons_of_neg (by rw [solid b List.mem_cons_self]; exact Bool.false_ne_true), ← List.cons_append]
    exact ends hr solid

end

/-! ### Lines -/

/-- The parts of a list, each up to and with an `a`, but for the last. -/
def lines (a : α) : List α → List (List α)
  | [] => []
  | b :: l =>
    if b = a then [b] :: lines a l
    else
      match lines a l with
      | [] => [[b]]
      | first :: rest => (b :: first) :: rest

section
variable {a : α} {left : List α}

/-- Cutting into lines loses nothing. -/
theorem flatten_lines (a : α) (l : List α) : (lines a l).flatten = l := by
  induction l with
  | nil => rfl
  | cons b l ih =>
    rw [lines]
    split
    · rw [List.flatten_cons, ih, List.singleton_append]
    · split
      · rename_i none
        rw [none] at ih
        rw [← ih]
        rfl
      · rename_i first rest some
        rw [some] at ih
        rw [← ih]
        rfl

theorem lines_append (a : α) (left right : List α) : lines a (left ++ a :: right) = lines a (left ++ [a]) ++ lines a right := by
  have ends : lines a [a] = [[a]] := by rw [lines, if_pos rfl, lines]
  induction left with
  | nil => rw [List.nil_append, List.nil_append, ends, lines, if_pos rfl, List.singleton_append]
  | cons b left ih =>
    rw [List.cons_append, List.cons_append, lines, lines, ih]
    by_cases hb : b = a
    · rw [if_pos hb, if_pos hb, List.cons_append]
    · rw [if_neg hb, if_neg hb]
      have ne : lines a (left ++ [a]) ≠ [] := by
        cases left with
        | nil =>
          rw [List.nil_append, ends]
          exact List.cons_ne_nil _ _
        | cons c left =>
          rw [List.cons_append, lines]
          split
          · exact List.cons_ne_nil _ _
          · split <;> exact List.cons_ne_nil _ _
      obtain ⟨first, rest, eq⟩ := List.exists_cons_of_ne_nil ne
      rw [eq]
      rfl

end

end Split
