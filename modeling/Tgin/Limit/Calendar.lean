import Mathlib.Order.MinMax
import Tgin.Limit
import Tgin.Lib.Gcra

/-! The slot calendar books within its quota: what it has charged, folded in or not, conforms to the quota in
    the order folded in first, then by instant (`Charged`), and so conforms when sorted, without some of it too.
    The search for a free instant follows the theoretical arrival time before each position, and its `i128`
    never saturates. -/

namespace Tgin.Limit
open Gcra

/-! ### Quotas -/

/-- What `Quota.new` promises of a quota. -/
structure Quota.WellFormed (quota : Quota) : Prop where
  interval_pos : 0 < quota.interval
  interval_le : quota.interval ≤ Duration.MAX
  tolerance_le : quota.tolerance ≤ Duration.MAX

section
variable {count burst : NonZeroU32} {per T : Duration} {quota : Quota}

theorem interval_bounds (h : interval count per = .ok T) : 0 < T ∧ T ≤ Duration.MAX := by
  unfold interval at h
  split at h
  · cases h
  · rename_i hper
    cases h
    split
    · rename_i exact
      simp only [Duration.checkedMul, Option.ite_none_right_eq_some, Option.some.injEq] at exact
      have ne : per / count.1 ≠ 0 := fun h0 => hper (by rw [← exact.2, h0, Nat.zero_mul])
      exact ⟨Nat.pos_of_ne_zero ne, Nat.le_trans (Nat.le_mul_of_pos_right _ count.2.1) exact.1⟩
    · exact ⟨Nat.lt_min.mpr ⟨Nat.succ_pos _, by decide⟩, Nat.min_le_right _ _⟩

/-- The interval is rounded up: `count` of them take at least the period. -/
theorem per_le_interval_mul (h : interval count per = .ok T) (hper : per ≤ Duration.MAX) : per ≤ T * count.1 := by
  have hcount := count.2.1
  unfold interval at h
  split at h
  · cases h
  · cases h
    split
    · rename_i exact
      simp only [Duration.checkedMul, Option.ite_none_right_eq_some, Option.some.injEq] at exact
      exact Nat.le_of_eq exact.2.symm
    · rename_i inexact
      have le : per / count.1 * count.1 ≤ per := Nat.div_mul_le_self _ _
      have ne : per / count.1 * count.1 ≠ per := fun h =>
        inexact (by rw [Duration.checkedMul, if_pos (Nat.le_trans le hper), h])
      have below : per / count.1 + 1 ≤ Duration.MAX :=
        calc per / count.1 + 1 ≤ per / count.1 * count.1 + 1 := Nat.succ_le_succ (Nat.le_mul_of_pos_right _ hcount)
          _ ≤ per := Nat.lt_of_le_of_ne le ne
          _ ≤ Duration.MAX := hper
      rw [Duration.saturatingAdd, Nat.min_eq_left below]
      exact Nat.le_of_lt (Nat.lt_mul_of_div_lt (Nat.lt_succ_self (per / count.1)) hcount)

theorem Quota.new_eq_ok (h : Quota.new count per burst = .ok quota) :
    Limit.interval count per = .ok quota.interval ∧
      quota.tolerance = (Duration.checkedMul quota.interval (burst.1 - 1)).getD Duration.MAX := by
  unfold Quota.new at h
  cases hi : Limit.interval count per with
  | error e => rw [hi] at h; cases h
  | ok interval =>
    rw [hi] at h
    cases h
    exact ⟨rfl, rfl⟩

theorem Quota.new_wellFormed (h : Quota.new count per burst = .ok quota) : quota.WellFormed := by
  obtain ⟨hi, ht⟩ := Quota.new_eq_ok h
  obtain ⟨pos, le⟩ := interval_bounds hi
  refine ⟨pos, le, ?_⟩
  rw [ht, Duration.checkedMul]
  split
  · assumption
  · exact Nat.le_refl _

theorem Quota.new_tolerance_le (h : Quota.new count per burst = .ok quota) :
    quota.tolerance ≤ quota.interval * (burst.1 - 1) := by
  rw [(Quota.new_eq_ok h).2, Duration.checkedMul]
  split
  · exact Nat.le_refl _
  · rename_i above
    exact Nat.le_of_not_ge above

end

/-! ### `partition_point` -/

section
variable {slots : List Instant} {pred : Instant → Bool} {p : Nat}

theorem partitionPoint_le : partitionPoint slots pred ≤ slots.length :=
  (List.takeWhile_sublist _).length_le

theorem of_mem_take_partitionPoint : ∀ t ∈ slots.take (partitionPoint slots pred), pred t = true := by
  rw [partitionPoint, ← List.prefix_iff_eq_take.mp (List.takeWhile_prefix pred)]
  exact List.all_eq_true.mp List.all_takeWhile

theorem of_mem_getElem?_partitionPoint : ∀ t ∈ slots[partitionPoint slots pred]?, pred t = false := by
  intro t ht
  induction slots with
  | nil => simp at ht
  | cons slot slots ih =>
    cases h : pred slot with
    | true =>
      rw [partitionPoint, List.takeWhile_cons_of_pos h, List.length_cons, List.getElem?_cons_succ] at ht
      exact ih ht
    | false =>
      rw [partitionPoint, List.takeWhile_cons_of_neg (by simp [h])] at ht
      cases ht
      exact h

theorem partitionPoint_eq (hp : p ≤ slots.length) (before : ∀ t ∈ slots.take p, pred t = true)
    (after : ∀ t ∈ slots[p]?, pred t = false) : partitionPoint slots pred = p := by
  have rest : (slots.drop p).takeWhile pred = [] := by
    cases h : slots.drop p with
    | nil => rfl
    | cons t ts =>
      have : slots[p]? = some t := by rw [← List.head?_drop, h, List.head?_cons]
      rw [List.takeWhile_cons_of_neg (by simp [after t this])]
  rw [partitionPoint, ← List.take_append_drop p slots, List.takeWhile_append_of_pos before, rest,
    List.append_nil, List.length_take, Nat.min_eq_left hp]

end

theorem insertIdx_eq {α : Type} {l : List α} {i : Nat} (hi : i ≤ l.length) (a : α) :
    l.insertIdx i a = l.take i ++ a :: l.drop i := by
  induction i generalizing l with
  | zero => simp
  | succ i ih =>
    cases l with
    | nil => simp at hi
    | cons b l => simp [List.insertIdx_succ_cons, ih (by simpa using hi)]

theorem sublist_insertIdx {α : Type} {l : List α} {i : Nat} (hi : i ≤ l.length) (a : α) : l.Sublist (l.insertIdx i a) := by
  have sub := (List.sublist_cons_self a (l.drop i)).append_left (l.take i)
  rwa [List.take_append_drop, ← insertIdx_eq hi] at sub

/-! ### The search for a free instant -/

namespace I128
variable {a b : Int}

theorem saturatingAdd_eq (lo : -2 ^ 126 ≤ a + b) (hi : a + b ≤ 2 ^ 126) : saturatingAdd a b = a + b := by
  simp only [saturatingAdd, saturate, MIN, MAX]
  omega

theorem saturatingSub_eq (lo : -2 ^ 126 ≤ a - b) (hi : a - b ≤ 2 ^ 126) : saturatingSub a b = a - b := by
  simp only [saturatingSub, saturate, MIN, MAX]
  omega

theorem saturatingMul_eq {n m : Nat} (h : n * m ≤ 2 ^ 126) : saturatingMul n m = (n * m : Nat) := by
  simp only [saturatingMul, saturate, MIN, MAX]
  omega

theorem ofNat_eq {n : Nat} (h : n ≤ 2 ^ 126) : ofNat n = n := by
  simp only [ofNat, MAX]
  omega

end I128

/-- The calendar's bookings conform to its quota. -/
structure Calendar.WellFormed (quota : Quota) (state : Calendar) : Prop where
  sorted : state.slots.Pairwise (· ≤ ·)
  slots_le : ∀ t ∈ state.slots, t ≤ Instant.LAST
  floor_le : ∀ x ∈ state.floor, x ≤ Instant.LAST
  conforms : Conforms quota.interval quota.tolerance state.floor state.slots

namespace SlotCalendar

/-- What `earliest` computes before its loop, without saturation. -/
def Search.exact (quota : Quota) (slots : List Instant) (start origin : Instant) : Search where
  interval := quota.interval
  tolerance := quota.tolerance
  offsets := slots.map fun t : Nat => (t : Int) - origin
  s := slots.mapIdx fun k (t : Nat) => (t : Int) - origin - (k * quota.interval : Nat)
  first := partitionPoint slots (· ≤ start)
  start := (start : Int) - origin

/-- The largest `s` before position `p`, the floor's among them. -/
def Search.prefixMax (search : Search) (floor : Option Int) (p : Nat) : Option Int :=
  (search.s.take p ++ floor.toList).max?

section
variable {quota : Quota} {state : Calendar} {start origin : Instant} {search : Search} {p : Nat}

theorem Search.prefixMax_succ {floor : Option Int} {here : Int} (h : search.s[p]? = some here) :
    search.prefixMax floor (p + 1) = some ((search.prefixMax floor p).elim here (max · here)) := by
  unfold Search.prefixMax
  rw [List.take_add_one, h, Option.toList_some, List.max?_eq_some_iff]
  cases hm : (search.s.take p ++ floor.toList).max? with
  | none =>
    rw [List.max?_eq_none_iff, List.append_eq_nil_iff] at hm
    simp [hm]
  | some m =>
    obtain ⟨hmem, hle⟩ := List.max?_eq_some_iff.mp hm
    simp only [Option.elim_some, List.mem_append, List.mem_singleton] at hmem hle ⊢
    refine ⟨?_, fun b hb => ?_⟩
    · rcases max_choice m here with hc | hc <;> rw [hc] <;> tauto
    · rcases hb with (hb | rfl) | hb
      · exact le_max_of_le_left (hle b (.inl hb))
      · exact le_max_right _ _
      · exact le_max_of_le_left (hle b (.inr hb))

/-- The loop stops at a position where the booking fits. -/
theorem Search.loop_eq_some {floor : Option Int} {fuel : Nat} {lower : Int} (hp : p + fuel ≤ search.s.length + 1)
    (h : search.loop fuel p (search.prefixMax floor p) = some lower) :
    ∃ q, p ≤ q ∧ q ≤ search.s.length ∧ search.fits q (search.prefixMax floor q) = some lower := by
  induction fuel generalizing p with
  | zero => cases h
  | succ fuel ih =>
    unfold Search.loop at h
    split at h
    · rename_i found
      cases h
      exact ⟨p, Nat.le_refl p, by omega, found⟩
    · cases hs : search.s[p]? with
      | none =>
        have : fuel = 0 := by
          have := List.getElem?_eq_none_iff.mp hs
          omega
        subst this
        cases h
      | some here =>
        simp only [hs] at h
        rw [← Search.prefixMax_succ hs] at h
        obtain ⟨q, hpq, hq, found⟩ := ih (by omega) h
        exact ⟨q, by omega, hq, found⟩

/-- The largest `s` before a position is the theoretical arrival time there, shifted back. -/
theorem Search.prefixMax_exact (floor : Option Instant) (slots : List Instant) (hp : p ≤ slots.length) :
    (Search.exact quota slots start origin).prefixMax (floor.map fun x : Nat => (x : Int) - origin) p =
      (tat quota.interval floor (slots.take p)).map fun x : Nat => (x : Int) - origin - (p * quota.interval : Nat) := by
  induction p with
  | zero => cases floor <;> simp [Search.prefixMax, tat]
  | succ p ih =>
    have hp : p < slots.length := hp
    have hs : (Search.exact quota slots start origin).s[p]? =
        some ((slots[p] : Int) - origin - (p * quota.interval : Nat)) := by
      simp [Search.exact, hp]
    rw [Search.prefixMax_succ hs, ih (by omega), List.take_add_one, List.getElem?_eq_getElem hp, Option.toList_some,
      tat_append]
    simp only [tat, Option.map_some, next, Nat.succ_mul]
    cases tat quota.interval floor (slots.take p) with
    | none =>
      simp only [Option.map_none, Option.elim_none, Option.some.injEq]
      omega
    | some x =>
      simp only [Option.map_some, Option.elim_some, Option.some.injEq]
      omega

variable (start origin) in
theorem Search.after_iff_suffixMin {slots : List Instant} {c tau : Nat} :
    After quota.interval tau c (slots.drop p) ↔
      ∀ m ∈ (Search.exact quota slots start origin).suffixMin p,
        (c : Int) - origin ≤ m + tau + (p * quota.interval : Nat) := by
  have read (j : Nat) (hj : p + j < slots.length) :
      ((Search.exact quota slots start origin).s.drop p)[j]? =
        some ((slots[p + j] : Int) - origin - ((p + j) * quota.interval : Nat)) := by
    simp [Search.exact, List.getElem?_drop, hj]
  have length : ((Search.exact quota slots start origin).s.drop p).length = slots.length - p := by
    simp [Search.exact]
  constructor
  · intro h m hm
    obtain ⟨j, hget⟩ := List.mem_iff_getElem?.mp (List.min?_mem hm)
    have hj' : p + j < slots.length := by
      have := (List.getElem?_eq_some_iff.mp hget).1
      omega
    rw [read j hj', Option.some.injEq] at hget
    have := after_getElem h j (by rw [List.length_drop]; omega)
    rw [List.getElem_drop] at this
    rw [← hget, Nat.add_mul]
    omega
  · intro h
    refine after_of_getElem fun j hj => ?_
    rw [List.length_drop] at hj
    have hj' : p + j < slots.length := by omega
    obtain ⟨m, hm⟩ := Option.isSome_iff_exists.mp (List.isSome_min?_of_mem (List.mem_of_getElem? (read j hj')))
    have le := (List.min?_eq_some_iff.mp hm).2 _ (List.mem_of_getElem? (read j hj'))
    have := h m hm
    rw [Nat.add_mul] at le
    rw [List.getElem_drop]
    omega

/-- Where a booking at position `p` starts at the earliest for its neighbour's sake. -/
def Search.low (search : Search) (p : Nat) : Int :=
  if p = search.first then search.start else search.offsets.getD (p - 1) 0

/-- A position fits when a booking there keeps its distances, as long as nothing saturates. -/
theorem Search.fits_eq_some {prefixMax : Option Int} {lower : Int} (T tau : Nat) (hT : search.interval = T)
    (htau : search.tolerance = tau) (hp : p ≤ 2 ^ 100) (hpT : p * T ≤ 2 ^ 100) (hT' : T ≤ 2 ^ 100) (htau' : tau ≤ 2 ^ 100)
    (hhead : ∀ m ∈ prefixMax, -2 ^ 100 ≤ m ∧ m ≤ 2 ^ 100)
    (hsuffix : ∀ m ∈ search.suffixMin p, -2 ^ 100 ≤ m ∧ m ≤ 2 ^ 100) :
    search.fits p prefixMax = some lower ↔
      (∀ before ∈ prefixMax, ∀ after ∈ search.suffixMin p, before + T ≤ after + tau) ∧
      lower = (prefixMax.elim (search.low p) fun before => max (search.low p) (before - tau + (p * T : Nat))) ∧
      (∀ next ∈ search.offsets[p]?, lower < next) ∧
      ∀ after ∈ search.suffixMin p, lower + T ≤ after + tau + (p * T : Nat) := by
  have shift : I128.saturatingMul (I128.ofNat p) search.interval = (p * T : Nat) := by
    rw [hT, I128.ofNat_eq (by omega), I128.saturatingMul_eq (by omega)]
  have spans : search.spans prefixMax ((search.suffixMin p).map fun m => I128.saturatingSub m T) = true ↔
      ∀ before ∈ prefixMax, ∀ after ∈ search.suffixMin p, before + T ≤ after + tau := by
    cases prefixMax with
    | none => simp [Search.spans]
    | some before =>
      cases hs : search.suffixMin p with
      | none => simp [Search.spans]
      | some after =>
        have := hhead before rfl
        have := hsuffix after hs
        simp only [Option.map_some, Search.spans, htau, decide_eq_true_eq, Option.mem_def, Option.some.injEq, forall_eq']
        rw [I128.saturatingSub_eq (a := after) (by omega) (by omega), I128.saturatingSub_eq (by omega) (by omega)]
        omega
  have lowest : (prefixMax.elim (search.low p) fun before =>
        max (search.low p) (I128.saturatingAdd (I128.saturatingSub before tau) (p * T : Nat))) =
      prefixMax.elim (search.low p) fun before => max (search.low p) (before - tau + (p * T : Nat)) := by
    cases prefixMax with
    | none => rfl
    | some before =>
      have := hhead before rfl
      rw [Option.elim_some, Option.elim_some, I128.saturatingSub_eq (by omega) (by omega),
        I128.saturatingAdd_eq (by omega) (by omega)]
  have upper (x : Int) : (((search.suffixMin p).map fun m => I128.saturatingSub m T).map fun after =>
        I128.saturatingAdd (I128.saturatingAdd after tau) (p * T : Nat)).all (x ≤ ·) = true ↔
      ∀ after ∈ search.suffixMin p, x + T ≤ after + tau + (p * T : Nat) := by
    cases hs : search.suffixMin p with
    | none => simp
    | some after =>
      have := hsuffix after hs
      simp only [Option.map_some, Option.all_some, decide_eq_true_eq, Option.mem_def, Option.some.injEq, forall_eq']
      rw [I128.saturatingSub_eq (by omega) (by omega), I128.saturatingAdd_eq (a := after - T) (by omega) (by omega),
        I128.saturatingAdd_eq (by omega) (by omega)]
      omega
  unfold Search.fits
  simp only [shift]
  rw [hT, htau, ← Search.low, lowest, Option.ite_none_right_eq_some, Bool.and_eq_true, Bool.and_eq_true, spans, upper,
    Option.all_eq_true, Option.some.injEq]
  simp only [decide_eq_true_eq]
  constructor
  · rintro ⟨⟨⟨hspans, hnext⟩, hupper⟩, rfl⟩
    exact ⟨hspans, rfl, hnext, hupper⟩
  · rintro ⟨hspans, rfl, hnext, hupper⟩
    exact ⟨⟨⟨hspans, hnext⟩, hupper⟩, rfl⟩

/-- A position is no further on than the bookings before it take. -/
theorem mul_interval_le (wf : quota.WellFormed) (cal : state.WellFormed quota) (hp : p ≤ state.slots.length) :
    p * quota.interval ≤ 2 ^ 97 := by
  have hT := Duration.lt_of_le_max wf.interval_le
  have htau := Duration.lt_of_le_max wf.tolerance_le
  rcases Nat.lt_or_ge p 2 with hlt | hge
  · have := Nat.mul_le_mul_right quota.interval (Nat.le_of_lt_succ hlt)
    omega
  · have apart := conforms_getElem (conforms_iff.mp cal.conforms).2 (i := 0) (j := p - 1) (by omega) (by omega)
    have last := Instant.lt_of_le_last (cal.slots_le _ (List.getElem_mem (n := p - 1) (by omega)))
    have split : p * quota.interval = (p - 1 - 0) * quota.interval + quota.interval := by
      rw [← Nat.succ_mul]
      congr 1
      omega
    omega

theorem suffixMin_bounds (wf : quota.WellFormed) (cal : state.WellFormed quota) (horigin : origin ≤ Instant.LAST) :
    ∀ m ∈ (Search.exact quota state.slots start origin).suffixMin p, -2 ^ 100 ≤ m ∧ m ≤ 2 ^ 100 := by
  intro m hm
  obtain ⟨k, hk, rfl⟩ := List.mem_iff_getElem.mp (List.mem_of_mem_drop (List.min?_mem hm))
  have hk' : k < state.slots.length := by simpa [Search.exact] using hk
  have last := Instant.lt_of_le_last (cal.slots_le _ (List.getElem_mem hk'))
  have before := Instant.lt_of_le_last horigin
  have mul := mul_interval_le wf cal (Nat.le_of_lt hk')
  simp only [Search.exact, List.getElem_mapIdx]
  omega

theorem prefixMax_bounds (wf : quota.WellFormed) (cal : state.WellFormed quota) (horigin : origin ≤ Instant.LAST)
    (hp : p ≤ state.slots.length) :
    ∀ m ∈ (Search.exact quota state.slots start origin).prefixMax (state.floor.map fun x : Nat => (x : Int) - origin) p,
      -2 ^ 100 ≤ m ∧ m ≤ 2 ^ 100 := by
  intro m hm
  rw [Search.prefixMax_exact _ _ hp] at hm
  obtain ⟨x, hx, rfl⟩ := Option.map_eq_some_iff.mp hm
  have le := tat_le cal.floor_le (fun t ht => cal.slots_le t (List.mem_of_mem_take ht)) x hx
  have mul := mul_interval_le wf cal hp
  have last := Instant.lt_of_le_last (Nat.le_refl Instant.LAST)
  have before := Instant.lt_of_le_last horigin
  rw [List.length_take, Nat.min_eq_left hp] at le
  omega

variable (quota origin) in
/-- A booking at position `p` starts neither before `start` nor before the bookings in front of it. -/
theorem le_low (sorted : state.slots.Pairwise (· ≤ ·)) (hfirst : partitionPoint state.slots (· ≤ start) ≤ p)
    (hp : p ≤ state.slots.length) :
    (start : Int) - origin ≤ (Search.exact quota state.slots start origin).low p ∧
      ∀ t ∈ state.slots.take p, (t : Int) - origin ≤ (Search.exact quota state.slots start origin).low p := by
  by_cases hpf : p = (Search.exact quota state.slots start origin).first
  · rw [Search.low, if_pos hpf]
    refine ⟨Int.le_refl _, fun t ht => ?_⟩
    rw [hpf] at ht
    exact Int.sub_le_sub_right (Int.ofNat_le.mpr (of_decide_eq_true (of_mem_take_partitionPoint t ht))) _
  · have low : (Search.exact quota state.slots start origin).low p =
        (state.slots.map fun t : Nat => (t : Int) - origin).getD (p - 1) 0 := if_neg hpf
    replace hpf : p ≠ partitionPoint state.slots (· ≤ start) := hpf
    have hlast : p - 1 < state.slots.length := by omega
    have le : ∀ k (hk : k ≤ p - 1), state.slots[k] ≤ state.slots[p - 1] := by
      intro k hk
      rcases Nat.lt_or_eq_of_le hk with hlt | rfl
      · exact List.pairwise_iff_getElem.mp sorted k (p - 1) (by omega) hlast hlt
      · exact Nat.le_refl _
    have hfirst' : partitionPoint state.slots (· ≤ start) < state.slots.length := by omega
    have above : start < state.slots[partitionPoint state.slots (· ≤ start)] :=
      Nat.lt_of_not_le (of_decide_eq_false (of_mem_getElem?_partitionPoint _ (List.getElem?_eq_getElem hfirst')))
    rw [low, List.getD_eq_getElem?_getD, List.getElem?_map, List.getElem?_eq_getElem hlast, Option.map_some, Option.getD_some]
    refine ⟨?_, fun t ht => ?_⟩
    · have := Int.ofNat_le.mpr (Nat.le_of_lt (Nat.lt_of_lt_of_le above (le _ (by omega))))
      omega
    · obtain ⟨k, hk, rfl⟩ := List.mem_iff_getElem.mp ht
      rw [List.length_take] at hk
      rw [List.getElem_take]
      have := Int.ofNat_le.mpr (le k (by omega))
      omega

/-- A booking at a position that fits keeps its distances to both sides. -/
theorem exact_fits {lower : Int} (wf : quota.WellFormed) (cal : state.WellFormed quota) (hstart : start ≤ Instant.LAST)
    (horigin : origin ≤ start) (hfirst : partitionPoint state.slots (· ≤ start) ≤ p) (hp : p ≤ state.slots.length)
    (h : (Search.exact quota state.slots start origin).fits p
      ((Search.exact quota state.slots start origin).prefixMax (state.floor.map fun x : Nat => (x : Int) - origin) p) =
        some lower) :
    ∃ t : Nat, lower = (t : Int) - origin ∧ start ≤ t ∧ (∀ u ∈ state.slots.take p, u ≤ t) ∧
      (∀ u ∈ state.slots[p]?, t < u) ∧
      (∀ x ∈ tat quota.interval state.floor (state.slots.take p),
        x ≤ t + quota.tolerance ∧ After quota.interval quota.tolerance (x + quota.interval) (state.slots.drop p)) ∧
      After quota.interval quota.tolerance (t + quota.interval) (state.slots.drop p) := by
  have hT := Duration.lt_of_le_max wf.interval_le
  have htau := Duration.lt_of_le_max wf.tolerance_le
  have mul := mul_interval_le wf cal hp
  have pos := Nat.le_mul_of_pos_right p wf.interval_pos
  have last : origin ≤ Instant.LAST := Nat.le_trans horigin hstart
  obtain ⟨hspans, hlower, hnext, hupper⟩ := (Search.fits_eq_some quota.interval quota.tolerance rfl rfl
    (by omega) (by omega) (by omega) (by omega) (prefixMax_bounds wf cal last hp) (suffixMin_bounds wf cal last)).mp h
  obtain ⟨hstart', htake⟩ := le_low quota origin cal.sorted hfirst hp
  rw [Search.prefixMax_exact _ _ hp] at hspans hlower
  have low_le : (Search.exact quota state.slots start origin).low p ≤ lower := by
    rw [hlower]
    cases tat quota.interval state.floor (state.slots.take p) with
    | none => exact Int.le_refl _
    | some x => exact Int.le_max_left ..
  have reach : ∀ x ∈ tat quota.interval state.floor (state.slots.take p), (x : Int) - origin ≤ lower + quota.tolerance := by
    intro x hx
    have := Int.le_max_right ((Search.exact quota state.slots start origin).low p)
      ((x : Int) - origin - (p * quota.interval : Nat) - quota.tolerance + (p * quota.interval : Nat))
    rw [hx, Option.map_some, Option.elim_some] at hlower
    omega
  have origin_le : (origin : Int) ≤ start := Int.ofNat_le.mpr horigin
  obtain ⟨t, ht⟩ := Int.eq_ofNat_of_zero_le (a := lower + origin) (by omega)
  refine ⟨t, by omega, Int.ofNat_le.mp (by omega), fun u hu => Int.ofNat_le.mp ?_, fun u hu => Int.ofNat_lt.mp ?_,
    fun x hx => ⟨?_, ?_⟩, ?_⟩
  · have := htake u hu
    omega
  · have := hnext ((u : Int) - origin) (by
      rw [Option.mem_def] at hu ⊢
      simp [Search.exact, hu])
    omega
  · have := reach x hx
    omega
  · refine (Search.after_iff_suffixMin start origin).mpr fun m hm => ?_
    have := hspans _ (Option.mem_map_of_mem _ hx) m hm
    push_cast at this ⊢
    omega
  · refine (Search.after_iff_suffixMin start origin).mpr fun m hm => ?_
    have := hupper m hm
    push_cast at this ⊢
    omega


/-- The search of `earliest`: its origin is before everything it looks at, and nothing in it saturates. -/
theorem earliest_eq (wf : quota.WellFormed) (cal : state.WellFormed quota) (hstart : start ≤ Instant.LAST) :
    ∃ origin, origin ≤ start ∧
      earliest quota state start =
        (let search := Search.exact quota state.slots start origin
        match search.loop (state.slots.length + 1 - search.first) search.first
            (search.prefixMax (state.floor.map fun x : Nat => (x : Int) - origin) search.first) with
        | none => none
        | some lower =>
          if lower < 0 ∨ lower > (Duration.MAX : Int) then none else Instant.checkedAdd origin lower.toNat) := by
  set origin := (state.slots.head?.toList ++ state.floor.toList).foldl min start with horigin
  have below : ∀ t ∈ start :: (state.slots.head?.toList ++ state.floor.toList), origin ≤ t :=
    (List.min?_eq_some_iff.mp List.min?_cons').2
  have hslots : ∀ t ∈ state.slots, origin ≤ t ∧ t ≤ Instant.LAST := by
    refine fun t ht => ⟨?_, cal.slots_le t ht⟩
    cases hc : state.slots with
    | nil => simp [hc] at ht
    | cons head slots =>
      have le : origin ≤ head := below head (by simp [hc])
      rw [hc] at ht
      rcases List.mem_cons.mp ht with rfl | ht
      · exact le
      · exact Nat.le_trans le (List.rel_of_pairwise_cons (hc ▸ cal.sorted) ht)
  have offset (t : Nat) (ht : origin ≤ t ∧ t ≤ Instant.LAST) :
      I128.ofNat (Instant.saturatingDurationSince t origin) = (t : Int) - origin := by
    have := Instant.lt_of_le_last ht.2
    have := Int.ofNat_sub ht.1
    rw [Instant.saturatingDurationSince, I128.ofNat_eq (by omega)]
    omega
  have hstart' : origin ≤ start := below start List.mem_cons_self
  refine ⟨origin, hstart', ?_⟩
  have hfloor : (state.floor.map fun x => I128.ofNat (Instant.saturatingDurationSince x origin)) =
      state.floor.map fun x : Nat => (x : Int) - origin :=
    Option.map_congr fun x hx => offset x ⟨below x (by simp [Option.mem_def.mp hx]), cal.floor_le x hx⟩
  have hT : I128.ofNat quota.interval = quota.interval := by
    have := Duration.lt_of_le_max wf.interval_le
    exact I128.ofNat_eq (by omega)
  have htau : I128.ofNat quota.tolerance = quota.tolerance := by
    have := Duration.lt_of_le_max wf.tolerance_le
    exact I128.ofNat_eq (by omega)
  have hoffsets : (state.slots.map fun t => I128.ofNat (Instant.saturatingDurationSince t origin)) =
      state.slots.map fun t : Nat => (t : Int) - origin :=
    List.map_congr_left fun t ht => offset t (hslots t ht)
  have hs : (state.slots.mapIdx fun k slot =>
      I128.saturatingSub (I128.ofNat (Instant.saturatingDurationSince slot origin))
        (I128.saturatingMul (I128.ofNat k) quota.interval)) = (Search.exact quota state.slots start origin).s := by
    refine List.ext_getElem (by simp [Search.exact]) fun k hk _ => ?_
    rw [List.length_mapIdx] at hk
    have bounds := hslots _ (List.getElem_mem hk)
    have last := Instant.lt_of_le_last bounds.2
    have origin_le := Int.ofNat_le.mpr bounds.1
    have mul := mul_interval_le wf cal (Nat.le_of_lt hk)
    have pos := Nat.le_mul_of_pos_right k wf.interval_pos
    simp only [List.getElem_mapIdx, Search.exact, offset _ bounds]
    rw [I128.ofNat_eq (by omega), I128.saturatingMul_eq (by omega), I128.saturatingSub_eq (by omega) (by omega)]
  unfold earliest
  simp only [← horigin, hfloor, hT, htau, hoffsets, hs, offset start ⟨hstart', hstart⟩]
  have length : (Search.exact quota state.slots start origin).s.length = state.slots.length := List.length_mapIdx
  rw [length]
  rfl

/-- Booking the earliest instant keeps the calendar within its quota. -/
theorem earliest_conforms {t : Instant} (wf : quota.WellFormed) (cal : state.WellFormed quota)
    (hstart : start ≤ Instant.LAST) (h : earliest quota state start = some t) :
    start ≤ t ∧ Calendar.WellFormed quota
      { state with slots := state.slots.insertIdx (partitionPoint state.slots (· ≤ t)) t } := by
  obtain ⟨origin, horigin, heq⟩ := earliest_eq wf cal hstart
  rw [heq] at h
  dsimp only at h
  split at h
  · cases h
  · rename_i lower found
    have length : (Search.exact quota state.slots start origin).s.length = state.slots.length := List.length_mapIdx
    obtain ⟨p, hfirst, hp, fits⟩ := Search.loop_eq_some (by
      rw [length]
      have : (Search.exact quota state.slots start origin).first ≤ state.slots.length := partitionPoint_le
      omega) found
    rw [length] at hp
    obtain ⟨u, rfl, hstart', before, after, hhead, hsuffix⟩ := exact_fits wf cal hstart horigin hfirst hp fits
    obtain ⟨rfl, last⟩ : t = u ∧ u ≤ Instant.LAST := by
      have origin_le : origin ≤ u := Nat.le_trans horigin hstart'
      rw [Option.ite_none_left_eq_some, Instant.checkedAdd_eq_some, ← Int.ofNat_sub origin_le, Int.toNat_natCast,
        Nat.add_sub_cancel' origin_le] at h
      exact h.2
    have hpoint : partitionPoint state.slots (· ≤ t) = p :=
      partitionPoint_eq hp (fun v hv => decide_eq_true (before v hv))
        fun v hv => decide_eq_false (Nat.not_le_of_lt (after v hv))
    have above : ∀ v ∈ state.slots.drop p, t ≤ v := by
      intro v hv
      cases hd : state.slots.drop p with
      | nil => simp [hd] at hv
      | cons head rest =>
        have le : t ≤ head := Nat.le_of_lt (after head (by rw [← List.head?_drop, hd]; rfl))
        rw [hd] at hv
        rcases List.mem_cons.mp hv with rfl | hv
        · exact le
        · have sorted := cal.sorted.sublist (List.drop_sublist p _)
          rw [hd] at sorted
          exact Nat.le_trans le (List.rel_of_pairwise_cons sorted hv)
    have split := List.take_append_drop p state.slots
    rw [hpoint, insertIdx_eq hp]
    refine ⟨hstart', ?_, ?_, cal.floor_le, ?_⟩
    · have sorted := cal.sorted
      rw [← split, List.pairwise_append] at sorted
      refine List.pairwise_append.mpr ⟨sorted.1, List.pairwise_cons.mpr ⟨above, sorted.2.1⟩, fun v hv w hw => ?_⟩
      rcases List.mem_cons.mp hw with rfl | hw
      · exact before v hv
      · exact sorted.2.2 v hv w hw
    · intro v hv
      rcases List.mem_append.mp hv with hv | hv
      · exact cal.slots_le v (List.mem_of_mem_take hv)
      rcases List.mem_cons.mp hv with rfl | hv
      · exact last
      · exact cal.slots_le v (List.mem_of_mem_drop hv)
    · have conforms := cal.conforms
      rw [← split] at conforms
      exact conforms_insert conforms hhead hsuffix

/-! ### What the calendar has charged -/

/-- The bookings a calendar has charged are those it has folded, in that order, and those in its slots. -/
structure Charged (c : SlotCalendar) (folded : List Instant) : Prop where
  quota : c.quota.WellFormed
  state : c.state.WellFormed c.quota
  floor : c.state.floor = tat c.quota.interval none folded
  folded : Conforms c.quota.interval c.quota.tolerance none folded

end

section
variable {c : SlotCalendar} {folded : List Instant} {quota : Quota} {state : Calendar} {now : Instant}

theorem Charged.conforms (h : Charged c folded) :
    Conforms c.quota.interval c.quota.tolerance none (folded ++ c.state.slots) :=
  conforms_append.mpr ⟨h.folded, h.floor ▸ h.state.conforms⟩

/-- With fewer slots, the others are charged. -/
theorem charged_sublist (h : Charged c folded) {slots : List Instant} (sub : slots.Sublist c.state.slots) :
    Charged { c with state := { c.state with slots } } folded :=
  ⟨h.quota, ⟨h.state.sorted.sublist sub, fun t ht => h.state.slots_le t (sub.mem ht), h.state.floor_le,
    conforms_sublist sub h.state.conforms⟩, h.floor, h.folded⟩

theorem new_charged {count burst : NonZeroU32} {per : Duration} (h : new count per burst = .ok c) :
    Charged c [] ∧ c.state.slots = [] ∧ Quota.new count per burst = .ok c.quota := by
  unfold new at h
  cases hq : Quota.new count per burst with
  | error e => rw [hq] at h; cases h
  | ok quota =>
    rw [hq] at h
    cases h
    exact ⟨⟨Quota.new_wellFormed hq, ⟨.nil, nofun, nofun, trivial⟩, rfl, trivial⟩, rfl, rfl⟩

theorem foldSlots_spec (quota : Quota) (slots : List Instant) (floor : Option Instant) :
    (foldSlots quota slots floor).1 ≤ slots.length ∧
      (foldSlots quota slots floor).2 = tat quota.interval floor (slots.take (foldSlots quota slots floor).1) ∧
      ((∀ x ∈ floor, x ≤ Instant.LAST) → ∀ x ∈ (foldSlots quota slots floor).2, x ≤ Instant.LAST) := by
  induction slots generalizing floor with
  | nil => exact ⟨Nat.le_refl _, rfl, id⟩
  | cons slot slots ih =>
    unfold foldSlots
    split
    · exact ⟨Nat.zero_le _, rfl, id⟩
    · rename_i next hnext
      obtain ⟨rfl, last⟩ := Instant.checkedAdd_eq_some.mp hnext
      obtain ⟨hle, htat, hlast⟩ := ih (some (Gcra.next quota.interval floor slot))
      exact ⟨Nat.succ_le_succ hle, htat, fun _ => hlast (by rintro x ⟨⟩; exact last)⟩

/-- Folding moves slots from before `now` to the bookings folded in. -/
theorem foldBefore_charged (h : Charged c folded) (now : Instant) :
    ∃ n ≤ c.state.slots.length, (∀ t ∈ c.state.slots.take n, t < now) ∧
      (foldBefore c.quota c.state now).slots = c.state.slots.drop n ∧
      Charged { c with state := foldBefore c.quota c.state now } (folded ++ c.state.slots.take n) := by
  set before := partitionPoint c.state.slots (· < now) with hbefore
  obtain ⟨hle, htat, hlast⟩ := foldSlots_spec c.quota (c.state.slots.take before) c.state.floor
  set n := (foldSlots c.quota (c.state.slots.take before) c.state.floor).1 with hn
  rw [List.length_take] at hle
  rw [List.take_take, Nat.min_eq_left (Nat.le_trans hle (Nat.min_le_left ..))] at htat
  have slots : (foldBefore c.quota c.state now).slots = c.state.slots.drop n := rfl
  have floor : (foldBefore c.quota c.state now).floor = tat c.quota.interval c.state.floor (c.state.slots.take n) := htat
  have conforms := h.state.conforms
  rw [← List.take_append_drop n c.state.slots, conforms_append] at conforms
  have past : ∀ t ∈ c.state.slots.take n, t < now := by
    intro t ht
    have sub : c.state.slots.take n <+: c.state.slots.take before :=
      List.take_prefix_take_left (Nat.le_trans hle (Nat.min_le_left ..))
    exact of_decide_eq_true (@of_mem_take_partitionPoint _ (· < now) t (sub.subset ht))
  refine ⟨n, Nat.le_trans hle (Nat.min_le_right ..), past, slots, h.quota, ⟨?_, ?_, ?_, ?_⟩, ?_, ?_⟩
  · exact slots ▸ h.state.sorted.sublist (List.drop_sublist ..)
  · exact fun t ht => h.state.slots_le t (List.mem_of_mem_drop (slots ▸ ht))
  · exact hlast h.state.floor_le
  · rw [slots, floor]
    exact conforms.2
  · rw [floor, h.floor, tat_append]
  · exact conforms_append.mpr ⟨h.folded, h.floor ▸ conforms.1⟩

/-- What a request books, and what it folds first. -/
theorem acquire_charged (h : Charged c folded) (now : Instant) (source maxDelay : Duration) :
    ∃ n ≤ c.state.slots.length, (∀ t ∈ c.state.slots.take n, t < now) ∧ (c.acquire now source maxDelay).2.quota = c.quota ∧
      Charged (c.acquire now source maxDelay).2 (folded ++ c.state.slots.take n) ∧
      match (c.acquire now source maxDelay).1 with
      | .error _ => (c.acquire now source maxDelay).2.state.slots = c.state.slots.drop n
      | .ok booking => (c.acquire now source maxDelay).2.state.slots =
            (c.state.slots.drop n).insertIdx (partitionPoint (c.state.slots.drop n) (· ≤ booking.at)) booking.at ∧
          now + source ≤ booking.at ∧ booking.delay = booking.at - now ∧ booking.delay ≤ maxDelay := by
  unfold acquire
  split
  · exact ⟨0, Nat.zero_le _, nofun, rfl, by simpa using h, rfl⟩
  · rename_i start hstart
    obtain ⟨rfl, last⟩ := Instant.checkedAdd_eq_some.mp hstart
    obtain ⟨n, hn, past, slots, folds⟩ := foldBefore_charged h now
    refine ⟨n, hn, past, ?_⟩
    dsimp only
    split
    · exact ⟨rfl, folds, slots⟩
    · rename_i t ht
      split
      · exact ⟨rfl, folds, slots⟩
      · rename_i inTime
        obtain ⟨le, cal⟩ := earliest_conforms folds.quota folds.state last ht
        exact ⟨rfl, ⟨folds.quota, cal, folds.floor, folds.folded⟩, by rw [slots], le, rfl, Nat.le_of_not_lt inTime⟩

/-- How many slots were folded shows in how many there are. -/
theorem len_drop {c' : SlotCalendar} {n : Nat} (hn : n ≤ c.state.slots.length)
    (slots : c'.state.slots = c.state.slots.drop n) : c.len - c'.len = n := by
  rw [len, len, slots, List.length_drop, Nat.sub_sub_self hn]

theorem len_insertIdx {c' : SlotCalendar} {n p : Nat} {t : Instant} (hn : n ≤ c.state.slots.length)
    (hp : p ≤ (c.state.slots.drop n).length) (slots : c'.state.slots = (c.state.slots.drop n).insertIdx p t) :
    c.len + 1 - c'.len = n := by
  rw [len, len, slots, List.length_insertIdx_of_le_length hp, List.length_drop]
  omega

theorem erase_eq_eraseIdx {slots : List Instant} (sorted : slots.Pairwise (· ≤ ·)) (t : Instant) :
    (if slots[partitionPoint slots (· < t)]? = some t then slots.eraseIdx (partitionPoint slots (· < t)) else slots) =
      slots.erase t := by
  induction slots with
  | nil => rfl
  | cons slot slots ih =>
    rw [List.pairwise_cons] at sorted
    rcases Nat.lt_or_ge slot t with hlt | hge
    · have point : partitionPoint (slot :: slots) (· < t) = partitionPoint slots (· < t) + 1 := by
        rw [partitionPoint, List.takeWhile_cons_of_pos (by simpa using hlt)]
        rfl
      rw [List.erase_cons_tail (by simp [Nat.ne_of_lt hlt]), ← ih sorted.2, point, List.getElem?_cons_succ,
        List.eraseIdx_cons_succ, apply_ite (slot :: ·)]
    · have point : partitionPoint (slot :: slots) (· < t) = 0 := by
        rw [partitionPoint, List.takeWhile_cons_of_neg (by simpa using hge)]
        rfl
      rw [point, List.getElem?_cons_zero, List.eraseIdx_cons_zero]
      split
      · rename_i same
        cases same
        exact (List.erase_cons_head ..).symm
      · rename_i differ
        refine (List.erase_of_not_mem fun ht => ?_).symm
        rcases List.mem_cons.mp ht with rfl | ht
        · exact differ rfl
        · exact differ (congrArg some (Nat.le_antisymm (sorted.1 t ht) hge))

/-- Cancelling takes a slot at the booking's instant out, if there is one. -/
theorem cancel_eq (sorted : c.state.slots.Pairwise (· ≤ ·)) (booking : Booking) :
    c.cancel booking = { c with state := { c.state with slots := c.state.slots.erase booking.at } } := by
  rw [← erase_eq_eraseIdx sorted]
  unfold cancel
  dsimp only
  split <;> rfl

theorem cancel_quota (c : SlotCalendar) (booking : Booking) : (c.cancel booking).quota = c.quota := by
  unfold cancel
  dsimp only
  split <;> rfl

theorem cancel_charged (h : Charged c folded) (booking : Booking) : Charged (c.cancel booking) folded := by
  rw [cancel_eq h.state.sorted]
  exact charged_sublist h List.erase_sublist

end

end SlotCalendar

end Tgin.Limit
