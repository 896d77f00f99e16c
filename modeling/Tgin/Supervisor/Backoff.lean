import Tgin.Supervisor

/-! The delays of a backoff. The code multiplies by a power of two that has 32 bits and draws nanoseconds that have 64, so the ceiling
    stops short of `max` where the exact product does not fit. -/

namespace Tgin.Backoff

def new (initial max floor : Duration) : Backoff := { initial, max, floor, attempt := 0 }

/-- What the draws leave. -/
def after (b : Backoff) (draws : List Nat) : Backoff := draws.foldl (fun b drawn => (b.nextDelay drawn).2) b

/-- The greatest delay that may be drawn next. -/
def ceiling (b : Backoff) : Duration :=
  min (min (min (b.initial * min (2 ^ b.attempt) (2 ^ 32 - 1)) Duration.MAX) b.max) wordMax

/-- What the ceiling is to be after `n` attempts. -/
def nominal (b : Backoff) (n : Nat) : Duration := min b.max (b.initial * 2 ^ n)

/-- A backoff that has counted `n` attempts is where it is to be. -/
structure Nominal (n : Nat) (b : Backoff) : Prop where
  above : ∀ drawn, b.floor ≤ (b.nextDelay drawn).1
  below : ∀ drawn, (b.nextDelay drawn).1 ≤ Max.max b.floor (b.nominal n)
  exact : b.ceiling = b.nominal n
  reaches : 0 < b.initial → b.max ≤ b.initial * 2 ^ n → b.ceiling = b.max
  grows : ∀ drawn, b.ceiling ≤ (b.nextDelay drawn).2.ceiling

/-- The ceiling fits in the nanoseconds drawn, and the factor in its bits where it counts. -/
def Fits (b : Backoff) (n : Nat) : Prop :=
  b.nominal n ≤ wordMax ∧ (n < 32 ∨ b.initial = 0 ∨ b.max ≤ b.initial * (2 ^ 32 - 1))

/-! ### Clipping -/

theorem clip_mono {p q m cap w : Nat} (h : p ≤ q) : min (min (min p m) cap) w ≤ min (min (min q m) cap) w := by omega

theorem clip_of_le {p m cap w : Nat} (h : cap ≤ m) : min (min (min p m) cap) w = min (min p cap) w := by omega

theorem clip_le {p q cap w : Nat} (h : p ≤ q) : min (min p cap) w ≤ min cap q := by omega

theorem floored_le {floor p q : Nat} (h : p ≤ q) : Max.max floor p ≤ Max.max floor q := by omega

theorem clip_eq_iff {p q cap w : Nat} (h : p ≤ q) : min (min p cap) w = min cap q ↔ min cap q ≤ w ∧ (p = q ∨ cap ≤ p) := by omega

/-! ### One delay -/

section
variable (b : Backoff)

theorem nextDelay_eq (drawn : Nat) : b.nextDelay drawn =
    (Max.max (min drawn b.ceiling) b.floor, { b with attempt := min (b.attempt + 1) (2 ^ 32 - 1) }) :=
  rfl

theorem floor_le (drawn : Nat) : b.floor ≤ (b.nextDelay drawn).1 := Nat.le_max_right ..

theorem nextDelay_le (drawn : Nat) : (b.nextDelay drawn).1 ≤ Max.max b.floor b.ceiling :=
  Nat.max_le.mpr ⟨Nat.le_trans (Nat.min_le_right ..) (Nat.le_max_right ..), Nat.le_max_left ..⟩

/-- The factor grows with the count. -/
theorem factor_mono {m n : Nat} (h : m ≤ n) : min (2 ^ m) (2 ^ 32 - 1) ≤ min (2 ^ n) (2 ^ 32 - 1) :=
  Nat.le_min.mpr ⟨Nat.le_trans (Nat.min_le_left ..) (Nat.pow_le_pow_right (by decide) h), Nat.min_le_right ..⟩

/-- From 32 attempts on, the factor is the greatest there is. -/
theorem factor_of_le {n : Nat} (h : 32 ≤ n) : min (2 ^ n) (2 ^ 32 - 1) = 2 ^ 32 - 1 := by
  refine Nat.min_eq_right (Nat.le_trans (Nat.sub_le ..) ?_)
  exact Nat.pow_le_pow_right (by decide) h

theorem factor_of_lt {n : Nat} (h : n < 32) : min (2 ^ n) (2 ^ 32 - 1) = 2 ^ n :=
  Nat.min_eq_left (Nat.le_sub_one_of_lt (Nat.pow_lt_pow_right (by decide) h))

/-- The counter has 32 bits as well, but the factor has stopped by then. -/
theorem factor_counter (n : Nat) : min (2 ^ min n (2 ^ 32 - 1)) (2 ^ 32 - 1) = min (2 ^ n) (2 ^ 32 - 1) := by
  rcases Nat.lt_or_ge n 32 with few | many
  · rw [Nat.min_eq_left (Nat.le_of_lt (Nat.lt_trans few (by decide)))]
  · rw [factor_of_le (Nat.le_min.mpr ⟨many, by decide⟩), factor_of_le many]

theorem ceiling_mono {attempt : Nat} (h : b.attempt ≤ attempt) : b.ceiling ≤ { b with attempt }.ceiling := by
  have product := Nat.mul_le_mul_left b.initial (factor_mono h)
  exact clip_mono product

/-- The ceiling grows from one attempt to the next; the last count repeats. -/
theorem ceiling_grows (h : b.attempt ≤ 2 ^ 32 - 1) (drawn : Nat) : b.ceiling ≤ (b.nextDelay drawn).2.ceiling := by
  exact ceiling_mono b (Nat.le_min.mpr ⟨Nat.le_succ _, h⟩)

theorem after_eq (h : b.attempt ≤ 2 ^ 32 - 1) (draws : List Nat) :
    b.after draws = { b with attempt := min (b.attempt + draws.length) (2 ^ 32 - 1) } := by
  induction draws generalizing b with
  | nil =>
    rw [List.length_nil, Nat.add_zero, Nat.min_eq_left h]
    rfl
  | cons drawn draws ih =>
    have next := ih (b.nextDelay drawn).2 (Nat.min_le_right ..)
    rw [nextDelay_eq] at next
    refine next.trans ?_
    have count : min (min (b.attempt + 1) (2 ^ 32 - 1) + draws.length) (2 ^ 32 - 1) =
        min (b.attempt + (draws.length + 1)) (2 ^ 32 - 1) := by
      omega
    rw [List.length_cons, ← count]

end

section
variable {initial cap floor : Duration}

theorem after_new (draws : List Nat) :
    (new initial cap floor).after draws = { initial, max := cap, floor, attempt := min draws.length (2 ^ 32 - 1) } := by
  rw [after_eq _ (Nat.zero_le _)]
  simp only [new, Nat.zero_add]

/-- The ceiling after `n` attempts. -/
theorem ceiling_counted (range : cap ≤ Duration.MAX) (n : Nat) :
    ceiling { initial, max := cap, floor, attempt := min n (2 ^ 32 - 1) } =
      min (min (initial * min (2 ^ n) (2 ^ 32 - 1)) cap) wordMax := by
  rw [ceiling, factor_counter]
  exact clip_of_le range

theorem product_le (n : Nat) : initial * min (2 ^ n) (2 ^ 32 - 1) ≤ initial * 2 ^ n := Nat.mul_le_mul_left initial (Nat.min_le_left ..)

/-- Too low at worst. -/
theorem ceiling_le_nominal (range : cap ≤ Duration.MAX) (n : Nat) :
    ceiling { initial, max := cap, floor, attempt := min n (2 ^ 32 - 1) } ≤ min cap (initial * 2 ^ n) := by
  rw [ceiling_counted range]
  exact clip_le (product_le n)

/-- The factor's bits matter only from 32 attempts on, and not for a product that passes the cap by then. -/
theorem product_fits_iff (n : Nat) : initial * min (2 ^ n) (2 ^ 32 - 1) = initial * 2 ^ n ∨ cap ≤ initial * min (2 ^ n) (2 ^ 32 - 1) ↔
    n < 32 ∨ initial = 0 ∨ cap ≤ initial * (2 ^ 32 - 1) := by
  rcases Nat.lt_or_ge n 32 with few | many
  · rw [factor_of_lt few]
    exact ⟨fun _ => .inl few, fun _ => .inl rfl⟩
  · rw [factor_of_le many, or_iff_right (Nat.not_lt_of_le many)]
    refine or_congr_left ⟨fun same => ?_, fun zero => by rw [zero, Nat.zero_mul, Nat.zero_mul]⟩
    by_contra pos
    have larger : 2 ^ 32 - 1 < 2 ^ n := Nat.lt_of_lt_of_le (by decide) (Nat.pow_le_pow_right (by decide) many)
    exact Nat.ne_of_lt (Nat.mul_lt_mul_of_pos_left larger (Nat.pos_of_ne_zero pos)) same

/-- The ceiling is exact exactly when it fits. -/
theorem ceiling_exact_iff (range : cap ≤ Duration.MAX) (n : Nat) :
    ceiling { initial, max := cap, floor, attempt := min n (2 ^ 32 - 1) } = min cap (initial * 2 ^ n) ↔
      Fits (new initial cap floor) n := by
  rw [ceiling_counted range]
  exact (clip_eq_iff (product_le n)).trans (and_congr_right fun _ => product_fits_iff n)

/-- A backoff keeps within its bounds and its ceiling grows, and the ceiling is what it is to be, however many attempts there were,
    exactly when it fits. -/
theorem after_nominal_iff (range : cap ≤ Duration.MAX) (draws : List Nat) :
    ((new initial cap floor).after draws).Nominal draws.length ↔ Fits (new initial cap floor) draws.length := by
  rw [after_new]
  constructor
  · intro nominal
    exact (ceiling_exact_iff range _).mp nominal.exact
  · intro fits
    have exact := (ceiling_exact_iff range draws.length).mpr fits
    refine ⟨floor_le _, fun drawn => ?_, exact, fun _ reached => exact.trans (Nat.min_eq_left reached), ?_⟩
    · exact Nat.le_trans (nextDelay_le _ drawn) (floored_le (ceiling_le_nominal range _))
    · exact ceiling_grows _ (Nat.min_le_right ..)

/-- One nanosecond, doubled up to a minute: after 36 attempts the product is past the minute. -/
theorem slow_stopsShort : ¬((new 1 (60 * 10 ^ 9) 0).after (List.replicate 36 0)).Nominal 36 := by
  rw [after_new]
  intro nominal
  exact absurd (nominal.reaches (by decide) (by decide)) (by decide)

/-- One second, doubled up to a minute. -/
theorem after_nominal_iff_default : ((new (10 ^ 9) (60 * 10 ^ 9) 0).after (List.replicate 40 0)).Nominal 40 :=
  (after_nominal_iff (by decide) (List.replicate 40 0)).mpr ⟨by decide, .inr (.inr (by decide))⟩

end

end Tgin.Backoff
