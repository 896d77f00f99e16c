import Mathlib.Algebra.Order.Ring.Int
import Mathlib.Tactic.Common

/-! Machine words and the clock. A `usize` or `u64` is a natural number below `2 ^ 64`: wrapping and
    saturating operations say so, the others are used where the code cannot overflow. A duration is its
    number of nanoseconds, an instant the nanoseconds since the earliest instant of the platform, which
    counts seconds in 64 bits. -/

namespace Tgin

/-- How many values a `usize` or `u64` has. -/
abbrev wordSize : Nat := 2 ^ 64

/-- `usize::MAX` and `u64::MAX`. -/
abbrev wordMax : Nat := wordSize - 1

/-- Addition that wraps, as `fetch_add` does and `+=` does in a release build. -/
def wrappingAdd (a b : Nat) : Nat := (a + b) % wordSize

/-- Subtraction that wraps, as `fetch_sub` does and `-=` does in a release build. -/
def wrappingSub (a b : Nat) : Nat := (a + (wordSize - b % wordSize)) % wordSize

/-- `usize::saturating_add`. -/
def saturatingAdd (a b : Nat) : Nat := min (a + b) wordMax

/-- Adding to a sum kept modulo the word size keeps the sum. -/
theorem wrappingAdd_mod (n size : Nat) : wrappingAdd (n % wordSize) size = (n + size) % wordSize := by
  simp only [wrappingAdd, wordSize]
  omega

/-- Taking a summand out of a sum kept modulo the word size leaves the rest. -/
theorem wrappingSub_mod (n size : Nat) : wrappingSub ((n + size) % wordSize) size = n % wordSize := by
  simp only [wrappingSub, wordSize]
  omega

/-- A `std::time::Duration` in nanoseconds. -/
abbrev Duration := Nat

/-- A `tokio::time::Instant` in nanoseconds. -/
abbrev Instant := Nat

namespace Duration

/-- `Duration::MAX`: `u64::MAX` seconds and 999 999 999 nanoseconds. -/
abbrev MAX : Duration := wordSize * 10 ^ 9 - 1

theorem lt_of_le_max {d : Nat} (h : d ≤ MAX) : d < 2 ^ 94 := Nat.lt_of_le_of_lt h (by decide)

/-- `Duration::saturating_add`. -/
def saturatingAdd (a b : Duration) : Duration := min (a + b) MAX

/-- `Duration::checked_mul` by a `u32`. -/
def checkedMul (d : Duration) (n : Nat) : Option Duration :=
  if d * n ≤ MAX then some (d * n) else none

end Duration

namespace Instant

/-- The last instant the platform represents: a 64-bit count of seconds after the first. -/
abbrev LAST : Instant := wordSize * 10 ^ 9 - 1

theorem lt_of_le_last {t : Nat} (h : t ≤ LAST) : t < 2 ^ 94 := Nat.lt_of_le_of_lt h (by decide)

/-- `Instant::checked_add`. -/
def checkedAdd (t : Instant) (d : Duration) : Option Instant :=
  if t + d ≤ LAST then some (t + d) else none

/-- `Instant::saturating_duration_since`: natural subtraction stops at zero as the duration does. -/
def saturatingDurationSince (t earlier : Instant) : Duration := t - earlier

theorem checkedAdd_eq_some {t : Instant} {d : Duration} {u : Instant} :
    checkedAdd t d = some u ↔ u = t + d ∧ t + d ≤ LAST := by
  unfold checkedAdd
  split
  · rename_i h
    simp only [Option.some.injEq, h, and_true, eq_comm]
  · rename_i h
    simp [h]

end Instant

end Tgin
