import Mathlib.Tactic

/-! Instants and durations in nanoseconds, with the ranges of the calendar library: an instant lies
    between `minUtc` and `maxUtc`, a signed delta within `i64::MAX` milliseconds, and the additions
    that could leave the range are checked. -/

namespace Arcature.Lib

/-- Nanoseconds since the epoch. -/
abbrev Instant := ℤ

/-- An unsigned length of time, in nanoseconds. -/
abbrev Duration := ℕ

namespace Clock

/-- The last instant of year 262142. -/
def maxUtc : Instant := 8210266876799 * 10 ^ 9 + 999999999

/-- The first instant of year -262143. -/
def minUtc : Instant := -8334601228800 * 10 ^ 9

/-- The widest signed delta. -/
def deltaMax : ℤ := (2 ^ 63 - 1) * 10 ^ 6

/-- `TimeDelta::from_std`. -/
def fromStd (d : Duration) : Option ℤ := if (d : ℤ) ≤ deltaMax then some d else none

/-- `checked_add_signed`. -/
def checkedAdd (at' : Instant) (delta : ℤ) : Option Instant :=
  if minUtc ≤ at' + delta ∧ at' + delta ≤ maxUtc then some (at' + delta) else none

/-- `checked_sub_signed`. -/
def checkedSub (at' : Instant) (delta : ℤ) : Option Instant := checkedAdd at' (-delta)

end Clock

/-- `as_secs_f64`, exact. -/
def Duration.asSecs (d : Duration) : ℚ := d / 10 ^ 9

/-! ### The monotonic clock -/

/-- A reading of the monotonic clock, in nanoseconds, within the range of its seconds. -/
structure MonoInstant where
  ns : ℕ
  lt : ns < 2 ^ 63 * 10 ^ 9
  deriving DecidableEq

namespace MonoInstant

theorem zero_lt : 0 < 2 ^ 63 * 10 ^ 9 := by decide

/-- The reading in seconds. -/
def secs (t : MonoInstant) : ℚ := t.ns / 10 ^ 9

/-- `saturating_duration_since`: zero where the clock would have gone back. -/
def saturatingDurationSince (now earlier : MonoInstant) : Duration := now.ns - earlier.ns

theorem asSecs_since (now earlier : MonoInstant) :
    (now.saturatingDurationSince earlier).asSecs = max 0 (now.secs - earlier.secs) := by
  unfold saturatingDurationSince Duration.asSecs secs
  rcases le_total earlier.ns now.ns with h | h
  · have hq : (earlier.ns : ℚ) ≤ now.ns := by exact_mod_cast h
    rw [Nat.cast_sub h, max_eq_right, sub_div]
    rw [← sub_div]
    exact div_nonneg (by linarith) (by positivity)
  · have hq : (now.ns : ℚ) ≤ earlier.ns := by exact_mod_cast h
    rw [Nat.sub_eq_zero_of_le h, max_eq_left]
    · simp
    · rw [← sub_div]
      exact div_nonpos_of_nonpos_of_nonneg (by linarith) (by positivity)

theorem secs_le {t u : MonoInstant} : t.secs ≤ u.secs ↔ t.ns ≤ u.ns := by
  unfold secs
  rw [div_le_div_iff_of_pos_right (by positivity)]
  exact Nat.cast_le

end MonoInstant

end Arcature.Lib
