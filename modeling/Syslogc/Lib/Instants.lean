-- SUMMARY: Instants and durations, and rounding to a grid.
import Mathlib

/-!
# Instants

An instant is a number of nanoseconds since the Unix epoch. Two grids are laid over the
instants: the multiples of a step since the epoch, and the multiples since the zero time,
1 January of year 1. They are the same grid exactly if the step divides the time between
the two origins, as every divisor of a day does.
-/

namespace Instants

def millisecond : Int := 1000000
def second : Int := 1000 * millisecond
def minute : Int := 60 * second
def hour : Int := 60 * minute
def day : Int := 24 * hour

/-- From the zero time to the epoch. -/
def sinceZero : Int := 719162 * day

/-- The zero time, which stands for no time. -/
def zeroTime : Int := -sinceZero

/-- The last multiple of a step, counted from the epoch, that is not after an instant. -/
def floorTo (step t : Int) : Int := t - t % step

/-- Go's `Time.Truncate`: the last multiple of a duration, counted from the zero time. -/
def truncate (t d : Int) : Int := if d ≤ 0 then t else t - (t + sinceZero) % d

variable {step t u : Int}

theorem dvd_floorTo : step ∣ floorTo step t := Int.dvd_self_sub_emod

theorem floorTo_le (h : 0 < step) : floorTo step t ≤ t := by
  have := Int.emod_nonneg t h.ne'
  unfold floorTo
  omega

theorem lt_floorTo_add (h : 0 < step) : t < floorTo step t + step := by
  have := Int.emod_lt_of_pos t h
  unfold floorTo
  omega

theorem floorTo_eq_self (h : step ∣ t) : floorTo step t = t := by
  rw [floorTo, Int.emod_eq_zero_of_dvd h, Int.sub_zero]

/-- Between two neighbours of the grid there is no further point of it. -/
theorem le_of_lt_add (h : 0 < step) (ht : step ∣ t) (hu : step ∣ u) (hlt : t < u + step) : t ≤ u := by
  obtain ⟨a, rfl⟩ := ht
  obtain ⟨b, rfl⟩ := hu
  have hab : a < b + 1 := by
    apply lt_of_mul_lt_mul_left _ h.le
    linarith [mul_add step b 1, mul_one step]
  exact mul_le_mul_of_nonneg_left (by omega) h.le

theorem floorTo_eq_iff (h : 0 < step) (hu : step ∣ u) : floorTo step t = u ↔ u ≤ t ∧ t < u + step := by
  constructor
  · rintro rfl
    exact ⟨floorTo_le h, lt_floorTo_add h⟩
  · rintro ⟨hle, hlt⟩
    apply le_antisymm
    · exact le_of_lt_add h dvd_floorTo hu ((floorTo_le h).trans_lt hlt)
    · exact le_of_lt_add h hu dvd_floorTo (hle.trans_lt (lt_floorTo_add h))

/-- A point of the grid is not after an instant if it is not after its floor. -/
theorem le_floorTo_iff (h : 0 < step) (hu : step ∣ u) : u ≤ floorTo step t ↔ u ≤ t := by
  constructor
  · intro hle
    exact hle.trans (floorTo_le h)
  · intro hle
    exact le_of_lt_add h hu dvd_floorTo (hle.trans_lt (lt_floorTo_add h))

theorem truncate_eq (h : 0 < step) : truncate t step = floorTo step (t + sinceZero) - sinceZero := by
  rw [truncate, if_neg h.not_ge, floorTo]
  omega

theorem dvd_truncate_add (h : 0 < step) : step ∣ truncate t step + sinceZero := by
  rw [truncate_eq h, sub_add_cancel]
  exact dvd_floorTo

theorem le_truncate_iff (h : 0 < step) (hu : step ∣ u + sinceZero) : u ≤ truncate t step ↔ u ≤ t := by
  rw [truncate_eq h, le_sub_iff_add_le, le_floorTo_iff h hu, add_le_add_iff_right]

theorem truncate_le (h : 0 < step) : truncate t step ≤ t := (le_truncate_iff h (dvd_truncate_add h)).mp le_rfl

theorem lt_truncate_add (h : 0 < step) : t < truncate t step + step := by
  have := lt_floorTo_add (t := t + sinceZero) h
  rw [truncate_eq h]
  omega

/-- The two grids agree if the step divides the time between their origins. -/
theorem truncate_eq_floorTo (h : 0 < step) (hzero : step ∣ sinceZero) : truncate t step = floorTo step t := by
  rw [truncate, if_neg h.not_ge, floorTo, Int.add_emod, Int.emod_eq_zero_of_dvd hzero, add_zero, Int.emod_emod]

theorem dvd_sinceZero (h : step ∣ day) : step ∣ sinceZero := h.mul_left _

end Instants
