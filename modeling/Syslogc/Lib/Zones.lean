-- SUMMARY: Time zones: what clocks show, and the instant of a date.
import Syslogc.Lib.Dates

/-!
# Time zones

A zone has an offset from UTC at every instant. Go's `time.Date` looks for the instant at
which the clocks of a zone show a given time: it tries the offset that the zone has when the
time is taken for UTC, and if that is not valid at the instant it leads to, the offset there.
Around a change of the clocks there may be no such instant.
-/

namespace Calendar

/-- A time zone, in seconds. -/
structure Location where
  /-- The offset from UTC at an instant. -/
  offset : Int → Int
  /-- Whether the second instant lies in the period that the offset of the first is valid for. -/
  sameOffset : Int → Int → Bool
  offset_eq : ∀ {s s'}, sameOffset s s' = true → offset s' = offset s
  offset_lt : ∀ s, -86400 < offset s ∧ offset s < 86400

namespace Location

def utc : Location := ⟨fun _ => 0, fun _ _ => true, fun _ => rfl, fun _ => by decide⟩

variable (loc : Location)

/-- The instant that `time.Date` takes for a time on the wall, both in seconds. -/
def toUTC (wall : Int) : Int :=
  let offset := loc.offset wall
  if offset ≠ 0 then
    if loc.sameOffset wall (wall - offset) then wall - offset else wall - loc.offset (wall - offset)
  else wall

/-- A date and a time of day, in seconds; days that the month does not have are counted on. -/
def wallTime (year : Int) (month day hour minute second : Nat) : Int :=
  daysOf year month day * 86400 + (hour * 3600 + minute * 60 + second)

/-- `time.Date`. -/
def date (year : Int) (month day hour minute second nsec : Nat) : Int :=
  loc.toUTC (wallTime year month day hour minute second) * 1000000000 + nsec

/-- What the clocks and the calendar of the zone show at an instant, in seconds. -/
def wallAt (t : Int) : Int := t / 1000000000 + loc.offset (t / 1000000000)

/-- The year, as `Time.In` and `Time.Year` give it. -/
def yearAt (t : Int) : Int := (civil (loc.wallAt t / 86400)).1

/-- A month, a day of the month and a time of day. -/
structure Reading where
  month : Nat
  day : Nat
  hour : Nat
  minute : Nat
  second : Nat
deriving DecidableEq, Repr

/-- What an instant reads in the zone. -/
def read (t : Int) : Reading :=
  let wall := loc.wallAt t
  let seconds := (wall % 86400).toNat
  ⟨(civil (wall / 86400)).2.1, (civil (wall / 86400)).2.2, seconds / 3600, seconds / 60 % 60, seconds % 60⟩

/-- The clocks of the zone show the time at the instant that `time.Date` takes for it. -/
def Shows (wall : Int) : Prop := loc.toUTC wall + loc.offset (loc.toUTC wall) = wall

/-- The instant that is taken is not further away than an offset. -/
theorem toUTC_near (wall : Int) : -86400 < wall - loc.toUTC wall ∧ wall - loc.toUTC wall < 86400 := by
  have hfirst := loc.offset_lt wall
  have hsecond := loc.offset_lt (wall - loc.offset wall)
  simp only [toUTC]
  split
  · split <;> omega
  · omega

/-- The time that an instant shows is near the one that it was taken for. -/
theorem wallAt_date_near (year : Int) (month day hour minute second : Nat) {nsec : Nat} (hnsec : nsec < 1000000000) :
    loc.wallAt (loc.date year month day hour minute second nsec) =
      loc.toUTC (wallTime year month day hour minute second) +
        loc.offset (loc.toUTC (wallTime year month day hour minute second)) := by
  have hdiv : loc.date year month day hour minute second nsec / 1000000000 =
      loc.toUTC (wallTime year month day hour minute second) := by
    unfold date
    omega
  rw [wallAt, hdiv]

variable {loc}

/-- Two times with the same month, day and time of day are the same, or a year apart. -/
theorem year_eq_of_near {year year' : Int} (month day : Nat) (seconds : Int)
    (h : -172800 < daysOf year' month day * 86400 + seconds - (daysOf year month day * 86400 + seconds) ∧
      daysOf year' month day * 86400 + seconds - (daysOf year month day * 86400 + seconds) < 172800) :
    year' = year := by
  rcases lt_trichotomy year' year with hlt | heq | hgt
  · have := daysOf_of_lt hlt month day
    omega
  · exact heq
  · have := daysOf_of_lt hgt month day
    omega

/-- The time of day, from its parts. -/
theorem read_parts {hour minute second : Nat} (hhour : hour ≤ 23) (hminute : minute ≤ 59) (hsecond : second ≤ 59)
    (days : Int) :
    (days * 86400 + (hour * 3600 + minute * 60 + second) : Int) / 86400 = days ∧
      ((days * 86400 + (hour * 3600 + minute * 60 + second) : Int) % 86400).toNat = hour * 3600 + minute * 60 + second ∧
      (hour * 3600 + minute * 60 + second) / 3600 = hour ∧ (hour * 3600 + minute * 60 + second) / 60 % 60 = minute ∧
      (hour * 3600 + minute * 60 + second) % 60 = second := by
  omega

theorem read_date_iff (loc : Location) (year : Int) {month day hour minute second nsec : Nat}
    (hmonth : 1 ≤ month ∧ month ≤ 12)
    (hday : 1 ≤ day) (hhour : hour ≤ 23) (hminute : minute ≤ 59) (hsecond : second ≤ 59) (hnsec : nsec < 1000000000) :
    loc.read (loc.date year month day hour minute second nsec) = ⟨month, day, hour, minute, second⟩ ↔
      day ≤ daysIn month year ∧ loc.Shows (wallTime year month day hour minute second) := by
  have hwall := loc.wallAt_date_near year month day hour minute second hnsec
  have hnear := loc.toUTC_near (wallTime year month day hour minute second)
  have hoffset := loc.offset_lt (loc.toUTC (wallTime year month day hour minute second))
  obtain ⟨hdays, hseconds, hh, hmin, hsec⟩ := read_parts hhour hminute hsecond (daysOf year month day)
  constructor
  · intro hread
    simp only [read, Reading.mk.injEq] at hread
    generalize loc.wallAt (loc.date year month day hour minute second nsec) = wall at hwall hread
    obtain ⟨hdate, hnumber⟩ := daysOf_civil (wall / 86400)
    obtain ⟨hm, hd, hparts⟩ := hread
    rw [hm, hd] at hdate hnumber
    have hsplit : wall = daysOf (civil (wall / 86400)).1 month day * 86400 + (hour * 3600 + minute * 60 + second) := by
      omega
    have hyear : (civil (wall / 86400)).1 = year := by
      apply year_eq_of_near month day (hour * 3600 + minute * 60 + second)
      unfold wallTime at hwall hnear hoffset
      omega
    rw [hyear] at hdate hsplit
    refine ⟨hdate.day_le, ?_⟩
    unfold Shows
    rw [← hwall]
    exact hsplit
  · rintro ⟨hle, hshows⟩
    rw [Shows] at hshows
    rw [hshows] at hwall
    simp only [read, hwall, wallTime, hdays, hseconds, hh, hmin, hsec,
      civil_daysOf ⟨hmonth.1, hmonth.2, hday, hle⟩]

/-- An instant of whole seconds, from its year and what it reads in UTC. -/
theorem utc_date_read {t : Int} (h : t % 1000000000 = 0) :
    utc.date (utc.yearAt t) (utc.read t).month (utc.read t).day (utc.read t).hour (utc.read t).minute
      (utc.read t).second 0 = t := by
  have hdays := (daysOf_civil (utc.wallAt t / 86400)).2
  have hwall : utc.wallAt t = t / 1000000000 := add_zero _
  have hutc (wall : Int) : utc.toUTC wall = wall := rfl
  simp only [date, hutc, wallTime, yearAt, read]
  rw [hdays, hwall]
  omega

/-- The year of an instant contains it. -/
theorem utc_yearAt_bounds (t : Int) :
    daysOf (utc.yearAt t) 1 1 * 86400000000000 ≤ t ∧ t < daysOf (utc.yearAt t + 1) 1 1 * 86400000000000 := by
  obtain ⟨hdate, hdays⟩ := daysOf_civil (utc.wallAt t / 86400)
  have hyear := hdate.in_year
  rw [hdays] at hyear
  have hwall : utc.wallAt t = t / 1000000000 := add_zero _
  rw [hwall] at hyear
  rw [yearAt, hwall]
  omega

/-- What the clocks show is a date and a time of day. -/
theorem read_bounds (loc : Location) (t : Int) :
    1 ≤ (loc.read t).month ∧ (loc.read t).month ≤ 12 ∧ 1 ≤ (loc.read t).day ∧ (loc.read t).day ≤ 31 ∧
      (loc.read t).hour ≤ 23 ∧ (loc.read t).minute ≤ 59 ∧ (loc.read t).second ≤ 59 := by
  obtain ⟨hdate, -⟩ := daysOf_civil (loc.wallAt t / 86400)
  have hday := hdate.day_le.trans (daysIn_le _ _)
  have hseconds : (loc.wallAt t % 86400).toNat < 86400 := by omega
  refine ⟨hdate.month_pos, hdate.month_le, hdate.day_pos, hday, ?_, ?_, ?_⟩ <;> dsimp only [read] <;> omega

end Location

end Calendar
