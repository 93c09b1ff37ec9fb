-- SUMMARY: Time ranges of requests, and their bucket steps.
import Syslogc.Storage.Backend

/-!
# Time ranges

A request gives the ends of its range as RFC 3339 times or relative to the clock.
`chooseStep` picks the size of the buckets of a chart from a fixed ladder.
-/

namespace Syslogc.Query

open Instants Fallible

/-- What the code calls of the standard library about times. -/
structure GoTime where
  /-- A time zone. -/
  Location : Type
  utc : Location
  /-- `time.LoadLocation`. -/
  loadLocation : Bytes → Option Location
  /-- `time.Parse(time.RFC3339Nano, s)`. -/
  parse : Bytes → Option Int
  /-- The start of the hour, the day and the week from Monday, on the calendar of a zone. -/
  startOfHour : Location → Int → Int
  startOfDay : Location → Int → Int
  startOfWeek : Location → Int → Int
  /-- `strconv.Atoi`. -/
  atoi : Bytes → Option Int
  /-- `strconv.Quote`. -/
  quote : Bytes → Bytes

structure TimeRange where
  fromText : Bytes
  toText : Bytes
  tz : Bytes := []
deriving DecidableEq, Repr

variable (gt : GoTime)

/-- The units of a relative time by their letters. -/
def relUnit : Option UInt8 → Option Int
  | some 115 => some second
  | some 109 => some minute
  | some 104 => some hour
  | some 100 => some day
  | some 119 => some (7 * day)
  | _ => none

/-- The product is one of `time.Duration` and wraps around at 64 bits. -/
def parseRelDuration (s : Bytes) : Except Bytes Int :=
  if s.length < 2 then .error (utf8 "missing amount or unit")
  else
    match gt.atoi s.dropLast with
    | none => .error (utf8 "invalid amount")
    | some n =>
      if n < 0 ∨ 100000 < n then .error (utf8 "invalid amount")
      else
        match relUnit s.getLast? with
        | some unit => .ok (Int.bmod (n * unit) (2 ^ 64))
        | none => .error (utf8 "unknown unit " ++ gt.quote s.getLast?.toList)

/-- What follows `now`: a shift and a unit to round down to. -/
def parseShift (s expr : Bytes) (now : Int) : Except Bytes Int :=
  let invalid := utf8 "invalid relative expression " ++ gt.quote s
  match expr with
  | [] => .ok now
  | sign :: amount =>
    if sign ≠ 43 ∧ sign ≠ 45 then .error invalid
    else
      match parseRelDuration gt amount with
      | .error e => .error (invalid ++ utf8 ": " ++ e)
      | .ok d => .ok (if sign = 45 then now - d else now + d)

def roundDown (loc : gt.Location) (unit : Bytes) (t : Int) : Except Bytes Int :=
  if unit = [] then .ok t
  else if unit = utf8 "m" then .ok (truncate t minute)
  else if unit = utf8 "h" then .ok (gt.startOfHour loc t)
  else if unit = utf8 "d" then .ok (gt.startOfDay loc t)
  else if unit = utf8 "w" then .ok (gt.startOfWeek loc t)
  else .error (utf8 "invalid rounding unit " ++ gt.quote unit)

/-- RFC 3339, or `now[(+|-)<n><unit>][/<unit>]`. -/
def parseTime (s : Bytes) (now : Int) (loc : gt.Location) : Except Bytes Int :=
  let s := s.trimSpace
  if s = [] then .error (utf8 "value is required")
  else
    match Bytes.cutPrefix (utf8 "now") s with
    | none =>
      get (utf8 "want RFC 3339 or a relative expression like now-1h, got " ++ gt.quote s) (gt.parse s)
    | some rest => do
      let (expr, unit) := (Bytes.cut 47 rest).getD (rest, [])
      roundDown gt loc unit (← parseShift gt s expr now)

def resolveLocation (tz : Bytes) : Except Bytes gt.Location :=
  if tz = [] then .ok gt.utc else get (utf8 "invalid timezone " ++ gt.quote tz) (gt.loadLocation tz)

/-- `Resolve`: the absolute range of a request. -/
def resolveRange (tr : TimeRange) (now : Int) : Except Bytes (VictoriaLogs.TimeRange × gt.Location) := do
  let loc ← resolveLocation gt tr.tz
  let start ← (parseTime gt tr.fromText now loc).mapError (utf8 "invalid from: " ++ ·)
  let stop ← (parseTime gt tr.toText now loc).mapError (utf8 "invalid to: " ++ ·)
  ensure (start < stop) (utf8 "from must be before to")
  return (⟨start, stop⟩, loc)

/-! ## Steps -/

def week : Int := 7 * day

/-- The sizes a bucket can have. -/
def stepLadder : List Int :=
  [second, 5 * second, 10 * second, 30 * second, minute, 5 * minute, 10 * minute, 15 * minute, 30 * minute,
    hour, 3 * hour, 6 * hour, 12 * hour, day, week]

/-- The largest value of a `time.Duration`, at which a difference of times is held. -/
def maxDuration : Int := 2 ^ 63 - 1

/-- `End.Sub(Start)`. -/
def span (r : VictoriaLogs.TimeRange) : Int := max (-2 ^ 63) (min maxDuration (r.stop - r.start))

/-- The smallest step of the ladder that makes at most so many buckets. -/
def chooseStep (r : VictoriaLogs.TimeRange) (maxBuckets : Int) : Int :=
  (stepLadder.find? fun s => decide ((span r).tdiv s < maxBuckets)).getD week

def formatStep (d : Int) : Bytes :=
  if d % day = 0 then utf8 (toString (d / day)) ++ utf8 "d"
  else if d % hour = 0 then utf8 (toString (d / hour)) ++ utf8 "h"
  else if d % minute = 0 then utf8 (toString (d / minute)) ++ utf8 "m"
  else utf8 (toString (d / second)) ++ utf8 "s"

/-- Every step but the last of the ladder divides a day, and all are whole seconds. -/
theorem stepLadder_dvd : ∀ s ∈ stepLadder, 0 < s ∧ second ∣ s ∧ (s = week ∨ s ∣ day) := by decide

theorem chooseStep_mem (r : VictoriaLogs.TimeRange) (maxBuckets : Int) : chooseStep r maxBuckets ∈ stepLadder := by
  unfold chooseStep
  cases h : stepLadder.find? fun s => decide ((span r).tdiv s < maxBuckets) with
  | none => decide
  | some s => exact List.mem_of_find?_eq_some h

end Syslogc.Query
