-- SUMMARY: Instants on the calendar, and their RFC 3339 text.
import Syslogc.Lib.Decimal
import Syslogc.Lib.Instants

/-!
# The calendar
-/

namespace Calendar

open Instants

/-- The year, month and day of a day, counted from 1 January 1970. Years are counted from
March, so that a leap day is the last day of its year. -/
def civil (days : Int) : Int × Nat × Nat :=
  let z := days + 719468
  let era := z / 146097
  let doe := (z % 146097).toNat
  let yoe := (doe - doe / 1460 + doe / 36524 - doe / 146096) / 365
  let doy := doe - (365 * yoe + yoe / 4 - yoe / 100)
  let mp := (5 * doy + 2) / 153
  let month := if mp < 10 then mp + 3 else mp - 9
  (era * 400 + yoe + (if month ≤ 2 then 1 else 0), month, doy - (153 * mp + 2) / 5 + 1)

/-- A number with a sign, and zeros up to a width. -/
def signed (width : Nat) (i : Int) : Bytes :=
  if i < 0 then 45 :: Decimal.padded width i.natAbs else Decimal.padded width i.natAbs

/-- The fraction of a second, without trailing zeros. -/
def fraction (ns : Nat) : Bytes :=
  if ns = 0 then [] else 46 :: ((Decimal.padded 9 ns).reverse.dropWhile (· = 48)).reverse

/-- Go's layout `time.RFC3339Nano`, of an instant in UTC. -/
def rfc3339Nano (t : Int) : Bytes :=
  let (year, month, dayOfMonth) := civil (t / day)
  let ns := (t % day).toNat
  let seconds := ns / 1000000000
  signed 4 year ++ 45 :: Decimal.padded 2 month ++ 45 :: Decimal.padded 2 dayOfMonth ++ 84 ::
    Decimal.padded 2 (seconds / 3600) ++ 58 :: Decimal.padded 2 (seconds / 60 % 60) ++ 58 ::
    Decimal.padded 2 (seconds % 60) ++ fraction (ns % 1000000000) ++ [90]

/-- A digit, or one of the marks and letters between the numbers. -/
def isMark (c : UInt8) : Bool := Decimal.isDigit c || c = 45 || c = 46 || c = 58 || c = 84 || c = 90

theorem isMark_of_isDigit {c : UInt8} (h : Decimal.isDigit c = true) : isMark c = true := by
  simp [isMark, h]

theorem isMark_of_mem_padded {c : UInt8} {width n : Nat} (h : c ∈ Decimal.padded width n) : isMark c = true :=
  isMark_of_isDigit (Decimal.isDigit_of_mem_padded h)

theorem isMark_of_mem {t : Int} {c : UInt8} (h : c ∈ rfc3339Nano t) : isMark c = true := by
  have hsigned {width : Nat} {i : Int} (hc : c ∈ signed width i) : isMark c = true := by
    unfold signed at hc
    split at hc
    · obtain rfl | hc := List.mem_cons.mp hc
      · rfl
      · exact isMark_of_mem_padded hc
    · exact isMark_of_mem_padded hc
  have hfraction {ns : Nat} (hc : c ∈ fraction ns) : isMark c = true := by
    unfold fraction at hc
    split at hc
    · cases hc
    · obtain rfl | hc := List.mem_cons.mp hc
      · rfl
      · have hmem := (List.dropWhile_sublist _).subset (List.mem_reverse.mp hc)
        exact isMark_of_mem_padded (List.mem_reverse.mp hmem)
  simp only [rfc3339Nano, List.mem_append, List.mem_cons, List.not_mem_nil, or_false] at h
  rcases h with ((((((hc | rfl | hc) | rfl | hc) | rfl | hc) | rfl | hc) | rfl | hc) | hc) | rfl
  all_goals first | rfl | exact hsigned hc | exact hfraction hc | exact isMark_of_mem_padded hc

end Calendar
