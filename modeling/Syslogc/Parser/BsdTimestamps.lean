-- SUMMARY: What the timestamps of RFC 3164 messages are read as.
import Syslogc.Parser.Rfc3164

/-!
# BSD timestamps

A timestamp writes a month, a day and a time of day. The instant it is taken for is found
from these and from a year, which is written or inferred from the receive time.
-/

namespace Syslogc.Parser.Rfc3164

open Decimal Checked Calendar Instants Location

/-! ## Numbers -/

theorem atoi_eq (s : Bytes) : atoi s = .ok (digitsValue s) := fold_eq _ 0 s

theorem yields_atoi (s : Bytes) : Yields (atoi s) fun n => n = digitsValue s := by
  rw [atoi_eq]
  exact yields_ok rfl

theorem digitsValue_concat (ds : Bytes) (c : UInt8) : digitsValue (ds ++ [c]) = digitsValue ds * 10 + (c.toNat - 48) :=
  List.foldl_concat _ 0 c ds

theorem digitsValue_lt {ds : Bytes} (h : ∀ c ∈ ds, isDigit c = true) : digitsValue ds < 10 ^ ds.length := by
  induction ds using List.reverseRecOn with
  | nil => decide
  | append_singleton ds c ih =>
    have hds := ih fun d hd => h d (List.mem_append_left _ hd)
    have hc := h c (by simp)
    simp only [isDigit, Bool.and_eq_true, decide_eq_true_eq, UInt8.le_iff_toNat_le] at hc
    have hc9 : c.toNat ≤ 57 := hc.2
    rw [digitsValue_concat, List.length_append, List.length_singleton, pow_succ]
    omega

/-- A number in a given number of digits. -/
@[mk_iff]
structure Number (width : Nat) (ds : Bytes) (n : Nat) : Prop where
  length_eq : ds.length = width
  digits : ∀ c ∈ ds, isDigit c = true
  value : digitsValue ds = n

instance (width : Nat) (ds : Bytes) (n : Nat) : Decidable (Number width ds n) :=
  decidable_of_iff' _ (number_iff width ds n)

/-- Digits are followed by something else only in one way. -/
theorem digits_inj {ds ds' rest rest' : Bytes} {c c' : UInt8} (hds : ∀ d ∈ ds, isDigit d = true)
    (hds' : ∀ d ∈ ds', isDigit d = true) (hc : isDigit c = false) (hc' : isDigit c' = false)
    (h : ds ++ c :: rest = ds' ++ c' :: rest') : ds = ds' ∧ rest = rest' := by
  have htake := congrArg (List.takeWhile isDigit) h
  rw [List.takeWhile_append_of_pos hds, List.takeWhile_append_of_pos hds', List.takeWhile_cons_of_neg (by simp [hc]),
    List.takeWhile_cons_of_neg (by simp [hc']), List.append_nil, List.append_nil] at htake
  subst htake
  exact ⟨rfl, (List.cons.inj (List.append_cancel_left h)).2⟩

/-! ## What a timestamp writes -/

/-- A text writes a month, a day and a time of day, as "Mmm dd hh:mm:ss" with a year or
without one behind the day, and starts with it. -/
def Writes (s : Bytes) (w : Reading) : Prop :=
  ∃ month pad day year hour minute second rest,
    s = month ++ 32 :: (pad ++ (day ++ 32 :: (year ++ (hour ++ 58 :: (minute ++ 58 :: (second ++ rest)))))) ∧
    month.length = 3 ∧ monthOf month = w.month ∧ w.month ≠ 0 ∧ (pad = [] ∨ pad = [32]) ∧
    (∃ width, Number width day w.day ∧ 1 ≤ width ∧ width ≤ 2) ∧
    (year = [] ∨ ∃ digits n, year = digits ++ [32] ∧ Number 4 digits n) ∧
    Number 2 hour w.hour ∧ Number 2 minute w.minute ∧ Number 2 second w.second

theorem number_unique {width : Nat} {ds ds' rest rest' : Bytes} {n n' : Nat} (h : Number width ds n)
    (h' : Number width ds' n') (heq : ds ++ rest = ds' ++ rest') : n = n' ∧ rest = rest' := by
  obtain ⟨rfl, hrest⟩ := List.append_inj heq (h.length_eq.trans h'.length_eq.symm)
  exact ⟨h.value.symm.trans h'.value, hrest⟩

/-- A number does not start with a space. -/
theorem number_ne_space {width n : Nat} {ds tail more : Bytes} (h : Number width ds n) (hwidth : 1 ≤ width) :
    ds ++ tail ≠ 32 :: more := by
  intro heq
  cases ds with
  | nil => exact absurd h.length_eq (by simp; omega)
  | cons d ds =>
    have hdigit := h.digits d List.mem_cons_self
    rw [(List.cons.inj heq).1] at hdigit
    exact absurd hdigit (by decide)

/-- A year has four digits and an hour two. -/
theorem year_ne_hour {n h : Nat} {digits hour tail tail' : Bytes} (hdigits : Number 4 digits n)
    (hhour : Number 2 hour h) : digits ++ 32 :: tail ≠ hour ++ 58 :: tail' := by
  intro heq
  obtain ⟨rfl, -⟩ := digits_inj hdigits.digits hhour.digits (by decide) (by decide) heq
  exact absurd (hdigits.length_eq.symm.trans hhour.length_eq) (by decide)

variable {s : Bytes}

/-- A text writes one date and time. -/
theorem Writes.unique {w w' : Reading} (h : Writes s w) (h' : Writes s w') : w = w' := by
  obtain ⟨month, pad, day, year, hour, minute, second, rest, rfl, hmonth, hm, -, hpad, ⟨width, hday, hwidth, -⟩, hyear,
    hhour, hminute, hsecond⟩ := h
  obtain ⟨month', pad', day', year', hour', minute', second', rest', htext, hmonth', hm', -, hpad',
    ⟨width', hday', hwidth', -⟩, hyear', hhour', hminute', hsecond'⟩ := h'
  obtain ⟨rfl, hpadded⟩ := List.append_inj htext (hmonth.trans hmonth'.symm)
  replace hpadded := (List.cons.inj hpadded).2
  have hdays : day ++ 32 :: (year ++ (hour ++ 58 :: (minute ++ 58 :: (second ++ rest)))) =
      day' ++ 32 :: (year' ++ (hour' ++ 58 :: (minute' ++ 58 :: (second' ++ rest')))) := by
    rcases hpad with rfl | rfl <;> rcases hpad' with rfl | rfl
    · exact hpadded
    · exact absurd (show day ++ _ = 32 :: _ from hpadded) (number_ne_space hday hwidth)
    · exact absurd (show day' ++ _ = 32 :: _ from hpadded.symm) (number_ne_space hday' hwidth')
    · exact (List.cons.inj hpadded).2
  obtain ⟨hdayEq, hyears⟩ := digits_inj hday.digits hday'.digits (by decide) (by decide) hdays
  have hclock : hour ++ 58 :: (minute ++ 58 :: (second ++ rest)) =
      hour' ++ 58 :: (minute' ++ 58 :: (second' ++ rest')) := by
    rcases hyear with rfl | ⟨digits, n, rfl, hdigits⟩ <;> rcases hyear' with rfl | ⟨digits', n', rfl, hdigits'⟩
    · exact hyears
    · rw [List.nil_append, List.append_assoc] at hyears
      exact absurd hyears.symm (year_ne_hour hdigits' hhour)
    · rw [List.nil_append, List.append_assoc] at hyears
      exact absurd hyears (year_ne_hour hdigits hhour')
    · rw [List.append_assoc, List.append_assoc] at hyears
      exact (digits_inj hdigits.digits hdigits'.digits (by decide) (by decide) hyears).2
  obtain ⟨hh, hminutes⟩ := number_unique hhour hhour' hclock
  obtain ⟨hmin, hseconds⟩ := number_unique hminute hminute' (List.cons.inj hminutes).2
  obtain ⟨hsec, -⟩ := number_unique hsecond hsecond' (List.cons.inj hseconds).2
  have hd := hday.value.symm.trans ((congrArg digitsValue hdayEq).trans hday'.value)
  cases w
  cases w'
  simp only at hm hm' hd hh hmin hsec
  simp only [← hm, ← hm', hd, hh, hmin, hsec]

/-! ## What is accepted -/

theorem yields_skipByte (c : UInt8) {pos : Nat} (h : pos ≤ s.length) :
    Yields (skipByte c s pos) fun j => pos ≤ j ∧ j ≤ s.length := by
  refine (yields_isAt s pos c).bind fun b hb => Yields.ite (fun htrue => ?_) fun _ => yields_ok ⟨le_rfl, h⟩
  obtain ⟨hlt, -⟩ := hb htrue
  exact yields_ok ⟨by omega, hlt⟩

theorem yields_parseFraction {n : Nat} (hn : n ≤ s.length) :
    Yields (parseFraction s n) fun r => n ≤ r.2 ∧ r.2 ≤ s.length ∧ r.1 < 1000000000 := by
  unfold parseFraction
  refine (yields_isAt s n 46).bind fun dot hdot => Yields.ite (fun h => ?_) fun _ => yields_ok ⟨le_rfl, hn, by norm_num⟩
  obtain ⟨hlt, -⟩ := hdot h
  refine (yields_scan isDigit (by omega)).bind ?_
  rintro fEnd ⟨hle, hend, digits, hdigits, hall, -⟩
  refine Yields.ite (fun hlt => ?_) fun _ => yields_ok ⟨le_rfl, hn, by norm_num⟩
  refine (yields_slice hle hend).bind ?_
  rintro frac ⟨hfrac, -⟩
  obtain rfl := List.append_cancel_right (hdigits.symm.trans hfrac)
  have hshort : Yields (if digits.length > 9 then slice digits 0 9 else pure digits) fun ds =>
      ds.length ≤ 9 ∧ ∀ c ∈ ds, isDigit c = true := by
    refine Yields.ite (fun hlong => ?_) fun hshort => yields_ok ⟨by omega, hall⟩
    rw [slice_of_le (by omega) (by omega)]
    exact yields_ok ⟨by simp, fun c hc => hall c (List.mem_of_mem_take (List.mem_of_mem_drop hc))⟩
  refine hshort.bind ?_
  rintro ds ⟨hlen, hds⟩
  refine (yields_atoi ds).bind ?_
  rintro _ rfl
  refine yields_ok ⟨by omega, hend, ?_⟩
  have hlt := digitsValue_lt hds
  simp only [mul_right_iterate]
  calc digitsValue ds * 10 ^ (9 - ds.length) < 10 ^ ds.length * 10 ^ (9 - ds.length) :=
        Nat.mul_lt_mul_of_pos_right hlt (by positivity)
    _ = 10 ^ 9 := by rw [← pow_add, Nat.add_sub_cancel' hlen]
    _ = 1000000000 := by norm_num

/-- What a time of day is read from. -/
structure ClockText (s : Bytes) (k : Clock) (second : Nat) : Prop where
  text : ∃ hh mm ss rest, s = hh ++ 58 :: (mm ++ 58 :: (ss ++ rest)) ∧
    Number 2 hh k.hour ∧ Number 2 mm k.minute ∧ Number 2 ss second
  hour_le : k.hour ≤ 23
  minute_le : k.minute ≤ 59
  second_le : second ≤ 60
  second_eq : k.second = min second 59
  nsec_lt : k.nsec < 1000000000
  length_le : k.length ≤ s.length

/-- Two digits between two positions. -/
theorem number_of_drop {ds ds' : Bytes} {i : Nat} (hdigits : s.drop i = ds ++ s.drop (i + 2))
    (hall : ∀ c ∈ ds, isDigit c = true) (hslice : s.drop i = ds' ++ s.drop (i + 2)) (hlen : ds'.length = 2) :
    Number 2 ds' (digitsValue ds') := by
  obtain rfl := List.append_cancel_right (hdigits.symm.trans hslice)
  exact ⟨hlen, hall, rfl⟩

theorem attempts_parseClock (s : Bytes) : Attempts (parseClock s) fun k => ∃ second, ClockText s k second := by
  unfold parseClock
  refine (attempts_guard _).bind fun _ hlen => ?_
  refine (yields_index (by omega)).lift.bind fun c hc => (attempts_guard _).bind fun _ h => ?_
  obtain rfl := h
  refine (yields_index (by omega)).lift.bind fun c hc' => (attempts_guard _).bind fun _ h => ?_
  obtain rfl := h
  refine (yields_scan isDigit (by omega)).lift.bind ?_
  rintro j ⟨-, -, hh, hhour, hhours, -⟩
  refine (attempts_guard _).bind fun _ h => ?_
  obtain rfl := h
  refine (yields_scan isDigit (by omega)).lift.bind ?_
  rintro j ⟨-, -, mm, hminute, hminutes, -⟩
  refine (attempts_guard _).bind fun _ h => ?_
  obtain rfl := h
  refine (yields_scan isDigit (by omega)).lift.bind ?_
  rintro j ⟨-, -, ss, hsecond, hseconds, -⟩
  refine (attempts_guard _).bind fun _ h => ?_
  obtain rfl := h
  refine (yields_slice (by omega) (by omega)).lift.bind ?_
  rintro hh' ⟨hhour', hhlen⟩
  refine (yields_atoi _).lift.bind ?_
  rintro _ rfl
  refine (yields_slice (by omega) (by omega)).lift.bind ?_
  rintro mm' ⟨hminute', hmlen⟩
  refine (yields_atoi _).lift.bind ?_
  rintro _ rfl
  refine (yields_slice (by omega) (by omega)).lift.bind ?_
  rintro ss' ⟨hsecond', hslen⟩
  refine (yields_atoi _).lift.bind ?_
  rintro _ rfl
  refine (attempts_guard _).bind fun _ hrange => ?_
  refine (yields_parseFraction (by omega)).lift.bind ?_
  rintro ⟨nsec, n⟩ ⟨-, hn, hnsec⟩
  have htext : s = hh' ++ 58 :: (mm' ++ 58 :: (ss' ++ s.drop 8)) := by
    rw [← hsecond', ← hc', ← hminute', ← hc, ← hhour']
    rfl
  have hhours := number_of_drop (i := 0) hhour hhours hhour' hhlen
  have hminutes := number_of_drop (i := 3) hminute hminutes hminute' hmlen
  have hseconds := number_of_drop (i := 6) hsecond hseconds hsecond' hslen
  simp only [not_or, not_lt] at hrange
  obtain ⟨hhourLe, hminuteLe, hsecondLe⟩ := hrange
  have hclock (second nsec : Nat) (hsecond : second = min (digitsValue ss') 59) (hnsec : nsec < 1000000000) :
      ClockText s ⟨digitsValue hh', digitsValue mm', second, nsec, n⟩ (digitsValue ss') :=
    ⟨⟨_, _, _, _, htext, hhours, hminutes, hseconds⟩, hhourLe, hminuteLe, hsecondLe, hsecond, hnsec, hn⟩
  dsimp only
  split
  · exact attempts_pure ⟨_, hclock _ _ (by omega) (by norm_num)⟩
  · exact attempts_pure ⟨_, hclock _ _ (by omega) hnsec⟩

theorem yields_leadingYear {pos : Nat} (hpos : pos ≤ s.length) :
    Yields (leadingYear s pos) fun r => pos ≤ r.2 ∧ r.2 ≤ s.length ∧
      ∃ year, s.drop pos = year ++ s.drop r.2 ∧
        (year = [] ∨ ∃ digits n, year = digits ++ [32] ∧ Number 4 digits n) := by
  unfold leadingYear
  refine (yields_scan isDigit hpos).bind ?_
  rintro yEnd ⟨hle, hend, digits, hdigits, hall, -⟩
  refine (yields_andAlso fun _ => yields_isAt s yEnd 32).bind fun b hb => Yields.ite (fun h => ?_) fun _ =>
    yields_ok ⟨le_rfl, hpos, [], rfl, .inl rfl⟩
  obtain ⟨hlen, hlt, hspace⟩ := hb h
  refine (yields_slice hle hend).bind ?_
  rintro year ⟨hslice, hyear⟩
  obtain rfl := List.append_cancel_right (hdigits.symm.trans hslice)
  refine (yields_atoi _).bind ?_
  rintro _ rfl
  refine yields_ok ⟨by omega, by omega, digits ++ [32], ?_, .inr ⟨digits, _, rfl, by omega, hall, rfl⟩⟩
  rw [hdigits, hspace, List.append_assoc]
  rfl

theorem yields_trailingYear {pos : Nat} (year : Nat) (hpos : pos ≤ s.length) :
    Yields (trailingYear s year pos) fun r => pos ≤ r.2 ∧ r.2 ≤ s.length := by
  unfold trailingYear
  have hspace : Yields (andAlso (year = 0 ∧ pos + 5 ≤ s.length) ((fun c => decide (c = 32)) <$> index s pos)) fun b =>
      b = true → (year = 0 ∧ pos + 5 ≤ s.length) ∧ True := by
    apply yields_andAlso
    rintro ⟨-, h⟩
    rw [index_of_lt (by omega)]
    exact yields_ok fun _ => trivial
  refine hspace.bind fun b hb => Yields.ite (fun h => ?_) fun _ => yields_ok ⟨le_rfl, hpos⟩
  obtain ⟨⟨-, hlen⟩, -⟩ := hb h
  refine (yields_scan isDigit (by omega)).bind ?_
  rintro yEnd ⟨hle, hend, -⟩
  have hstop : Yields (andAlso (yEnd - pos - 1 = 4)
      (orElse (yEnd = s.length) ((fun c => decide (c = 32)) <$> index s yEnd)))
      fun b => b = true → yEnd - pos - 1 = 4 ∧ True := by
    apply yields_andAlso
    intro _
    refine Yields.ite (fun _ => yields_ok fun _ => trivial) fun hne => ?_
    rw [index_of_lt (by omega)]
    exact yields_ok fun _ => trivial
  refine hstop.bind fun b _ => Yields.ite (fun _ => ?_) fun _ => yields_ok ⟨le_rfl, hpos⟩
  refine (yields_slice hle hend).bind fun ds _ => (yields_atoi ds).bind fun _ _ => yields_ok ⟨by omega, hend⟩

theorem yields_parseZone {pos : Nat} (hpos : pos ≤ s.length) :
    Yields (parseZone s pos) fun r => pos ≤ r.2 ∧ r.2 ≤ s.length := by
  unfold parseZone
  refine (yields_isAt s pos 32).bind fun b hb => Yields.ite (fun h => ?_) fun _ => yields_ok ⟨le_rfl, hpos⟩
  obtain ⟨hlt, -⟩ := hb h
  refine (yields_scanTo isCapital (pos + 6) (by omega)).bind ?_
  rintro zEnd ⟨hle, hend⟩
  refine (yields_slice hle hend).bind fun z _ => ?_
  refine (yields_andAlso fun _ => yields_isAt s zEnd 58).bind fun b _ => ?_
  exact Yields.ite (fun _ => yields_ok ⟨by omega, hend⟩) fun _ => yields_ok ⟨le_rfl, hpos⟩

theorem monthOf_le (s : Bytes) : monthOf s ≤ 12 := by
  unfold monthOf
  split
  · rename_i i hi
    have : i < months.length := (List.findIdx?_eq_some_iff_getElem.mp hi).1
    have : months.length = 12 := rfl
    omega
  · omega

/-- What the parts of a timestamp are read from; a leap second is read as the second before it. -/
structure StampText (s : Bytes) (b : Stamp) (w : Reading) : Prop where
  writes : Writes s w
  month_eq : b.month = w.month
  day_eq : b.day = w.day
  hour_eq : b.clock.hour = w.hour
  minute_eq : b.clock.minute = w.minute
  second_eq : b.clock.second = min w.second 59
  month_pos : 1 ≤ w.month
  month_le : w.month ≤ 12
  day_pos : 1 ≤ w.day
  hour_le : w.hour ≤ 23
  minute_le : w.minute ≤ 59
  second_le : w.second ≤ 60
  nsec_lt : b.clock.nsec < 1000000000
  length_le : b.length ≤ s.length

theorem attempts_readBSD (s : Bytes) : Attempts (readBSD s) fun b => ∃ w, StampText s b w := by
  unfold readBSD
  refine (attempts_guard _).bind fun _ hlen => ?_
  refine (yields_index (by omega)).lift.bind fun c hspace => (attempts_guard _).bind fun _ h => ?_
  obtain rfl := h
  refine (yields_slice (by omega) (by omega)).lift.bind ?_
  rintro month ⟨hmonth, hmonthLen⟩
  refine (attempts_guard _).bind fun _ hmonthNe => ?_
  refine (yields_index (by omega)).lift.bind fun c hpad => ?_
  obtain ⟨pad, pos, hpos, hpadded, hpads, hposLe⟩ : ∃ pad pos, (if c = 32 then 5 else 4) = pos ∧
      s.drop 4 = pad ++ s.drop pos ∧ (pad = [] ∨ pad = [32]) ∧ pos ≤ 5 := by
    by_cases hc : c = 32
    · exact ⟨[32], 5, if_pos hc, by rw [hpad, hc]; rfl, .inr rfl, le_rfl⟩
    · exact ⟨[], 4, if_neg hc, rfl, .inl rfl, by omega⟩
  simp only [hpos]
  refine (yields_scan isDigit (by omega)).lift.bind ?_
  rintro dayEnd ⟨hle, hend, day, hday, hdays, -⟩
  refine (attempts_guard _).bind fun _ hwidth => ?_
  refine (yields_index (by omega)).lift.bind fun c hafter => (attempts_guard _).bind fun _ h => ?_
  obtain rfl := h
  refine (yields_slice hle hend).lift.bind ?_
  rintro day' ⟨hday', hdayLen⟩
  obtain rfl := List.append_cancel_right (hday.symm.trans hday')
  refine (yields_atoi _).lift.bind ?_
  rintro _ rfl
  refine (yields_leadingYear (by omega)).lift.bind ?_
  rintro ⟨lead, clockPos⟩ ⟨-, hclockPos, year, hyear, hyears⟩
  dsimp only at hclockPos hyear
  dsimp only
  refine (yields_suffix hclockPos).lift.bind ?_
  rintro _ rfl
  refine (attempts_parseClock _).bind ?_
  rintro k ⟨second, hclock⟩
  obtain ⟨hour, minute, secondText, rest, htext, hhour, hminute, hsecond⟩ := hclock.text
  have hclockLen := hclock.length_le
  rw [List.length_drop] at hclockLen
  refine (attempts_guard _).bind fun _ hdayRange => ?_
  refine (yields_trailingYear lead (by omega)).lift.bind ?_
  rintro ⟨yr, zonePos⟩ ⟨-, hzonePos⟩
  refine (yields_parseZone hzonePos).lift.bind ?_
  rintro ⟨utc, colonPos⟩ ⟨-, hcolonPos⟩
  dsimp only at hcolonPos
  refine (yields_skipByte 58 hcolonPos).lift.bind ?_
  rintro stop ⟨-, hstop⟩
  apply attempts_pure
  have hmonthLe := monthOf_le month
  have hdayPos : 1 ≤ digitsValue day := by omega
  refine ⟨⟨monthOf month, digitsValue day, k.hour, k.minute, second⟩, ?_, rfl, rfl, rfl, rfl, hclock.second_eq,
    Nat.one_le_iff_ne_zero.mpr hmonthNe, hmonthLe, hdayPos, hclock.hour_le, hclock.minute_le, hclock.second_le,
    hclock.nsec_lt, hstop⟩
  refine ⟨month, pad, day, year, hour, minute, secondText, rest, ?_, by omega, rfl, hmonthNe, hpads,
    ⟨day.length, ⟨rfl, hdays, rfl⟩, by omega, by omega⟩, hyears, hhour, hminute, hsecond⟩
  rw [← htext, ← hyear, ← hafter, ← hday, ← hpadded, ← hspace, ← hmonth]
  rfl

/-! ## The instant -/

/-- The year that is chosen for a timestamp: the one that is written, or one near the receive time. -/
def Stamp.chosenYear (go : GoLib) (b : Stamp) (loc : Location) (received : Int) : Int :=
  if b.year ≠ 0 then b.year
  else
    let received := if received = zeroTime then go.now else received
    let year := loc.yearAt received
    if b.date loc year > received + 7 * Instants.day then year - 1
    else if b.date loc year < received - 358 * Instants.day then year + 1
    else year

/-- The timestamp that was read, and the instant that was found for it. -/
theorem parseBSDTimestamp_eq_some {go : GoLib} {loc : Location} {received t : Int} {n : Nat}
    (h : (parseBSDTimestamp go s loc received).run = .ok (some (t, n))) :
    ∃ b, (readBSD s).run = .ok (some b) ∧ b.date (b.zone loc) (b.chosenYear go (b.zone loc) received) = t ∧
      b.length = n := by
  obtain ⟨o, hread, -⟩ := attempts_readBSD s
  rw [parseBSDTimestamp, OptionT.run_bind, hread] at h
  cases o with
  | none => cases h
  | some b =>
    refine ⟨b, hread, ?_⟩
    simp only [Option.elimM, ok_bind, Option.elim] at h
    by_cases hyear : b.year = 0
    · simp only [hyear, if_true] at h
      cases h
      refine ⟨?_, rfl⟩
      simp only [Stamp.chosenYear, hyear, ne_eq, not_true_eq_false, if_false, inferYear]
      split_ifs <;> rfl
    · simp only [hyear, if_false] at h
      cases h
      refine ⟨?_, rfl⟩
      rw [Stamp.chosenYear, if_pos hyear]

/-- What is read from the text is what the instant shows exactly if the text does not write
a leap second, the month has the day in the chosen year and the clocks of the zone show the
time at the instant that is taken for it. -/
theorem parseBSDTimestamp_reads_iff (go : GoLib) {s : Bytes} {loc : Location} {received t : Int} {n : Nat}
    (h : (parseBSDTimestamp go s loc received).run = .ok (some (t, n))) :
    ∃ b w, (readBSD s).run = .ok (some b) ∧ Writes s w ∧ (∀ w', Writes s w' → w' = w) ∧
      let zone := b.zone loc
      let year := b.chosenYear go zone received
      b.date zone year = t ∧
        (zone.read t = w ∧ w.day ≤ daysIn w.month year ↔
          w.second ≠ 60 ∧ w.day ≤ daysIn w.month year ∧
            zone.Shows (wallTime year w.month w.day w.hour w.minute w.second)) := by
  obtain ⟨b, hread, ht, -⟩ := parseBSDTimestamp_eq_some h
  obtain ⟨o, hread', ho⟩ := attempts_readBSD s
  obtain rfl := Except.ok.inj (hread.symm.trans hread')
  obtain ⟨w, hw⟩ := ho b rfl
  refine ⟨b, w, hread, hw.writes, fun w' hw' => hw'.unique hw.writes, ht, ?_⟩
  by_cases hsixty : w.second = 60
  · constructor
    · rintro ⟨hreads, -⟩
      have := (read_bounds (b.zone loc) t).2.2.2.2.2.2
      rw [hreads] at this
      omega
    · rintro ⟨hne, -⟩
      exact absurd hsixty hne
  · have hsecond : b.clock.second = w.second := by
      have := hw.second_eq
      have := hw.second_le
      omega
    have hle : w.second ≤ 59 := by
      have := hw.second_le
      omega
    have hiff := read_date_iff (b.zone loc) (b.chosenYear go (b.zone loc) received) ⟨hw.month_pos, hw.month_le⟩
      hw.day_pos hw.hour_le hw.minute_le hle hw.nsec_lt
    rw [← ht, Stamp.date, hw.month_eq, hw.day_eq, hw.hour_eq, hw.minute_eq, hsecond, hiff]
    constructor
    · rintro ⟨⟨hday, hshows⟩, -⟩
      exact ⟨hsixty, hday, hshows⟩
    · rintro ⟨-, hday, hshows⟩
      exact ⟨⟨hday, hshows⟩, hday⟩

/-- A library that knows no other timestamps, and what its clock shows. -/
def plainGo (now : Int) : GoLib :=
  { parseTime := fun _ => none, toUpper := id, parseInLocation := fun _ _ => none, now }

theorem reads_iff_new_year :
    (parseBSDTimestamp (plainGo 0) (utf8 "Dec 31 23:59:59") utc 1767225600000000000).run =
        .ok (some (utc.date 2025 12 31 23 59 59 0, 15)) ∧
      ∃ b w, (readBSD (utf8 "Dec 31 23:59:59")).run = .ok (some b) ∧ Writes (utf8 "Dec 31 23:59:59") w ∧
        (∀ w', Writes (utf8 "Dec 31 23:59:59") w' → w' = w) ∧
        let zone := b.zone utc
        let year := b.chosenYear (plainGo 0) zone 1767225600000000000
        b.date zone year = utc.date 2025 12 31 23 59 59 0 ∧
          (zone.read (utc.date 2025 12 31 23 59 59 0) = w ∧ w.day ≤ daysIn w.month year ↔
            w.second ≠ 60 ∧ w.day ≤ daysIn w.month year ∧
              zone.Shows (wallTime year w.month w.day w.hour w.minute w.second)) :=
  have haccepted : (parseBSDTimestamp (plainGo 0) (utf8 "Dec 31 23:59:59") utc 1767225600000000000).run =
      .ok (some (utc.date 2025 12 31 23 59 59 0, 15)) := by decide +kernel
  ⟨haccepted, parseBSDTimestamp_reads_iff (plainGo 0) haccepted⟩

/-- 30 February is accepted, and taken for 2 March. -/
theorem february_thirtieth :
    Writes (utf8 "Feb 30 10:00:00") ⟨2, 30, 10, 0, 0⟩ ∧
      (parseBSDTimestamp (plainGo 0) (utf8 "Feb 30 10:00:00") utc 1772582400000000000).run =
        .ok (some (utc.date 2026 3 2 10 0 0 0, 15)) ∧
      utc.read (utc.date 2026 3 2 10 0 0 0) = ⟨3, 2, 10, 0, 0⟩ := by
  refine ⟨?_, by decide +kernel, by decide +kernel⟩
  refine ⟨utf8 "Feb", [], utf8 "30", [], utf8 "10", utf8 "00", utf8 "00", [], ?_⟩
  exact ⟨by decide, by decide, by decide, by decide, .inl rfl, ⟨2, by decide +kernel⟩, .inl rfl, by decide +kernel⟩

/-! ## Timestamps without a year -/

def monthNames : List Bytes :=
  ["Jan", "Feb", "Mar", "Apr", "May", "Jun", "Jul", "Aug", "Sep", "Oct", "Nov", "Dec"].map utf8

/-- "Mmm dd hh:mm:ss" of an instant in UTC, with a byte that fills a short day up. -/
def bsdText (fill : UInt8) (t : Int) : Bytes :=
  let r := utc.read t
  monthNames.getD (r.month - 1) [] ++ 32 :: ((if r.day < 10 then fill :: Decimal.text r.day else Decimal.text r.day) ++
    32 :: (Decimal.padded 2 r.hour ++ 58 :: (Decimal.padded 2 r.minute ++ 58 :: Decimal.padded 2 r.second)))

example : bsdText 32 951782400000000000 = utf8 "Feb 29 00:00:00" := by decide +kernel

/-- Two digits. -/
theorem padded_two {n : Nat} (h : n < 100) : ∃ x y, Decimal.padded 2 n = [x, y] ∧ Number 2 [x, y] n := by
  refine ⟨48 + UInt8.ofNat (n / 10), 48 + UInt8.ofNat (n % 10), ?_⟩
  revert n
  decide +kernel

/-- A day of the month, filled up. -/
theorem dayText {fill : UInt8} (hfill : fill = 32 ∨ fill = 48) {n : Nat} (hpos : 1 ≤ n) (hle : n ≤ 31) :
    ∃ x y, (if n < 10 then fill :: Decimal.text n else Decimal.text n) = [x, y] ∧ isDigit y = true ∧
      (x = 32 ∧ digitsValue [y] = n ∨ isDigit x = true ∧ digitsValue [x, y] = n) := by
  refine ⟨if n < 10 then fill else 48 + UInt8.ofNat (n / 10), 48 + UInt8.ofNat (n % 10), ?_⟩
  rcases hfill with rfl | rfl <;> interval_cases n <;> decide

theorem monthName {month : Nat} (hpos : 1 ≤ month) (hle : month ≤ 12) :
    ∃ a b c, monthNames.getD (month - 1) [] = [a, b, c] ∧ 65 ≤ a ∧ monthOf [a, b, c] = month := by
  interval_cases month <;> exact ⟨_, _, _, rfl, by decide, by decide⟩

/-- A timestamp of two digits for each number, with nothing behind it. -/
theorem readBSD_plain {a b c x y h₁ h₂ m₁ m₂ s₁ s₂ : UInt8} {month day hour minute second : Nat}
    (hmonth : monthOf [a, b, c] = month) (hpos : 1 ≤ month) (hy : isDigit y = true)
    (hx : x = 32 ∧ digitsValue [y] = day ∨ isDigit x = true ∧ digitsValue [x, y] = day)
    (hday : 1 ≤ day) (hday' : day ≤ 31) (hhour : Number 2 [h₁, h₂] hour) (hhour' : hour ≤ 23)
    (hminute : Number 2 [m₁, m₂] minute) (hminute' : minute ≤ 59) (hsecond : Number 2 [s₁, s₂] second)
    (hsecond' : second ≤ 59) :
    (readBSD [a, b, c, 32, x, y, 32, h₁, h₂, 58, m₁, m₂, 58, s₁, s₂]).run =
      .ok (some ⟨month, day, 0, ⟨hour, minute, second, 0, 8⟩, false, 15⟩) := by
  have hcolon : isDigit 58 = false := by decide
  have hspace : isDigit 32 = false := by decide
  simp only [number_iff, List.forall_mem_cons] at hhour hminute hsecond
  obtain ⟨-, ⟨hh₁, hh₂, -⟩, hhour⟩ := hhour
  obtain ⟨-, ⟨hm₁, hm₂, -⟩, hminute⟩ := hminute
  obtain ⟨-, ⟨hs₁, hs₂, -⟩, hsecond⟩ := hsecond
  have hsixty : second ≤ 60 := by omega
  have hleap : ¬second = 60 := by omega
  have hclock : parseClock [h₁, h₂, 58, m₁, m₂, 58, s₁, s₂] = pure ⟨hour, minute, second, 0, 8⟩ := by
    simp [parseClock, digitsEnd, scan_eq, index, slice, atoi_eq, parseFraction, isAt, andAlso,
      hh₁, hh₂, hm₁, hm₂, hs₁, hs₂, hcolon, hhour, hminute, hsecond, hhour', hminute', hsixty, hleap]
  have hnoYear : leadingYear [a, b, c, 32, x, y, 32, h₁, h₂, 58, m₁, m₂, 58, s₁, s₂] 7 = .ok (0, 7) := by
    simp [leadingYear, digitsEnd, scan_eq, andAlso, hh₁, hh₂, hcolon]
  have hmonthNe : ¬month = 0 := by omega
  have hdayNe : ¬day = 0 := by omega
  rcases hx with ⟨rfl, hvalue⟩ | ⟨hx, hvalue⟩
  · simp [readBSD, digitsEnd, scan_eq, index, slice, suffix, atoi_eq, hmonth, hy, hspace, hvalue, hnoYear, hclock,
      hmonthNe, hdayNe, hday', trailingYear, parseZone, skipByte, isAt, andAlso]
  · have hne : x ≠ 32 := by
      rintro rfl
      exact absurd hx (by decide)
    simp [readBSD, digitsEnd, scan_eq, index, slice, suffix, atoi_eq, hmonth, hx, hne, hy, hspace, hvalue, hnoYear,
      hclock, hmonthNe, hdayNe, hday', trailingYear, parseZone, skipByte, isAt, andAlso]

/-- A timestamp without a year is taken for the instant near the receive time. -/
theorem inferYear_eq {t received : Int} (go : GoLib) (hreceived : received ≠ zeroTime)
    (hwhole : t % Instants.second = 0) (hlow : received - 358 * Instants.day < t)
    (hhigh : t < received + 7 * Instants.day) :
    inferYear go ⟨(utc.read t).month, (utc.read t).day, 0,
      ⟨(utc.read t).hour, (utc.read t).minute, (utc.read t).second, 0, 8⟩, false, 15⟩ utc received = t := by
  have hdate := utc_date_read (t := t) hwhole
  have hyear := utc_yearAt_bounds t
  have hyear' := utc_yearAt_bounds received
  generalize utc.read t = r at hdate ⊢
  obtain ⟨month, day, hour, minute, second⟩ := r
  have hsplit (y : Int) : utc.date y month day hour minute second 0 =
      (daysOf y month day * 86400 + (hour * 3600 + minute * 60 + second)) * 1000000000 := Int.add_zero _
  dsimp only at hdate ⊢
  rw [hsplit] at hdate
  simp only [inferYear, if_neg hreceived, Stamp.date, hsplit]
  generalize utc.yearAt t = y at *
  generalize utc.yearAt received = y' at *
  have hdayValue : Instants.day = 86400000000000 := rfl
  -- The two are less than a year apart, so that their years are at most one apart.
  have hnear : y = y' ∨ y = y' - 1 ∨ y = y' + 1 := by
    by_contra hfar
    rcases lt_or_gt_of_ne (fun h => hfar (.inl h)) with hlt | hgt
    · have := daysOf_of_lt (by omega : y + 1 < y') 1 1
      omega
    · have := daysOf_of_lt (by omega : y' + 1 < y) 1 1
      omega
  rcases hnear with rfl | rfl | rfl
  · rw [if_neg (by omega), if_neg (by omega)]
    exact hdate
  · have hstep := daysOf_succ_year (y' - 1) month day
    rw [Int.sub_add_cancel] at hstep
    rw [if_pos (by omega)]
    exact hdate
  · have hstep := daysOf_succ_year y' month day
    rw [if_neg (by omega), if_pos (by omega)]
    exact hdate

/-- How the text of an instant is made up. -/
theorem bsdText_bytes {fill : UInt8} (hfill : fill = 32 ∨ fill = 48) (t : Int) :
    ∃ a b c x y h₁ h₂ m₁ m₂ s₁ s₂, bsdText fill t = [a, b, c, 32, x, y, 32, h₁, h₂, 58, m₁, m₂, 58, s₁, s₂] ∧ 65 ≤ a ∧
      (readBSD (bsdText fill t)).run = .ok (some ⟨(utc.read t).month, (utc.read t).day, 0,
        ⟨(utc.read t).hour, (utc.read t).minute, (utc.read t).second, 0, 8⟩, false, 15⟩) := by
  obtain ⟨hmonth, hmonth', hday, hday', hhour, hminute, hsecond⟩ := read_bounds utc t
  obtain ⟨a, b, c, hname, hletter, hnumber⟩ := monthName hmonth hmonth'
  obtain ⟨x, y, hdayText, hy, hx⟩ := dayText hfill hday hday'
  obtain ⟨h₁, h₂, hhourText, hhourValue⟩ := padded_two (by omega : (utc.read t).hour < 100)
  obtain ⟨m₁, m₂, hminuteText, hminuteValue⟩ := padded_two (by omega : (utc.read t).minute < 100)
  obtain ⟨s₁, s₂, hsecondText, hsecondValue⟩ := padded_two (by omega : (utc.read t).second < 100)
  have htext : bsdText fill t = [a, b, c, 32, x, y, 32, h₁, h₂, 58, m₁, m₂, 58, s₁, s₂] := by
    simp only [bsdText, hname, hdayText, hhourText, hminuteText, hsecondText]
    rfl
  refine ⟨a, b, c, x, y, h₁, h₂, m₁, m₂, s₁, s₂, htext, hletter, ?_⟩
  rw [htext]
  exact readBSD_plain hnumber hmonth hy hx hday hday' hhourValue hhour hminuteValue hminute hsecondValue hsecond

theorem parseBSDTimestamp_bsdText {fill : UInt8} (hfill : fill = 32 ∨ fill = 48) {t received : Int} (go : GoLib)
    (hreceived : received ≠ zeroTime) (hwhole : t % Instants.second = 0) (hlow : received - 358 * Instants.day < t)
    (hhigh : t < received + 7 * Instants.day) :
    (parseBSDTimestamp go (bsdText fill t) utc received).run = .ok (some (t, 15)) := by
  obtain ⟨_, _, _, _, _, _, _, _, _, _, _, -, -, hread⟩ := bsdText_bytes hfill t
  have hinfer := inferYear_eq go hreceived hwhole hlow hhigh
  rw [parseBSDTimestamp, OptionT.run_bind, hread]
  simp only [Option.elimM, ok_bind, Option.elim, Stamp.zone, if_true, Bool.false_eq_true, if_false, hinfer]
  rfl

end Syslogc.Parser.Rfc3164
