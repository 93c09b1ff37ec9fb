-- SUMMARY: The RFC 3164 parser, with the positions it computes.
import Syslogc.Lib.Zones
import Syslogc.Parser.Detect

/-!
# The RFC 3164 parser

Every part of the header is optional and recognised by its looks. The parser holds a
position in the message, and every index and slice that it takes is checked.
-/

namespace Syslogc.Parser.Rfc3164

open Logentry Decimal Checked Calendar Instants

/-- The functions of Go's library that the parser calls. -/
structure GoLib extends Parser.GoLib where
  /-- `time.ParseInLocation("2006-01-02T15:04:05.999999999", s, loc)`. -/
  parseInLocation : Location → Bytes → Option Int
  /-- `time.Now()`. -/
  now : Int

/-- A message, with the time at which it was received and the settings of its source. -/
structure Input extends Parser.Input where
  receivedAt : Int
  location : Option Location

def maxTagLen : Nat := 48
def maxPIDLen : Nat := 32
def defaultPRI : Nat := 13

/-! ## Scanning -/

/-- `s[i]`. -/
abbrev byteAt (s : Bytes) (i : Nat) : Checked UInt8 := index s i

def digitsEnd (s : Bytes) (pos : Nat) : Checked Nat := scan isDigit s pos

def skipSpaces (data : Bytes) (pos : Nat) : Checked Nat := scan (· = 32) data pos

/-- `if pos < len(s) && s[pos] == c { pos++ }`. -/
def skipByte (c : UInt8) (s : Bytes) (pos : Nat) : Checked Nat := do
  if ← isAt s pos c then pure (pos + 1) else pure pos

def skipOneSpace (data : Bytes) (pos : Nat) : Checked Nat := skipByte 32 data pos

def hasPrefixAt (s : Bytes) (pos : Nat) (start : Bytes) : Checked Bool :=
  andAlso (pos ≤ s.length) (start.isPrefixOf <$> suffix s pos)

def atoi (s : Bytes) : Checked Nat := fold (fun n c => n * 10 + (c.toNat - 48)) 0 s

def isAlnum (c : UInt8) : Bool := 97 ≤ c && c ≤ 122 || 65 ≤ c && c ≤ 90 || 48 ≤ c && c ≤ 57

def isTagChar (c : UInt8) : Bool := isAlnum c || c = 95 || c = 45 || c = 46 || c = 47

def isHostname (tok : Bytes) : Checked Bool :=
  if tok.length > 255 then pure false
  else do
    let other ← find (fun c => !isAlnum c && c ≠ 46 && c ≠ 45 && c ≠ 95 && c ≠ 58) tok 0
    pure other.isNone

def looksLikeTag (tok : Bytes) : Bool := (utf8 ":").isSuffixOf tok || tok.contains 91

/-- The next token, and the position of the space that ends it. -/
def nextToken (data : Bytes) (pos : Nat) : Checked (Bytes × Nat) :=
  if pos ≥ data.length then pure ([], pos)
  else do
    let rest ← suffix data pos
    match indexByte rest 32 with
    | none => pure (rest, data.length)
    | some i =>
      let tok ← slice data pos (pos + i)
      pure (tok, pos + i)

/-! ## Timestamps -/

def knownZones : List Bytes :=
  ["UTC", "GMT", "CET", "CEST", "EET", "EEST", "WET", "WEST", "BST", "IST", "MSK", "EST", "EDT", "CST", "CDT", "MST",
    "MDT", "PST", "PDT", "AKST", "AKDT", "HST", "JST", "KST", "HKT", "SGT", "AEST", "AEDT", "ACST", "AWST", "NZST",
    "NZDT"].map utf8

def months : List Bytes :=
  ["jan", "feb", "mar", "apr", "may", "jun", "jul", "aug", "sep", "oct", "nov", "dec"].map utf8

def lower (c : UInt8) : UInt8 := if 65 ≤ c && c ≤ 90 then c + 32 else c

/-- The number of a month, or zero. `strings.EqualFold` of three bytes and three letters:
each byte is a letter of its own, so that only letters without an accent are folded. -/
def monthOf (s : Bytes) : Nat :=
  match months.findIdx? (s.map lower = ·) with
  | some i => i + 1
  | none => 0

/-- A time of day, and the length of its text. -/
structure Clock where
  hour : Nat
  minute : Nat
  second : Nat
  nsec : Nat
  length : Nat
deriving DecidableEq, Repr

/-- The fraction of a second behind the time of day, in nanoseconds, and the position behind it. -/
def parseFraction (s : Bytes) (n : Nat) : Checked (Nat × Nat) := do
  if ← isAt s n 46 then
    let fEnd ← digitsEnd s (n + 1)
    if fEnd > n + 1 then
      let frac ← slice s (n + 1) fEnd
      let frac ← (if frac.length > 9 then slice frac 0 9 else pure frac : Checked Bytes)
      let nsec ← atoi frac
      pure ((· * 10)^[9 - frac.length] nsec, fEnd)
    else pure (0, n)
  else pure (0, n)

/-- "hh:mm:ss[.frac]"; a leap second is the last nanosecond before it. -/
def parseClock (s : Bytes) : OptionT Checked Clock := do
  guard (¬s.length < 8)
  guard ((← byteAt s 2) = 58)
  guard ((← byteAt s 5) = 58)
  guard ((← digitsEnd s 0) = 2)
  guard ((← digitsEnd s 3) = 5)
  guard ((← digitsEnd s 6) = 8)
  let hour ← atoi (← slice s 0 2)
  let minute ← atoi (← slice s 3 5)
  let second ← atoi (← slice s 6 8)
  guard (¬(hour > 23 ∨ minute > 59 ∨ second > 60))
  let (nsec, n) ← parseFraction s 8
  if second = 60 then pure ⟨hour, minute, 59, 999999999, n⟩ else pure ⟨hour, minute, second, nsec, n⟩

/-- A year and a space, if they are there: the year, or zero, and the position behind them. -/
def leadingYear (s : Bytes) (pos : Nat) : Checked (Nat × Nat) := do
  let yEnd ← digitsEnd s pos
  if ← andAlso (yEnd - pos = 4) (isAt s yEnd 32) then
    let year ← atoi (← slice s pos yEnd)
    pure (year, yEnd + 1)
  else pure (0, pos)

/-- A space and a year behind the time of day, where there was no year in front of it. -/
def trailingYear (s : Bytes) (year pos : Nat) : Checked (Nat × Nat) := do
  if ← andAlso (year = 0 ∧ pos + 5 ≤ s.length) ((fun c => decide (c = 32)) <$> index s pos) then
    let yEnd ← digitsEnd s (pos + 1)
    if ← andAlso (yEnd - pos - 1 = 4) (orElse (yEnd = s.length) ((fun c => decide (c = 32)) <$> index s yEnd)) then
      let year ← atoi (← slice s (pos + 1) yEnd)
      pure (year, yEnd)
    else pure (year, pos)
  else pure (year, pos)

def isCapital (c : UInt8) : Bool := 65 ≤ c && c ≤ 90

/-- The abbreviation of a zone, up to a colon: whether it means UTC, and the position behind it. -/
def parseZone (s : Bytes) (pos : Nat) : Checked (Bool × Nat) := do
  if ← isAt s pos 32 then
    -- The loop runs while `zEnd-pos-1 < 5`.
    let zEnd ← scanTo isCapital s (pos + 6) (pos + 1)
    let z ← slice s (pos + 1) zEnd
    if ← andAlso (z ∈ knownZones) (isAt s zEnd 58) then pure (z = utf8 "UTC" || z = utf8 "GMT", zEnd)
    else pure (false, pos)
  else pure (false, pos)

/-- What a BSD timestamp says; the year is zero if there is none. -/
structure Stamp where
  month : Nat
  day : Nat
  year : Nat
  clock : Clock
  utc : Bool
  length : Nat
deriving DecidableEq, Repr

/-- "Mmm dd [yyyy ]hh:mm:ss[.frac][ yyyy][ TZ][:]", the text part of `parseBSDTimestamp`. -/
def readBSD (s : Bytes) : OptionT Checked Stamp := do
  guard (¬s.length < 14)
  guard ((← byteAt s 3) = 32)
  let month := monthOf (← slice s 0 3)
  guard (month ≠ 0)
  let pos := if (← byteAt s 4) = 32 then 5 else 4
  let dayEnd ← digitsEnd s pos
  guard (¬(dayEnd - pos < 1 ∨ dayEnd - pos > 2 ∨ dayEnd ≥ s.length))
  guard ((← byteAt s dayEnd) = 32)
  let day ← atoi (← slice s pos dayEnd)
  let (year, pos) ← leadingYear s (dayEnd + 1)
  let clock ← parseClock (← suffix s pos)
  guard (¬(day < 1 ∨ day > 31))
  let (year, pos) ← trailingYear s year (pos + clock.length)
  let (utc, pos) ← parseZone s pos
  let pos ← skipByte 58 s pos
  pure ⟨month, day, year, clock, utc, pos⟩

namespace Stamp

/-- The zone that a timestamp is in. -/
def zone (b : Stamp) (loc : Location) : Location := if b.utc then .utc else loc

/-- The instant of a timestamp in a year. -/
def date (b : Stamp) (loc : Location) (year : Int) : Int :=
  loc.date year b.month b.day b.clock.hour b.clock.minute b.clock.second b.clock.nsec

end Stamp

/-- The instant of a timestamp without a year, near the time at which it was received. -/
def inferYear (go : GoLib) (b : Stamp) (loc : Location) (received : Int) : Int :=
  let received := if received = zeroTime then go.now else received
  let year := loc.yearAt received
  let t := b.date loc year
  if t > received + 7 * day then b.date loc (year - 1)
  else if t < received - 358 * day then b.date loc (year + 1)
  else t

/-- The instant of a BSD timestamp, and the length of its text. -/
def parseBSDTimestamp (go : GoLib) (s : Bytes) (loc : Location) (received : Int) : OptionT Checked (Int × Nat) := do
  let b ← readBSD s
  let loc := b.zone loc
  if b.year = 0 then pure (inferYear go b loc received, b.length) else pure (b.date loc b.year, b.length)

/-- The instant of an RFC 3339 timestamp, with or without an offset, and the length of its text. -/
def parseISOTimestamp (go : GoLib) (s : Bytes) (loc : Location) : OptionT Checked (Int × Nat) := do
  guard (¬s.length < 19)
  guard ((← byteAt s 4) = 45)
  guard ((← byteAt s 7) = 45)
  let c ← byteAt s 10
  guard (c = 84 ∨ c = 116)
  let stop := (indexByte s 32).getD s.length
  let tok ← slice s 0 stop
  let tok := if (utf8 ":").isSuffixOf tok then tok.dropLast else tok
  match go.parseTime (go.toUpper tok) with
  | some t => pure (t, stop)
  | none =>
    match go.parseInLocation loc (go.toUpper tok) with
    | some t => pure (t, stop)
    | none => failure

/-! ## Messages -/

/-- "TAG[PID]: " or "TAG: ": the entry with it, and the position of the message. -/
def parseTag (data : Bytes) (pos : Nat) (e : Entry) : Checked (Entry × Nat) := do
  -- The loop runs while `i-pos <= maxTagLen`.
  let i ← scanTo isTagChar data (pos + maxTagLen + 1) pos
  let tagLen := i - pos
  if tagLen = 0 ∨ tagLen > maxTagLen ∨ i ≥ data.length then pure (e, pos)
  else
    let tag ← slice data pos i
    let c ← index data i
    if c = 58 then
      if ← andAlso (i + 1 ≠ data.length) ((fun c => decide (c ≠ 32)) <$> index data (i + 1)) then pure (e, pos)
      else
        let pos ← skipOneSpace data (i + 1)
        pure ({ e with appName := tag }, pos)
    else if c = 91 then
      match indexByte (← suffix data (i + 1)) 93 with
      | none => pure (e, pos)
      | some close =>
        if close = 0 ∨ close > maxPIDLen then pure (e, pos)
        else
          let pid ← slice data (i + 1) (i + 1 + close)
          let other ← find (fun c => c ≤ 32 || c = 91 || c ≥ 0x7f) pid 0
          if other.isSome then pure (e, pos)
          else
            let j ← skipByte 58 data (i + 1 + close + 1)
            if ← andAlso (j < data.length) ((fun c => decide (c ≠ 32)) <$> index data j) then pure (e, pos)
            else
              let pos ← skipOneSpace data j
              pure ({ e with appName := tag, processID := pid }, pos)
    else pure (e, pos)

/-- The priority, or the default. -/
def parsePriority (data : Bytes) (e : Entry) : Checked (Entry × Nat) := do
  match ← Positional.parsePRI data with
  | some (pri, n) => pure (setPRI e pri, n)
  | none => pure ({ setPRI e defaultPRI with severitySource := .default }, 0)

/-- A sequence number. -/
def parseSequence (data : Bytes) (e : Entry) (pos : Nat) : Checked (Entry × Nat) := do
  let seqEnd ← digitsEnd data pos
  if ← andAlso (seqEnd > pos) (hasPrefixAt data seqEnd (utf8 ": ")) then
    let seq ← slice data pos seqEnd
    let pos ← skipSpaces data (seqEnd + 2)
    pure (e.addField (utf8 "sequence") seq, pos)
  else pure (e, pos)

/-- A timestamp, and whether there is one. -/
def parseTime (go : GoLib) (input : Input) (e : Entry) (pos : Nat) : Checked (Entry × Nat × Bool) :=
  let data := input.data
  let loc := input.location.getD .utc
  if pos < data.length then do
    let c ← index data pos
    let tsPos := if c = 42 ∨ c = 46 then pos + 1 else pos
    let s ← suffix data tsPos
    match ← (parseBSDTimestamp go s loc input.receivedAt).run with
    | some (t, n) => pure ({ e with time := t }, tsPos + n, true)
    | none =>
      match ← (parseISOTimestamp go s loc).run with
      | some (t, n) => pure ({ e with time := t }, tsPos + n, true)
      | none => pure (e, pos, false)
  else pure (e, pos, false)

/-- A host name, which stands only behind a timestamp. -/
def parseHost (data : Bytes) (e : Entry) (pos : Nat) : Checked (Entry × Nat) := do
  let pos ← skipSpaces data pos
  let (tok, next) ← nextToken data pos
  if ← andAlso (tok ≠ [] ∧ next < data.length) (isHostname tok) then
    if looksLikeTag tok then pure (e, pos)
    else
      let pos ← skipSpaces data next
      pure ({ e with hostname := tok }, pos)
  else pure (e, pos)

def parse (go : GoLib) (input : Input) (e : Entry) : Checked (Except Bytes Entry) :=
  let data := input.data
  if data = [] then pure (.error (utf8 "input is not in this format"))
  else do
    let (e, pos) ← parsePriority data e
    let pos ← skipSpaces data pos
    let (e, pos) ← parseSequence data e pos
    let (e, pos, hasTime) ← parseTime go input e pos
    let (e, pos) ← (if hasTime then parseHost data e pos else pure (e, pos) : Checked (Entry × Nat))
    let (e, pos) ← parseTag data pos e
    let message ← suffix data pos
    pure (.ok { e with message })

end Syslogc.Parser.Rfc3164
