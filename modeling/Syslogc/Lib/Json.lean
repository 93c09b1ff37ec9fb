-- SUMMARY: A scanner for JSON text, one byte at a time.
import Syslogc.Lib.Bufio

/-!
# JSON text

The scanner of `encoding/json`: a state and a stack of the objects and arrays that
are open. `valid` runs it over a whole text; `readValue` runs it over a stream until
one value is complete, without looking past an object or an array that ends.
-/

namespace Json

open Bufio

def isSpace (c : UInt8) : Bool := c = 32 || c = 9 || c = 13 || c = 10

def isDigit (c : UInt8) : Bool := 48 ≤ c && c ≤ 57

def isHex (c : UInt8) : Bool := isDigit c || (97 ≤ c && c ≤ 102) || (65 ≤ c && c ≤ 70)

/-- What is open around the current position. -/
inductive Context where
  | objectKey
  | objectValue
  | arrayValue
deriving DecidableEq, Repr

inductive State where
  | beginValueOrEmpty
  | beginValue
  | beginStringOrEmpty
  | beginString
  | endValue
  | endTop
  | inString
  | inStringEsc
  /-- In a `\u` escape, with this many hexadecimal digits to come after the next. -/
  | inStringEscU (left : Nat)
  | neg
  | digits
  | zero
  | dot
  | dotDigits
  | exp
  | expSign
  | expDigits
  /-- In `true`, `false` or `null`, before these bytes of it. -/
  | literal (c : UInt8) (left : Bytes)
  | error
deriving DecidableEq, Repr

structure Scanner where
  state : State := .beginValue
  stack : List Context := []
deriving DecidableEq, Repr

/-- What the byte of a step meant. -/
inductive Op where
  | go
  | endObject
  | endArray
  /-- The value ended before this byte. -/
  | done
  | error
deriving DecidableEq, Repr

def maxNestingDepth : Nat := 10000

variable (s : Scanner)

def Scanner.to (state : State) : Op × Scanner := (.go, { s with state })

def Scanner.fail : Op × Scanner := (.error, { s with state := .error })

def Scanner.push (state : State) (ctx : Context) : Op × Scanner :=
  if s.stack.length < maxNestingDepth then (.go, ⟨state, ctx :: s.stack⟩) else s.fail

/-- The innermost object or array ends. -/
def Scanner.pop (stack : List Context) : Scanner := ⟨if stack = [] then .endTop else .endValue, stack⟩

/-- After the top-level value. A byte that is no space is complained about at the next. -/
def Scanner.stepEndTop (c : UInt8) : Op × Scanner :=
  (.done, ⟨if isSpace c then .endTop else .error, s.stack⟩)

def Scanner.stepEndValue (c : UInt8) : Op × Scanner :=
  match s.stack with
  | [] => s.stepEndTop c
  | ctx :: stack =>
    if isSpace c then s.to .endValue
    else match ctx with
      | .objectKey => if c = 58 then (.go, ⟨.beginValue, .objectValue :: stack⟩) else s.fail
      | .objectValue =>
        if c = 44 then (.go, ⟨.beginString, .objectKey :: stack⟩)
        else if c = 125 then (.endObject, Scanner.pop stack) else s.fail
      | .arrayValue =>
        if c = 44 then s.to .beginValue
        else if c = 93 then (.endArray, Scanner.pop stack) else s.fail

def Scanner.stepBeginValue (c : UInt8) : Op × Scanner :=
  if isSpace c then s.to .beginValue
  else if c = 123 then s.push .beginStringOrEmpty .objectKey
  else if c = 91 then s.push .beginValueOrEmpty .arrayValue
  else if c = 34 then s.to .inString
  else if c = 45 then s.to .neg
  else if c = 48 then s.to .zero
  else if c = 116 then s.to (.literal 114 [117, 101])
  else if c = 102 then s.to (.literal 97 [108, 115, 101])
  else if c = 110 then s.to (.literal 117 [108, 108])
  else if isDigit c then s.to .digits
  else s.fail

def Scanner.stepBeginString (c : UInt8) : Op × Scanner :=
  if isSpace c then s.to .beginString else if c = 34 then s.to .inString else s.fail

/-- After the integer part of a number that began with zero. -/
def Scanner.stepZero (c : UInt8) : Op × Scanner :=
  if c = 46 then s.to .dot
  else if c = 101 || c = 69 then s.to .exp
  else s.stepEndValue c

def Scanner.stepExpSign (c : UInt8) : Op × Scanner :=
  if isDigit c then s.to .expDigits else s.fail

def Scanner.step (c : UInt8) : Op × Scanner :=
  match s.state with
  | .beginValueOrEmpty =>
    if isSpace c then s.to .beginValueOrEmpty
    else if c = 93 then s.stepEndValue c
    else s.stepBeginValue c
  | .beginValue => s.stepBeginValue c
  | .beginStringOrEmpty =>
    if isSpace c then s.to .beginStringOrEmpty
    else if c = 125 then Scanner.stepEndValue { s with stack := .objectValue :: s.stack.tail } c
    else s.stepBeginString c
  | .beginString => s.stepBeginString c
  | .endValue => s.stepEndValue c
  | .endTop => s.stepEndTop c
  | .inString =>
    if c = 34 then s.to .endValue
    else if c = 92 then s.to .inStringEsc
    else if c < 32 then s.fail
    else s.to .inString
  | .inStringEsc =>
    if c ∈ [98, 102, 110, 114, 116, 92, 47, 34] then s.to .inString
    else if c = 117 then s.to (.inStringEscU 3)
    else s.fail
  | .inStringEscU left =>
    if isHex c then
      match left with
      | 0 => s.to .inString
      | left + 1 => s.to (.inStringEscU left)
    else s.fail
  | .neg =>
    if c = 48 then s.to .zero else if isDigit c then s.to .digits else s.fail
  | .digits => if isDigit c then s.to .digits else s.stepZero c
  | .zero => s.stepZero c
  | .dot => if isDigit c then s.to .dotDigits else s.fail
  | .dotDigits =>
    if isDigit c then s.to .dotDigits
    else if c = 101 || c = 69 then s.to .exp
    else s.stepEndValue c
  | .exp => if c = 43 || c = 45 then s.to .expSign else s.stepExpSign c
  | .expSign => s.stepExpSign c
  | .expDigits => if isDigit c then s.to .expDigits else s.stepEndValue c
  | .literal expected left =>
    if c = expected then
      match left with
      | [] => s.to .endValue
      | next :: left => s.to (.literal next left)
    else s.fail
  | .error => s.fail

/-- The text so far is a complete value. -/
def Scanner.eof : Bool :=
  match s.state with
  | .error => false
  | .endTop => true
  | _ => (s.step 32).2.state = .endTop

/-- Run the scanner over a text; `none` at the first error. -/
def Scanner.run : Scanner → Bytes → Option Scanner
  | s, [] => some s
  | s, c :: b => if (s.step c).1 = .error then none else (s.step c).2.run b

/-- `json.Valid`. -/
def valid (b : Bytes) : Bool := (Scanner.run {} b).any Scanner.eof

/-! ## One value off a stream -/

/-- Why no value was read. -/
inductive DecodeError where
  /-- The stream ended before a value began. -/
  | eof
  /-- It ended inside a value. -/
  | unexpectedEOF
  | read
  | invalidSyntax
deriving DecidableEq, Repr

/-- Take a byte into the value that is read. -/
def consume (c : UInt8) :
    Except DecodeError (Bytes × Bytes) → Except DecodeError (Bytes × Bytes) :=
  Except.map fun p => (c :: p.1, p.2)

/-- The bytes up to the end of the value that is being read and what follows them, for
a stream with these bytes that then fails. -/
def readValue (failure : Failure) (blank : Bool) : Scanner → Bytes →
    Except DecodeError (Bytes × Bytes)
  | s, [] =>
    if failure = .other then .error .read
    else if (s.step 32).1 = .done then .ok ([], [])
    else .error (if blank then .eof else .unexpectedEOF)
  | s, c :: b =>
    match (s.step c).1 with
    | .done => .ok ([], c :: b)
    | .error => .error .invalidSyntax
    | .go => consume c (readValue failure (blank && isSpace c) (s.step c).2 b)
    | _ =>
      -- an invented space: the byte after an object or an array is not waited for
      if ((s.step c).2.stepEndValue 32).1 = .done then .ok ([c], b)
      else consume c (readValue failure false (s.step c).2 b)

/-- `Decoder.Decode` into a raw message. -/
def decode (failure : Failure) (b : Bytes) : Except DecodeError (Bytes × Bytes) :=
  readValue failure true {} b

theorem readValue_append {failure : Failure} {blank : Bool} {s : Scanner} {b raw rest : Bytes}
    (h : readValue failure blank s b = .ok (raw, rest)) : raw ++ rest = b := by
  induction b generalizing blank s raw rest with
  | nil =>
    simp only [readValue] at h
    split at h
    · cases h
    · split at h
      · cases h
        rfl
      · cases h
  | cons c b ih =>
    have hconsume : ∀ blank s, consume c (readValue failure blank s b) = .ok (raw, rest) →
        raw ++ rest = c :: b := by
      intro blank s h
      cases hread : readValue failure blank s b with
      | error e =>
        rw [hread] at h
        cases h
      | ok p =>
        rw [hread] at h
        cases h
        rw [List.cons_append, ih hread]
    simp only [readValue] at h
    split at h
    · cases h
      rfl
    · cases h
    · exact hconsume _ _ h
    · split at h
      · cases h
        rfl
      · exact hconsume _ _ h

/-- A value has a first byte. -/
theorem decode_ne_nil {failure : Failure} {b raw rest : Bytes}
    (h : decode failure b = .ok (raw, rest)) : raw ≠ [] := by
  have hstep : ∀ c, (Scanner.step {} c).1 = .go ∨ (Scanner.step {} c).1 = .error := by
    intro c
    simp only [Scanner.step, Scanner.stepBeginValue, Scanner.push, Scanner.to, Scanner.fail]
    split_ifs <;> simp
  cases b with
  | nil =>
    simp only [decode, readValue] at h
    split at h
    · cases h
    · obtain hgo | herror := hstep 32
      · rw [if_neg (by rw [hgo]; simp)] at h
        cases h
      · rw [if_neg (by rw [herror]; simp)] at h
        cases h
  | cons c b =>
    obtain hgo | herror := hstep c
    · simp only [decode, readValue, hgo] at h
      cases hread : readValue failure (true && isSpace c) (Scanner.step {} c).2 b with
      | error e =>
        rw [hread] at h
        cases h
      | ok p =>
        rw [hread] at h
        cases h
        simp
    · simp only [decode, readValue, herror] at h
      cases h

/-- Reading a value makes the stream shorter. -/
theorem decode_rest_lt {failure : Failure} {b raw rest : Bytes}
    (h : decode failure b = .ok (raw, rest)) : rest.length < b.length := by
  have hpos := List.length_pos_iff.mpr (decode_ne_nil h)
  rw [← readValue_append h, List.length_append]
  omega

end Json
