-- SUMMARY: The decoder that splits a byte stream into messages.
import Syslogc.Lib.Bufio

/-!
# Framing

A stream carries messages with a length in front ("MSG-LEN SP SYSLOG-MSG") or with a
delimiter behind. The decoder reads them through a buffer and cuts them at the maximum
size; the buffer it keeps between calls only saves allocations and is left out.
-/

namespace Syslogc.Framing

open Bufio

/-! ## The decoder -/

inductive Mode where
  /-- A length if there is one, and lines otherwise. -/
  | auto
  | octetCounting
  | lf
  | nul
deriving DecidableEq, Repr

def parseMode (s : String) : Mode × Bool :=
  if s = "auto" || s = "" then (.auto, true)
  else if s = "octet_counting" then (.octetCounting, true)
  else if s = "lf" then (.lf, true)
  else if s = "nul" then (.nul, true)
  else (.auto, false)

inductive Error where
  | failure (f : Failure)
  | invalidFrame
deriving DecidableEq, Repr

/-- What a call of `Next` returns. -/
structure Frame where
  msg : Bytes := []
  truncated : Bool := false
  err : Option Error := none
deriving DecidableEq, Repr

structure Decoder where
  mode : Mode
  max : Nat
  reader : Reader

def readBufferSize : Nat := 65536
/-- Longer lengths are no lengths. -/
def maxLengthDigits : Nat := 10

/-- `NewDecoder`, given what a buffered reader of some size over its input is. -/
def newDecoder (input : Nat → Reader) (mode : Mode) (max : Nat) : Decoder where
  mode
  max
  reader := input (if max + 16 < readBufferSize then max + 16 else readBufferSize)

def cr : UInt8 := 13
def newline : UInt8 := 10
def space : UInt8 := 32

/-- Remove trailing delimiters. -/
def trimmed (b : Bytes) : Bytes := b.rdropWhile fun c => c = cr || c = newline || c = 0

def Decoder.limit (d : Decoder) (b : Bytes) : Frame :=
  if d.max < b.length then { msg := trimmed (b.take d.max), truncated := true }
  else { msg := trimmed b }

/-- Read on until the delimiter or the end. -/
def skipUntil (delim : UInt8) (r : Reader) : Reader :=
  if (r.readSlice delim).1.stop = .full then skipUntil delim (r.readSlice delim).2
  else (r.readSlice delim).2
termination_by r.rest.length
decreasing_by
  rename_i hfull
  exact ((r.readSlice_spec delim).of_full hfull).2.2

/-- The frame that what was collected makes, where the buffer was not full: it ends
with the delimiter, or the stream failed. -/
def Decoder.complete (d : Decoder) (failure : Failure) (b : Bytes) : Stop → Frame
  | .found => d.limit b.dropLast
  | _ => if b = [] then { err := some (.failure failure) } else d.limit b

/-- The loop of `delimited`; `buf` is what was collected. -/
def Decoder.collect (d : Decoder) (delim : UInt8) (buf : Bytes) (r : Reader) : Frame × Reader :=
  if d.max < buf.length then
    ({ msg := trimmed (buf.take d.max), truncated := true }, skipUntil delim r)
  else if (r.readSlice delim).1.stop = .full then
    d.collect delim (buf ++ (r.readSlice delim).1.line) (r.readSlice delim).2
  else
    (d.complete r.failure (buf ++ (r.readSlice delim).1.line) (r.readSlice delim).1.stop,
      (r.readSlice delim).2)
termination_by r.rest.length
decreasing_by
  rename_i _ hfull
  exact ((r.readSlice_spec delim).of_full hfull).2.2

/-- Read until the delimiter, after what was read already. A whole line that is
buffered is returned without copying it. -/
def Decoder.delimited (d : Decoder) (delim : UInt8) (pre : Bytes) (r : Reader) :
    Frame × Reader :=
  if pre ≠ [] then d.collect delim pre r
  else if (r.readSlice delim).1.stop = .full then
    d.collect delim (r.readSlice delim).1.line (r.readSlice delim).2
  else
    (d.complete r.failure (r.readSlice delim).1.line (r.readSlice delim).1.stop,
      (r.readSlice delim).2)

/-- Read a frame of the given length. -/
def Decoder.octet (d : Decoder) (length : Nat) (r : Reader) : Frame × Reader :=
  let take := min length d.max
  let (b, r') := r.readFull take
  if b.length < take then ({ err := some (.failure r.failure) }, r')
  else if d.max < length then
    ({ msg := trimmed b, truncated := true }, r'.discard (length - take))
  else ({ msg := trimmed b }, r')

/-- What a byte that does not continue a length leads to. -/
def Decoder.endLength (d : Decoder) (digits : Bytes) (length : Nat) (c : UInt8) (r : Reader) :
    Frame × Reader :=
  if c = space then d.octet length r
  else if d.mode = .octetCounting then ({ err := some .invalidFrame }, r)
  else if c = newline then (d.limit digits, r)
  else d.delimited newline (digits ++ [c]) r

def isDigit (c : UInt8) : Bool := 48 ≤ c && c ≤ 57

/-- Collect the digits of a length; `room` of them may still come. -/
def Decoder.readLength (d : Decoder) (room : Nat) (digits : Bytes) (length : Nat)
    (r : Reader) : Frame × Reader :=
  match r.readByte with
  | none =>
    -- the stream ended inside what looked like a length
    if r.failure = .eof then (d.limit digits, r.peek 1)
    else ({ err := some (.failure r.failure) }, r.peek 1)
  | some (c, r') =>
    match room with
    | 0 => d.endLength digits length c r'
    | room + 1 =>
      if isDigit c then d.readLength room (digits ++ [c]) (length * 10 + (c.toNat - 48)) r'
      else d.endLength digits length c r'

def isDelimiter (c : UInt8) : Bool := c = newline || c = cr || c = 0 || c = space

/-- Skip the delimiters between frames; the next byte stays in the reader. -/
def skipDelimiters (r : Reader) : Reader × Option UInt8 :=
  match _h : r.readByte with
  | none => (r.peek 1, none)
  | some (c, r') => if isDelimiter c then skipDelimiters r' else (r.peek 1, some c)
termination_by r.rest.length
decreasing_by
  rw [(Reader.readByte_some _h).rest]
  exact Nat.lt_succ_self _

def Decoder.frame (d : Decoder) (r : Reader) : Option UInt8 → Frame × Reader
  | none => ({ err := some (.failure r.failure) }, r)
  | some c =>
    match d.mode with
    | .lf => d.delimited newline [] r
    | .nul => d.delimited 0 [] r
    | _ =>
      if c < 49 || 57 < c then
        if d.mode = .octetCounting then ({ err := some .invalidFrame }, r)
        else d.delimited newline [] r
      else d.readLength (maxLengthDigits - 1) [c] (c.toNat - 48) (r.drop 1)

/-- `Next`: the next message without its delimiter. -/
def Decoder.next (d : Decoder) : Frame × Decoder :=
  let (r, c) := skipDelimiters d.reader
  let (f, r') := d.frame r c
  (f, { d with reader := r' })

end Syslogc.Framing
