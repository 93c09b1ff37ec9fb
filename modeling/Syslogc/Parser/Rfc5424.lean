-- SUMMARY: The RFC 5424 parser, with its error texts.
import Syslogc.Logentry.Entry

/-!
# The RFC 5424 parser

The parser goes over a message once. Where the source holds a position, the model holds
what is left of the message; the position is what the error texts give as the offset.
-/

namespace Syslogc.Parser

open Logentry Decimal

/-- The functions of Go's library that the parser calls. -/
structure GoLib where
  /-- `time.Parse(time.RFC3339Nano, s)`. -/
  parseTime : Bytes → Option Int
  /-- `strings.ToUpper`. -/
  toUpper : Bytes → Bytes

/-- A message, with the settings of its source. -/
structure Input where
  data : Bytes
  sdShort : Bool
deriving DecidableEq, Repr

/-- The number that digits stand for. -/
def digitsValue (ds : Bytes) : Nat := ds.foldl (fun n c => n * 10 + (c.toNat - 48)) 0

/-- A leading priority, and what follows it. -/
def parsePRI (data : Bytes) : Option (Nat × Bytes) :=
  match data with
  | [] => none
  | c :: rest =>
    if data.length < 3 || c ≠ 60 then none
    else
      let digits := (rest.take 4).takeWhile isDigit
      match rest.drop digits.length with
      | [] => none
      | c :: after =>
        if digits = [] || digits.length > 3 || c ≠ 62 || digitsValue digits > 191 then none
        else some (digitsValue digits, after)

def setPRI (e : Entry) (pri : Nat) : Entry :=
  { e with
    facility := ⟨UInt8.ofNat (pri / 8)⟩
    severity := ⟨UInt8.ofNat (pri % 8)⟩
    severitySource := .fromLog }

namespace Rfc5424

def nilValue : Bytes := utf8 "-"

/-- An error that names an offset. -/
def atOffset (text : String) (offset : Nat) : Bytes :=
  utf8 ("rfc5424: " ++ text ++ " at offset ") ++ Decimal.text offset

/-- The next token, which a space ends. -/
def token (rest : Bytes) : Option (Bytes × Bytes) :=
  match Bytes.cut 32 rest with
  | none => none
  | some (tok, after) => if tok = [] then none else some (tok, after)

def parseTimestamp (go : GoLib) (s : Bytes) : Option Int :=
  if s.length < 20 then none
  else
    match go.parseTime s with
    | some t => some t
    | none => if s.any (fun c => c = 116 || c = 122) then go.parseTime (go.toUpper s) else none

/-- One step of `applyHeader`. -/
def applyToken (go : GoLib) (e : Entry) (i : Nat) (tok : Bytes) : Entry :=
  if tok = nilValue then e
  else
    match i with
    | 0 =>
      match parseTimestamp go tok with
      | some t => { e with time := t }
      | none => { e with timestampRaw := tok }
    | 1 => { e with hostname := tok }
    | 2 => { e with appName := tok }
    | 3 => { e with processID := tok }
    | _ => { e with messageID := tok }

def applyHeader (go : GoLib) (e : Entry) (tokens : List Bytes) : Entry :=
  tokens.zipIdx.foldl (fun e t => applyToken go e t.2 t.1) e

/-- The header tokens, at most the given number, and what follows them. -/
def tokens : Nat → Bytes → List Bytes × Bytes
  | 0, rest => ([], rest)
  | n + 1, rest =>
    match token rest with
    | none => ([], rest)
    | some (tok, after) => ((tok :: (tokens n after).1), (tokens n after).2)

/-- Remove a byte order mark from the start. -/
def trimBOM (s : Bytes) : Bytes := (Bytes.cutPrefix [0xEF, 0xBB, 0xBF] s).getD s

/-! ## Structured data -/

/-- A printable character other than `=`, `]` and the quote. -/
def isSDNameChar (c : UInt8) : Bool := c > 32 && c < 127 && c ≠ 61 && c ≠ 93 && c ≠ 34

/-- A value after its opening quote, and what follows it. -/
def sdValue : Bytes → Option (Bytes × Bytes)
  | [] => none
  | c :: rest =>
    if c = 92 then
      match rest with
      | [] => none
      | e :: after =>
        if e = 34 || e = 92 || e = 93 then (sdValue after).map fun r => (e :: r.1, r.2)
        else (sdValue (e :: after)).map fun r => (c :: r.1, r.2)
    else if c = 34 then some ([], rest)
    else (sdValue rest).map fun r => (c :: r.1, r.2)

def jsonByte (c : UInt8) : Bytes :=
  if c = 34 || c = 92 then [92, c]
  else if c < 0x20 then [92, 117, 48, 48, Bytes.hexDigits.getD (c.toNat / 16) 0, Bytes.hexDigits.getD (c.toNat % 16) 0]
  else [c]

def writeJSONString (s : Bytes) : Bytes := 34 :: s.flatMap jsonByte ++ [34]

/-- Turn a value, or an array of values, and another value into an array. -/
def appendJSONArray (existing value : Bytes) : Bytes :=
  let start :=
    if (utf8 "[\"").isPrefixOf existing && (utf8 "\"]").isSuffixOf existing then existing.dropLast ++ [44]
    else 91 :: writeJSONString existing ++ [44]
  start ++ writeJSONString value ++ [93]

/-- Add a value to the first field that passes a test. -/
def mergeFirst (p : Field → Bool) (value : Bytes) : List Field → List Field
  | [] => []
  | f :: fs => if p f then ⟨f.key, appendJSONArray f.value value⟩ :: fs else f :: mergeFirst p value fs

/-- The key of a parameter. -/
def fullKey (sdID name : Bytes) : Bytes := utf8 "sd." ++ sdID ++ utf8 "." ++ name

theorem fullKey_injective (sdID : Bytes) : Function.Injective (fullKey sdID) := fun _ _ h => List.append_cancel_left h

/-- Add a parameter to the fields, of which those from `elemStart` on are of its element. -/
def addSDParam (fields : List Field) (elemStart : Nat) (sdID name value : Bytes) (short : Bool) : List Field :=
  let full := fullKey sdID name
  let same (f : Field) : Bool := f.key = full || short && f.key = name
  if (fields.drop elemStart).any same then fields.take elemStart ++ mergeFirst same value (fields.drop elemStart)
  else
    let key := if short && !fields.any (·.key = name) then name else full
    fields ++ [⟨key, value⟩]

/-- The parameters of an element, from behind its name on: the fields with them, and what
follows the element. The length of the message gives the offsets. -/
def sdParams (length : Nat) (short : Bool) (sdID : Bytes) (elemStart : Nat) :
    Nat → List Field → Bytes → Except Bytes (List Field × Bytes)
  | 0, _, _ => .error (utf8 "rfc5424: unterminated STRUCTURED-DATA element")
  | _ + 1, _, [] => .error (utf8 "rfc5424: unterminated STRUCTURED-DATA element")
  | n + 1, fields, c :: rest =>
    if c = 93 then .ok (fields, rest)
    else if c ≠ 32 then .error (atOffset "invalid STRUCTURED-DATA" (length - (c :: rest).length))
    else
      let name := rest.takeWhile isSDNameChar
      match rest.dropWhile isSDNameChar with
      | 61 :: 34 :: after =>
        if name = [] then .error (atOffset "invalid SD-PARAM" (length - rest.length))
        else
          match sdValue after with
          | none => .error (atOffset "unterminated SD-PARAM value" (length - after.length))
          | some (value, after) =>
            sdParams length short sdID elemStart n (addSDParam fields elemStart sdID name value short) after
      | _ => .error (atOffset "invalid SD-PARAM" (length - rest.length))

/-- One or more elements: the fields with their parameters, and what follows them. -/
def sdElements (length : Nat) (short : Bool) : Nat → List Field → Bytes → Except Bytes (List Field × Bytes)
  | 0, fields, rest => .ok (fields, rest)
  | _ + 1, fields, [] => .ok (fields, [])
  | n + 1, fields, c :: rest =>
    if c ≠ 91 then .ok (fields, c :: rest)
    else
      let sdID := rest.takeWhile isSDNameChar
      let after := rest.dropWhile isSDNameChar
      if sdID = [] || after = [] then .error (atOffset "invalid SD-ID" (length - rest.length))
      else
        match sdParams length short sdID fields.length (after.length + 1) fields after with
        | .error e => .error e
        | .ok (fields, after) => sdElements length short n fields after

/-- The structured data: on an error the fields are as before. -/
def parseSD (length : Nat) (short : Bool) (fields : List Field) (rest : Bytes) : Except Bytes (List Field × Bytes) :=
  sdElements length short rest.length fields rest

/-! ## Messages -/

/-- What follows the structured data. -/
def parseMessage (length : Nat) (e : Entry) (rest : Bytes) : Entry :=
  match rest with
  | [] => e
  | c :: after =>
    if c = 32 then { e with message := trimBOM after }
    else
      { e with
        parseError := atOffset "expected SP after STRUCTURED-DATA" (length - rest.length)
        message := trimBOM rest }

/-- What follows the header. -/
def parseBody (length : Nat) (short : Bool) (e : Entry) (rest : Bytes) : Entry :=
  match rest with
  | [] => { e with parseError := atOffset "missing STRUCTURED-DATA" length }
  | c :: after =>
    if c = 45 then parseMessage length e after
    else if c = 91 then
      match parseSD length short e.fields rest with
      | .error perr => { e with parseError := perr, message := trimBOM rest }
      | .ok (fields, after) => parseMessage length { e with fields } after
    else { e with message := trimBOM rest }

/-- The version, and what follows the space after it. -/
def parseVersion (rest : Bytes) : Except Bytes (Bytes × Bytes) :=
  match rest with
  | [] => .error (utf8 "rfc5424: input is not in this format: missing VERSION")
  | c :: after =>
    if after = [] || c < 49 || c > 57 then .error (utf8 "rfc5424: input is not in this format: missing VERSION")
    else
      let version := c :: (after.take 2).takeWhile isDigit
      match rest.drop version.length with
      | 32 :: after =>
        if version ≠ [49] then
          .error (utf8 "rfc5424: input is not in this format: unsupported VERSION " ++ version)
        else .ok (version, after)
      | _ => .error (utf8 "rfc5424: input is not in this format: missing SP after VERSION")

def parse (go : GoLib) (input : Input) (e : Entry) : Except Bytes Entry :=
  match parsePRI input.data with
  | none => .error (utf8 "rfc5424: input is not in this format: missing or invalid PRI")
  | some (pri, rest) =>
    match parseVersion rest with
    | .error err => .error err
    | .ok (_, rest) =>
      let e := setPRI e pri
      let (toks, rest) := tokens 5 rest
      if toks.length < 5 then
        .ok (applyHeader go
          { e with parseError := atOffset "header truncated" (input.data.length - rest.length) } toks)
      else .ok (parseBody input.data.length input.sdShort (applyHeader go e toks) rest)

end Rfc5424

end Syslogc.Parser
