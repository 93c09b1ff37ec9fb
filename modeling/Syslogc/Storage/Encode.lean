-- SUMMARY: The JSON lines that entries are stored as.
import Syslogc.Lib.Calendar
import Syslogc.Lib.Utf8
import Syslogc.Logentry.Entry

/-!
# Encoding

`encode.go` appends each entry to a buffer as a line of JSON. Times, numbers and IP
addresses are set between quotes as they are; all other strings are escaped.
-/

namespace Syslogc.VictoriaLogs

open Logentry Utf8
open Bytes (hexDigits)

/-- What a byte that cannot stand in a string is replaced by. -/
def escapeByte (c : UInt8) : Bytes :=
  if c = 34 || c = 92 then [92, c]
  else if c = 10 then [92, 110]
  else if c = 13 then [92, 114]
  else if c = 9 then [92, 116]
  else [92, 117, 48, 48, hexDigits.getD (c >>> 4).toNat 0, hexDigits.getD (c &&& 0xf).toNat 0]

/-- The loop of `appendString`, before the rest of the string. Of the bytes before it, those
from `start` on are still to be copied, and the given number of bytes after it belong to the
character at hand. -/
def appendStringLoop (b pending : Bytes) : Nat → Bytes → Bytes
  | _, [] => b ++ pending
  | k + 1, c :: rest => appendStringLoop b (pending ++ [c]) k rest
  | 0, c :: rest =>
    if c < 0x80 then
      if 0x20 ≤ c && c ≠ 34 && c ≠ 92 then appendStringLoop b (pending ++ [c]) 0 rest
      else appendStringLoop (b ++ pending ++ escapeByte c) [] 0 rest
    else
      match runeLength (c :: rest) with
      | none => appendStringLoop (b ++ pending ++ replacement) [] 0 rest
      | some n => appendStringLoop b (pending ++ [c]) (n - 1) rest

/-- Append a string of JSON. Control characters are escaped and invalid UTF-8 is replaced. -/
def appendString (b s : Bytes) : Bytes := appendStringLoop (b ++ [34]) [] 0 s ++ [34]

def appendKV (b key value : Bytes) : Bytes := appendString (appendString (b ++ [44]) key ++ [58]) value

def appendOpt (b key value : Bytes) : Bytes := if value = [] then b else appendKV b key value

def appendInt (b key : Bytes) (v : Int) : Bytes :=
  appendString (b ++ [44]) key ++ [58, 34] ++ Decimal.intText v ++ [34]

/-- Append a member whose value is set between quotes as it is. -/
def appendAsIs (b key text : Bytes) : Bytes := b ++ [44, 34] ++ key ++ [34, 58, 34] ++ text ++ [34]

/-- The part of `appendEntry` for the addresses. -/
def appendAddresses (b : Bytes) (e : Entry) : Bytes :=
  let b :=
    if e.sourceIP.isValid then
      let b := appendAsIs b (utf8 "source_ip") e.sourceIP.text
      if e.sourcePort ≠ 0 then appendAsIs b (utf8 "source_port") (Decimal.text e.sourcePort.toNat) else b
    else b
  if e.peerIP.isValid && e.peerIP ≠ e.sourceIP then appendAsIs b (utf8 "peer_ip") e.peerIP.text else b

/-- The part of `appendEntry` for the facility. -/
def appendPriority (b : Bytes) (e : Entry) : Bytes :=
  match e.priority with
  | none => b
  | some pri =>
    let b := appendOpt b (utf8 "facility") e.facility.string
    let b := appendInt b (utf8 "facility_code") e.facility.code.toNat
    appendInt b (utf8 "priority") pri

/-- The part of `appendEntry` between the priority and the notes on the entry. -/
def appendNames (b : Bytes) (e : Entry) : Bytes :=
  let b := appendOpt b (utf8 "severity") e.severity.string
  let b := appendInt b (utf8 "severity_code") e.severity.code.toNat
  let b := appendOpt b (utf8 "protocol") e.protocol.string
  let b := appendOpt b (utf8 "format") e.format.string
  let b := appendOpt b (utf8 "app_name") e.appName
  let b := appendOpt b (utf8 "process_id") e.processID
  let b := appendOpt b (utf8 "message_id") e.messageID
  let b := appendOpt b (utf8 "source") e.source
  let b := appendOpt b (utf8 "source_type") e.sourceType.string
  let b := appendOpt b (utf8 "raw_message") e.raw
  appendOpt b (utf8 "parse_error") e.parseError

/-- The part of `appendEntry` for what was noted when the entry was read. -/
def appendNotes (b : Bytes) (e : Entry) : Bytes :=
  let b := if e.timeSource ≠ .event then appendOpt b (utf8 "time_source") e.timeSource.string else b
  let b := if e.severitySource = .default then appendOpt b (utf8 "severity_source") (utf8 "default") else b
  let b := appendOpt b (utf8 "timestamp_raw") e.timestampRaw
  let b := if e.truncated then appendOpt b (utf8 "truncated") (utf8 "true") else b
  if e.fieldsDropped > 0 then appendInt b (utf8 "fields_dropped") e.fieldsDropped else b

def appendFields (b : Bytes) (fields : List Field) : Bytes := fields.foldl (fun b f => appendKV b f.key f.value) b

/-- Append an entry as one line, with the newline. -/
def appendEntry (b : Bytes) (e : Entry) : Bytes :=
  let b := b ++ utf8 "\x7b\"_time\":\"" ++ Calendar.rfc3339Nano e.time ++ utf8 "\",\"_msg\":"
  let b := appendString b e.message
  let b := b ++ utf8 ",\"received_at\":\"" ++ Calendar.rfc3339Nano e.receivedAt ++ [34]
  let b := appendOpt b (utf8 "hostname") e.hostname
  let b := appendAddresses b e
  let b := appendPriority b e
  let b := appendNames b e
  let b := appendNotes b e
  let b := appendFields b e.labels
  let b := appendFields b e.fields
  b ++ [125, 10]

/-- Append every entry of a batch. -/
def encodeBatch (dst : Bytes) (entries : List Entry) : Bytes := entries.foldl appendEntry dst

end Syslogc.VictoriaLogs
