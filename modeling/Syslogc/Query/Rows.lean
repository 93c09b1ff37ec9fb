-- SUMMARY: A stored log as the API shows it.
import Syslogc.Lib.Decimal
import Syslogc.Lib.Lists
import Syslogc.Query.TimeRange

/-!
# Rows of the API

A row of storage fields becomes a map: core fields stand at the top, some of them as
numbers, labels and other fields in maps of their own. The raw message is shown only to
those who may see it. A reference says where the row came from.
-/

namespace Syslogc.Query

open Syslogc.VictoriaLogs (Row)

inductive LogValue where
  | text (s : Bytes)
  | number (n : Int)
  | flag (b : Bool)
  | fields (m : List (Bytes × Bytes))
deriving DecidableEq, Repr

/-- A map from the names of fields to their values. -/
abbrev LogRow := List (Bytes × LogValue)

/-- Core fields rendered as JSON numbers. -/
def intFields : List Bytes :=
  [utf8 "source_port", utf8 "facility_code", utf8 "severity_code", utf8 "priority", utf8 "fields_dropped"]

/-- Core fields rendered as strings at the top. -/
def stringFields : List Bytes :=
  [utf8 "received_at", utf8 "hostname", utf8 "source_ip", utf8 "peer_ip", utf8 "facility", utf8 "severity",
    utf8 "protocol", utf8 "format", utf8 "app_name", utf8 "process_id", utf8 "message_id", utf8 "source",
    utf8 "source_type", utf8 "raw_message", utf8 "parse_error", utf8 "time_source", utf8 "severity_source",
    utf8 "timestamp_raw"]

/-- `Time.UnixNano`, which has 64 bits. -/
def unixNano (t : Int) : Int := Int.bmod t (2 ^ 64)

/-- A row while its fields are gone through. The maps of labels and of other fields come
into being with their first entry. -/
structure Shape where
  out : LogRow := []
  streamID : Bytes := []
  timeNs : Bytes := []
  labels : List (Bytes × Bytes) := []
  fields : List (Bytes × Bytes) := []

def Shape.put (s : Shape) (key : Bytes) (value : LogValue) : Shape :=
  { s with out := Lists.assign key value s.out }

variable (gt : GoTime) (canViewRaw : Bool)

def shapeField (s : Shape) (f : Bytes × Bytes) : Shape :=
  let (key, value) := f
  if key = utf8 "_time" then
    { s.put (utf8 "timestamp") (.text value) with
      timeNs := ((gt.parse value).map fun t => Decimal.intText (unixNano t)).getD s.timeNs }
  else if key = utf8 "_msg" then s.put (utf8 "message") (.text value)
  else if key = utf8 "_stream_id" then { s with streamID := value }
  else if key = utf8 "_stream" then s
  else if key = utf8 "raw_message" then if canViewRaw then s.put key (.text value) else s
  else if key ∈ intFields then
    s.put key (((Decimal.parseInt64 value).map LogValue.number).getD (.text value))
  else if key = utf8 "truncated" then s.put key (.flag (value = utf8 "true"))
  else if key ∈ stringFields then s.put key (.text value)
  else
    match Bytes.cutPrefix (utf8 "labels.") key with
    | some name => { s with labels := Lists.assign name value s.labels }
    | none => { s with fields := Lists.assign key value s.fields }

def Shape.finish (s : Shape) : LogRow :=
  let s := if s.labels = [] then s else s.put (utf8 "labels") (.fields s.labels)
  let s := if s.fields = [] then s else s.put (utf8 "fields") (.fields s.fields)
  (s.put (utf8 "_ref") (.fields [(utf8 "stream_id", s.streamID), (utf8 "time_ns", s.timeNs)])).out

def shapeRow (row : Row) : LogRow := (row.foldl (shapeField gt canViewRaw) {}).finish

end Syslogc.Query
