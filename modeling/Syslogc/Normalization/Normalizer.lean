-- SUMMARY: The normalizer: times, addresses, names, limits, raw policy.
import Syslogc.Lib.Utf8
import Syslogc.Logentry.Entry

/-!
# Normalization

`Apply` completes an entry that a parser has filled in, with the settings of its source and
with how the message was received.
-/

namespace Syslogc.Normalization

open Logentry Netip

inductive RawPolicy where
  | always
  | onError
  | never
deriving DecidableEq, Repr

/-- The global settings. A limit of zero or less is none. -/
structure Options where
  maxFutureSkew : Int
  maxPastAge : Int
  maxFields : Int
  maxFieldValueBytes : Int
  maxFieldNameBytes : Int
deriving DecidableEq, Repr

/-- The settings of a source. -/
structure Source where
  name : Bytes
  type : SourceType
  protocol : Protocol
  tenant : Bytes
  rawPolicy : RawPolicy
  hostnameFallbackIP : Bool
  labels : List Field
deriving DecidableEq, Repr

/-- How a message was received. -/
structure Meta where
  data : Bytes
  receivedAt : Int
  peer : Addr
  peerPort : UInt16
  truncated : Bool
deriving DecidableEq, Repr

structure Normalizer where
  opts : Options
  /-- `Time.Format` with `time.RFC3339Nano`, in the zone that an event time was read in. -/
  format : Int → Bytes

/-! ## Strings -/

/-- Replace invalid UTF-8 by U+FFFD. -/
def validUTF8 (s : Bytes) : Bytes := if Utf8.valid s then s else Utf8.toValidUTF8 s

/-- The loop of `truncateUTF8`: back to where a character starts. -/
def cutBack (s : Bytes) : Nat → Nat
  | 0 => 0
  | max + 1 => if Utf8.runeStart (s.getD (max + 1) 0) then max + 1 else cutBack s max

/-- Cut a string to a number of bytes without splitting a character. -/
def truncateUTF8 (s : Bytes) (max : Nat) : Bytes := if s.length ≤ max then s else s.take (cutBack s max)

/-! ## Field names -/

/-- The storage names of core fields. -/
def coreFields : List Bytes :=
  ["timestamp", "message", "received_at", "hostname", "source_ip", "source_port", "peer_ip", "facility",
    "facility_code",
    "severity", "severity_code", "priority", "protocol", "format", "app_name", "process_id", "message_id", "source",
    "source_type", "raw_message", "parse_error", "time_source", "severity_source", "timestamp_raw", "truncated",
    "fields_dropped", "tenant"].map utf8

/-- Whether a dynamic field may not use a key as it is. -/
def isReserved (key : Bytes) : Bool :=
  (utf8 "_").isPrefixOf key || (utf8 "labels.").isPrefixOf key || coreFields.contains key

namespace Normalizer

/-- A long name is cut and marked. -/
def cutName (n : Normalizer) (key : Bytes) : Bytes :=
  let max := n.opts.maxFieldNameBytes
  if max > 1 && (key.length : Int) > max then truncateUTF8 key (max - 1).toNat ++ utf8 "~" else key

/-- The name of a dynamic field. -/
def fieldName (n : Normalizer) (key : Bytes) : Bytes :=
  let key := validUTF8 key
  if key = [] then utf8 "fields.empty"
  else if isReserved (n.cutName key) then utf8 "fields." ++ n.cutName key
  else n.cutName key

/-- A dynamic field as it is stored, and whether its value was cut. -/
def applyField (n : Normalizer) (f : Field) : Field × Bool :=
  let value := validUTF8 f.value
  let max := n.opts.maxFieldValueBytes
  if max > 0 && (value.length : Int) > max then (⟨n.fieldName f.key, truncateUTF8 value max.toNat⟩, true)
  else (⟨n.fieldName f.key, value⟩, false)

/-- The fields that are kept. -/
def keptFields (n : Normalizer) (fields : List Field) : List Field :=
  if n.opts.maxFields > 0 && (fields.length : Int) > n.opts.maxFields then fields.take n.opts.maxFields.toNat
  else fields

/-- Enforce the naming rules and the limits on dynamic fields. -/
def applyFields (n : Normalizer) (e : Entry) : Entry :=
  let kept := n.keptFields e.fields
  { e with
    fieldsDropped := e.fieldsDropped + (e.fields.length - kept.length)
    fields := kept.map fun f => (n.applyField f).1
    truncated := e.truncated || kept.any fun f => (n.applyField f).2 }

/-- The time of the entry, under the policy for times. -/
def applyTime (n : Normalizer) (e : Entry) : Entry :=
  if e.time = Instants.zeroTime then { e with time := e.receivedAt, timeSource := .received }
  else if n.opts.maxFutureSkew > 0 && e.time > e.receivedAt + n.opts.maxFutureSkew ||
      n.opts.maxPastAge > 0 && e.time < e.receivedAt - n.opts.maxPastAge then
    { e with
      timestampRaw := if e.timestampRaw = [] then n.format e.time else e.timestampRaw
      time := e.receivedAt
      timeSource := .adjusted }
  else { e with timeSource := .event }

/-- Who sent the message. -/
def applyPeer (e : Entry) (m : Meta) : Entry :=
  if m.peer.isValid then
    let peer := m.peer.unmap
    if e.sourceIP.isValid then if peer ≠ e.sourceIP then { e with peerIP := peer } else e
    else { e with sourceIP := peer, sourcePort := m.peerPort }
  else e

def applyRaw (e : Entry) (src : Source) (m : Meta) : Entry :=
  match src.rawPolicy with
  | .always => { e with raw := validUTF8 m.data }
  | .onError => if e.parseError ≠ [] || e.format = .unknown then { e with raw := validUTF8 m.data } else e
  | .never => { e with raw := [] }

/-- The strings of the core fields. -/
def applyStrings (e : Entry) : Entry :=
  { e with
    message := validUTF8 e.message
    hostname := validUTF8 e.hostname
    appName := validUTF8 e.appName
    processID := validUTF8 e.processID
    messageID := validUTF8 e.messageID
    timestampRaw := validUTF8 e.timestampRaw }

def apply (n : Normalizer) (e : Entry) (src : Source) (m : Meta) : Entry :=
  let e := { e with
    receivedAt := m.receivedAt
    source := src.name
    sourceType := src.type
    protocol := src.protocol
    tenant := src.tenant
    labels := src.labels
    truncated := e.truncated || m.truncated }
  let e := applyPeer e m
  let e := if e.hostname = [] && src.hostnameFallbackIP && e.sourceIP.isValid then
    { e with hostname := e.sourceIP.text } else e
  applyRaw (n.applyFields (applyStrings (n.applyTime e))) src m

end Normalizer

/-- Static labels as fields, in the order of their keys. -/
def labelFields (labels : List (Bytes × Bytes)) : List Field :=
  (labels.map fun l => (⟨utf8 "labels." ++ l.1, l.2⟩ : Field)).insertionSort fun a b => ¬ b.key < a.key

end Syslogc.Normalization
