-- SUMMARY: The log entry that parsers, normalizer and storage share.
import Syslogc.Lib.Instants
import Syslogc.Lib.Netip

/-!
# Log entries

The enumerations of the source are bytes with named values; other values have no name of
their own. Times are instants, and strings are byte strings.
-/

namespace Syslogc.Logentry

open Netip

/-- The name of a code. -/
def nameOf (names : List String) (other : String) (code : UInt8) : Bytes := utf8 (names.getD code.toNat other)

/-- The syslog severity. -/
structure Severity where
  code : UInt8
deriving DecidableEq, Repr

def severityNames : List String :=
  ["emergency", "alert", "critical", "error", "warning", "notice", "info", "debug"]

def Severity.string (s : Severity) : Bytes := nameOf severityNames "unknown" s.code

def Severity.info : Severity := ⟨6⟩

/-- The syslog facility. -/
structure Facility where
  code : UInt8
deriving DecidableEq, Repr

def noFacility : Facility := ⟨255⟩

def facilityNames : List String :=
  ["kern", "user", "mail", "daemon", "auth", "syslog", "lpr", "news", "uucp", "cron", "authpriv", "ftp", "ntp",
    "security", "console", "solaris-cron", "local0", "local1", "local2", "local3", "local4", "local5", "local6",
    "local7"]

def Facility.string (f : Facility) : Bytes := nameOf facilityNames "" f.code

def Facility.valid (f : Facility) : Bool := f.code.toNat < facilityNames.length

structure Protocol where
  code : UInt8
deriving DecidableEq, Repr

def protocolNames : List String := ["unknown", "udp", "tcp", "tls", "http"]

def Protocol.string (p : Protocol) : Bytes := nameOf protocolNames "unknown" p.code

structure Format where
  code : UInt8
deriving DecidableEq, Repr

def Format.unknown : Format := ⟨0⟩
def Format.rfc5424 : Format := ⟨1⟩
def Format.rfc3164 : Format := ⟨2⟩
def Format.json : Format := ⟨3⟩

def formatNames : List String := ["unknown", "rfc5424", "rfc3164", "json"]

def Format.string (f : Format) : Bytes := nameOf formatNames "unknown" f.code

structure SourceType where
  code : UInt8
deriving DecidableEq, Repr

def sourceTypeNames : List String := ["syslog", "http_json"]

def SourceType.string (s : SourceType) : Bytes := nameOf sourceTypeNames "unknown" s.code

/-- Where the time of an entry came from. -/
structure TimeSource where
  code : UInt8
deriving DecidableEq, Repr

def TimeSource.event : TimeSource := ⟨0⟩
def TimeSource.received : TimeSource := ⟨1⟩
def TimeSource.adjusted : TimeSource := ⟨2⟩

def timeSourceNames : List String := ["event", "received", "adjusted"]

def TimeSource.string (t : TimeSource) : Bytes := nameOf timeSourceNames "unknown" t.code

structure SeveritySource where
  code : UInt8
deriving DecidableEq, Repr

def SeveritySource.fromLog : SeveritySource := ⟨0⟩
def SeveritySource.default : SeveritySource := ⟨1⟩

/-- A flattened pair of a key and a value. -/
structure Field where
  key : Bytes
  value : Bytes
deriving DecidableEq, Repr

/-- One log record. What is not given is as `Entry.Reset` leaves it. -/
structure Entry where
  time : Int := Instants.zeroTime
  receivedAt : Int := Instants.zeroTime
  message : Bytes := []
  hostname : Bytes := []
  appName : Bytes := []
  processID : Bytes := []
  messageID : Bytes := []
  sourceIP : Addr := .invalid
  sourcePort : UInt16 := 0
  peerIP : Addr := .invalid
  facility : Facility := noFacility
  severity : Severity := .info
  protocol : Protocol := ⟨0⟩
  format : Format := .unknown
  source : Bytes := []
  sourceType : SourceType := ⟨0⟩
  tenant : Bytes := []
  raw : Bytes := []
  parseError : Bytes := []
  timestampRaw : Bytes := []
  timeSource : TimeSource := .event
  severitySource : SeveritySource := .default
  truncated : Bool := false
  fieldsDropped : Int := 0
  labels : List Field := []
  fields : List Field := []
deriving DecidableEq, Repr

def Entry.addField (e : Entry) (key value : Bytes) : Entry := { e with fields := e.fields ++ [⟨key, value⟩] }

/-- The syslog priority, which an entry without a facility does not have. -/
def Entry.priority (e : Entry) : Option Int :=
  if e.facility.valid then some (e.facility.code.toNat * 8 + e.severity.code.toNat) else none

end Syslogc.Logentry
