-- SUMMARY: The definition of a source, its defaults and its validation.
import Mathlib

/-!
# Sources

A source configures one receiver. Definitions come from the configuration file or
from the API. Both are checked by `validateSource`; `prepareSource` is what the API
applies to one definition.

Text fields hold what the user wrote, so unknown kinds are values that
`validateSource` rejects. Sizes and durations are the integers they decode to.
-/

namespace Syslogc.Config

/-! ## Definitions -/

/-- Turns part of a message into fields. -/
structure ExtractRule where
  name : String := ""
  contains : String := ""
  regex : String := ""
  fieldPrefix : String := ""
deriving DecidableEq, Repr

structure UDPConfig where
  sockets : Int := 0
  readBufferBytes : Int := 0
deriving DecidableEq, Repr

structure ACMEConfig where
  enabled : Bool := false
  domains : List String := []
  email : String := ""
  staging : Bool := false
  acceptTerms : Bool := false
  skipPreflight : Bool := false
deriving DecidableEq, Repr

structure TLSConfig where
  certFile : String := ""
  keyFile : String := ""
  cert : String := ""
  key : String := ""
  minVersion : String := ""
  clientAuth : String := ""
  clientCAFile : String := ""
  clientCA : String := ""
  acme : ACMEConfig := {}
deriving DecidableEq, Repr

structure Source where
  name : String := ""
  type : String := ""
  enabled : Option Bool := none
  protocol : String := ""
  address : String := ""
  format : String := ""
  timezone : String := ""
  allowedCIDRs : List String := []
  maxMessageBytes : Int := 0
  rawMessage : String := ""
  hostnameFallback : String := ""
  sdFlatten : String := ""
  labels : List (String × String) := []
  tenant : String := ""
  framing : String := ""
  maxConnections : Int := 0
  idleTimeout : Int := 0
  extract : List ExtractRule := []
  template : String := ""
  templateParts : List String := []
  udp : UDPConfig := {}
  tls : TLSConfig := {}
deriving DecidableEq, Repr

/-- A source is enabled unless it says otherwise. -/
def Source.isEnabled (s : Source) : Bool := s.enabled.getD true

def sourceTypeSyslog : String := "syslog"
def sourceTypeHTTPJSON : String := "http_json"

def protocolUDP : String := "udp"
def protocolTCP : String := "tcp"
def protocolTLS : String := "tls"

def defaultTenant : String := "default"

/-! ## Defaults -/

def defaultUDPMaxMessageBytes : Int := 65535
def defaultStreamMaxMessageBytes : Int := 65536
def defaultMaxConnections : Int := 2000
/-- Ten minutes, in nanoseconds. -/
def defaultTCPIdleTimeout : Int := 600000000000
def defaultUDPReadBuffer : Int := 8388608

/-- A text field that was left empty takes a default. -/
def orElse (value default : String) : String := if value = "" then default else value

/-- A number that was left at zero takes a default. -/
def orElseNum (value default : Int) : Int := if value = 0 then default else value

def applySourceDefaults (s : Source) : Source :=
  let type := orElse s.type sourceTypeSyslog
  { s with
    type
    format := orElse s.format "auto"
    timezone := orElse s.timezone "UTC"
    rawMessage := orElse s.rawMessage (if type = sourceTypeHTTPJSON then "never" else "on_error")
    hostnameFallback := orElse s.hostnameFallback "none"
    sdFlatten := orElse s.sdFlatten "full"
    tenant := orElse s.tenant defaultTenant
    maxMessageBytes := orElseNum s.maxMessageBytes
      (if s.protocol = protocolUDP then defaultUDPMaxMessageBytes else defaultStreamMaxMessageBytes)
    framing := orElse s.framing "auto"
    maxConnections := orElseNum s.maxConnections defaultMaxConnections
    idleTimeout := orElseNum s.idleTimeout defaultTCPIdleTimeout
    udp := { s.udp with readBufferBytes := orElseNum s.udp.readBufferBytes defaultUDPReadBuffer }
    tls := { s.tls with
      minVersion := orElse s.tls.minVersion "1.2"
      clientAuth := orElse s.tls.clientAuth "none" } }

/-! ## Validation of one source -/

/-- What validation asks of other packages: the error each of them reports. -/
structure Checks where
  /-- `sourcetemplate.Valid`. -/
  template : String → Option String
  /-- `extract.New`. -/
  extract : List ExtractRule → Option String
  /-- `time.LoadLocation`. -/
  timezone : String → Option String
  /-- `netip.ParsePrefix` succeeds. -/
  cidr : String → Bool
  /-- `net.SplitHostPort`. -/
  splitHostPort : String → Except String (String × String)
  /-- `netip.ParseAddr` succeeds. -/
  addr : String → Bool
  /-- `strconv.Atoi`. -/
  atoi : String → Option Int
  /-- The verb `%q`. -/
  quote : String → String
  /-- `strings.EqualFold`. -/
  equalFold : String → String → Bool

variable (k : Checks)

/-- An error when a check fails. -/
def require (holds : Bool) (error : String) : List String := if holds then [] else [error]

/-- The error of a check of another package, under a field's name. -/
def report (field : String) : Option String → List String
  | none => []
  | some error => [field ++ error]

def validateAddress (addr : String) : Option String :=
  match k.splitHostPort addr with
  | .error e => some ("invalid address " ++ k.quote addr ++ ": " ++ e)
  | .ok (host, port) =>
    if host ≠ "" ∧ k.addr host = false ∧ host ≠ "localhost" then
      some ("invalid host in " ++ k.quote addr ++
        " (use an IP address or empty for all interfaces)")
    else match k.atoi port with
      | none => some ("invalid port in " ++ k.quote addr)
      | some n => if n < 0 ∨ n > 65535 then some ("invalid port in " ++ k.quote addr) else none

def validateType (s : Source) : List String :=
  if s.type = sourceTypeSyslog then
    require (s.protocol = protocolUDP || s.protocol = protocolTCP || s.protocol = protocolTLS)
      "protocol must be udp, tcp or tls" ++
    report "address: " (validateAddress k s.address)
  else if s.type = sourceTypeHTTPJSON then []
  else ["type must be syslog or http_json"]

/-- `unicode.IsSpace`. -/
def isSpace (c : Char) : Bool :=
  c.toNat ∈ [9, 10, 11, 12, 13, 32, 0x85, 0xA0, 0x1680, 0x2028, 0x2029, 0x202F, 0x205F, 0x3000] ||
    (0x2000 ≤ c.toNat && c.toNat ≤ 0x200A)

/-- The text is blank: `strings.TrimSpace` leaves nothing. -/
def blank (s : String) : Bool := s.toList.all isSpace

def validateCertificate (t : TLSConfig) : List String :=
  let pasted := !blank t.cert
  let files := t.certFile ≠ "" && t.keyFile ≠ ""
  if t.acme.enabled && t.acme.domains.isEmpty then
    ["tls.acme.domains: at least one hostname is required to ask for a certificate"]
  else if t.acme.enabled && !t.acme.acceptTerms then
    ["tls.acme.accept_terms must be set: asking a certificate authority for a certificate " ++
      "accepts its subscriber agreement, https://letsencrypt.org/repository/"]
  else if pasted && blank t.key then ["tls.key is required alongside tls.cert"]
  else if !t.acme.enabled && !pasted && !files then
    ["a tls source needs a certificate: turn on tls.acme, set tls.cert and tls.key, " ++
      "or set tls.cert_file and tls.key_file"]
  else []

def validateTLS (s : Source) : List String :=
  if s.protocol = protocolTLS ∧ s.isEnabled = true then
    validateCertificate s.tls ++
    require (s.tls.minVersion = "1.2" || s.tls.minVersion = "1.3")
      "tls.min_version must be 1.2 or 1.3" ++
    (if s.tls.clientAuth = "none" || s.tls.clientAuth = "request" then []
    else if s.tls.clientAuth = "require_and_verify" then
      require (!(s.tls.clientCAFile = "" && blank s.tls.clientCA))
        ("a client CA is required with client_auth require_and_verify: " ++
          "set tls.client_ca or tls.client_ca_file")
    else ["tls.client_auth must be none, request or require_and_verify"])
  else []

/-- The limits on the size of a message. -/
def validateMessageBytes (s : Source) : List String :=
  require (256 ≤ s.maxMessageBytes && s.maxMessageBytes ≤ 16777216)
    "max_message_bytes must be between 256B and 16MiB" ++
  require (!(s.protocol = protocolUDP && s.maxMessageBytes > 65535))
    "max_message_bytes cannot exceed 65535 for udp"

def sourceErrors (s : Source) : List String :=
  report "template: " (k.template s.template) ++
  report "" (if s.extract = [] then none else k.extract s.extract) ++
  (if s.name = "" then ["name is required"]
    else require (s.name.utf8ByteSize ≤ 128) "name longer than 128 characters") ++
  validateType k s ++
  require (s.format = "auto" || s.format = "rfc5424" || s.format = "rfc3164")
    "format must be auto, rfc5424 or rfc3164" ++
  report "timezone: " (k.timezone s.timezone) ++
  s.allowedCIDRs.flatMap (fun c => require (k.cidr c) ("allowed_cidrs: invalid CIDR " ++ k.quote c)) ++
  validateMessageBytes s ++
  require (s.rawMessage = "always" || s.rawMessage = "on_error" || s.rawMessage = "never")
    "raw_message must be always, on_error or never" ++
  require (s.hostnameFallback = "none" || s.hostnameFallback = "ip")
    "hostname_fallback must be none or ip" ++
  require (s.sdFlatten = "full" || s.sdFlatten = "short") "sd_flatten must be full or short" ++
  require (s.tenant = defaultTenant) ("tenant: only " ++ k.quote defaultTenant ++
    " is supported until multi-tenancy is implemented") ++
  require (s.framing = "auto" || s.framing = "octet_counting" || s.framing = "lf" ||
    s.framing = "nul") "framing must be auto, octet_counting, lf or nul" ++
  require (0 ≤ s.maxConnections) "max_connections must be >= 0" ++
  require (0 ≤ s.udp.sockets && s.udp.sockets ≤ 256) "udp.sockets must be between 0 and 256" ++
  s.labels.flatMap (fun l => require (l.1 ≠ "" && l.1.utf8ByteSize ≤ 128)
    ("labels: invalid label name " ++ k.quote l.1)) ++
  validateTLS s

/-- The problems of one source, each under the path `p`. -/
def validateSource (p : String) (s : Source) : List String :=
  (sourceErrors k s).map fun e => p ++ ": " ++ e

/-- `PrepareSource`: fill in defaults and validate, for a source from the API. -/
def prepareSource (s : Source) : Except (List String) Source :=
  let s := applySourceDefaults s
  match validateSource k "source" s with
  | [] => .ok s
  | errs => .error errs

end Syslogc.Config
