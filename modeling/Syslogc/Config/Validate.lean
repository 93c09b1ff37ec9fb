-- SUMMARY: The ingestion section, and what `Config.Validate` demands.
import Syslogc.Config.Source

/-!
# Validation of the ingestion section

`Config.Validate` collects the problems of every section and of every source. The
ingestion section and its sources are modelled here; what it finds in the other
sections is given as a list. Two checks are made across sources, and one against the
byte budget of the queue.
-/

namespace Syslogc.Config

/-! ## The section -/

structure QueueConfig where
  maxMessages : Int := 500000
  maxBytes : Int := 268435456
deriving DecidableEq, Repr

structure BatchConfig where
  maxRows : Int := 10000
  maxBytes : Int := 8388608
  maxWait : Int := 500000000
deriving DecidableEq, Repr

structure RetryConfig where
  initialBackoff : Int := 250000000
  maxBackoff : Int := 30000000000
deriving DecidableEq, Repr

structure TimeConfig where
  maxFutureSkew : Int := 600000000000
  maxPastAge : Int := 0
deriving DecidableEq, Repr

structure LimitsConfig where
  maxFields : Int := 256
  maxFieldValueBytes : Int := 32768
  maxFieldNameBytes : Int := 256
deriving DecidableEq, Repr

structure HTTPIngestConfig where
  maxBodyBytes : Int := 10485760
  maxEvents : Int := 10000
  enqueueTimeout : Int := 2000000000
deriving DecidableEq, Repr

/-- The ingestion section, with its defaults. Durations are in nanoseconds. -/
structure IngestionConfig where
  queue : QueueConfig := {}
  parseWorkers : Int := 0
  batch : BatchConfig := {}
  writers : Int := 4
  batchQueue : Int := 0
  retry : RetryConfig := {}
  time : TimeConfig := {}
  limits : LimitsConfig := {}
  http : HTTPIngestConfig := {}
  sources : List Source := []
deriving DecidableEq, Repr

/-! ## Sources against each other -/

def transport (s : Source) : String := if s.protocol = protocolUDP then "udp" else "tcp"

/-- Why a source cannot run alongside another, or the empty text if it can. -/
def Source.conflictsWith (k : Checks) (s other : Source) : String :=
  if k.equalFold s.name other.name then "name is already used by source " ++ k.quote other.name
  else if !s.isEnabled || !other.isEnabled then ""
  else if s.type = sourceTypeHTTPJSON && other.type = sourceTypeHTTPJSON then
    "only one http_json source is supported; " ++ k.quote other.name ++ " is already defined"
  else if s.type ≠ sourceTypeSyslog || other.type ≠ sourceTypeSyslog then ""
  else if transport s = transport other && s.address = other.address then
    "address " ++ transport s ++ "/" ++ s.address ++ " is already used by source " ++
      k.quote other.name
  else ""

/-- The names and the bound addresses of the sources before. -/
structure Seen where
  names : List String := []
  binds : List (String × String) := []

def bindKey (s : Source) : String := transport s ++ "/" ++ s.address

/-- The source binds an address of its own. -/
def Source.bindsAddress (s : Source) : Bool := s.type = sourceTypeSyslog && s.isEnabled

def Seen.add (seen : Seen) (s : Source) : Seen where
  names := if s.name = "" then seen.names else s.name :: seen.names
  binds := if s.bindsAddress then (bindKey s, s.name) :: seen.binds else seen.binds

def sourcePath (i : Nat) (s : Source) : String :=
  "ingestion.sources[" ++ (if s.name = "" then toString i else s.name) ++ "]"

/-- The body of the loop over the sources. -/
def checkSource (k : Checks) (queue : QueueConfig) (p : String) (seen : Seen) (s : Source) :
    List String :=
  validateSource k p s ++
  require (s.name = "" || s.name ∉ seen.names) (p ++ ": duplicate source name") ++
  (match seen.binds.lookup (bindKey s) with
    | none => []
    | some other => require (!s.bindsAddress) (p ++ ": address " ++ bindKey s ++
        " already used by source " ++ k.quote other)) ++
  require (s.maxMessageBytes + 512 ≤ queue.maxBytes)
    (p ++ ".max_message_bytes: must be smaller than ingestion.queue.max_bytes")

def validateSources (k : Checks) (queue : QueueConfig) : Nat → Seen → List Source → List String
  | _, _, [] => []
  | i, seen, s :: sources =>
    checkSource k queue (sourcePath i s) seen s ++
      validateSources k queue (i + 1) (seen.add s) sources

/-! ## The section as a whole -/

def validateIngestion (c : IngestionConfig) : List String :=
  require (0 < c.queue.maxMessages) "ingestion.queue.max_messages: must be positive" ++
  require (1048576 ≤ c.queue.maxBytes) "ingestion.queue.max_bytes: must be at least 1MiB" ++
  require (0 ≤ c.parseWorkers) "ingestion.parse_workers: must be >= 0" ++
  require (0 < c.batch.maxRows) "ingestion.batch.max_rows: must be positive" ++
  require (65536 ≤ c.batch.maxBytes) "ingestion.batch.max_bytes: must be at least 64KiB" ++
  require (0 < c.batch.maxWait) "ingestion.batch.max_wait: must be positive" ++
  require (0 < c.writers) "ingestion.writers: must be positive" ++
  require (0 ≤ c.batchQueue) "ingestion.batch_queue: must be >= 0" ++
  require (0 < c.retry.initialBackoff && c.retry.initialBackoff ≤ c.retry.maxBackoff)
    "ingestion.retry: initial_backoff must be positive and <= max_backoff" ++
  require (0 ≤ c.time.maxFutureSkew && 0 ≤ c.time.maxPastAge)
    "ingestion.time: skew values must be >= 0" ++
  require (0 < c.limits.maxFields && 0 < c.limits.maxFieldValueBytes &&
      0 < c.limits.maxFieldNameBytes) "ingestion.limits: all limits must be positive" ++
  require (1048576 ≤ c.http.maxBodyBytes && 1 ≤ c.http.maxEvents && 0 < c.http.enqueueTimeout)
    ("ingestion.http: max_body_bytes >= 1MiB, max_events >= 1 and enqueue_timeout > 0 " ++
      "are required")

/-- `Config.Validate`: all problems found, after those of the other sections. -/
def validate (k : Checks) (elsewhere : List String) (c : IngestionConfig) : List String :=
  elsewhere ++ validateIngestion c ++ validateSources k c.queue 0 {} c.sources

/-! ## What an accepted definition satisfies -/

@[simp] theorem require_eq_nil {holds : Bool} {error : String} :
    require holds error = [] ↔ holds = true := by
  unfold require
  split <;> simp_all

/-- The default settings pass their own checks. -/
theorem IngestionConfig.default_valid (k : Checks) : validate k [] {} = [] := rfl

/-- What is used of a source that `validateSource` accepts. -/
structure Source.Valid (s : Source) : Prop where
  type : s.type = sourceTypeSyslog ∧
      (s.protocol = protocolUDP ∨ s.protocol = protocolTCP ∨ s.protocol = protocolTLS) ∨
    s.type = sourceTypeHTTPJSON
  messageBytes : 256 ≤ s.maxMessageBytes ∧ s.maxMessageBytes ≤ 16777216
  datagram : s.protocol = protocolUDP → s.maxMessageBytes ≤ 65535
  framing : s.framing = "auto" ∨ s.framing = "octet_counting" ∨ s.framing = "lf" ∨ s.framing = "nul"

theorem Source.Valid.of_validateSource {k : Checks} {p : String} {s : Source}
    (h : validateSource k p s = []) : s.Valid := by
  simp only [validateSource, List.map_eq_nil_iff, sourceErrors, List.append_eq_nil_iff,
    and_assoc] at h
  obtain ⟨-, -, -, htype, -, -, -, hbytes, -, -, -, -, hframing, -⟩ := h
  simp only [validateMessageBytes, List.append_eq_nil_iff, require_eq_nil, Bool.and_eq_true,
    decide_eq_true_eq, Bool.not_eq_true', Bool.and_eq_false_iff, decide_eq_false_iff_not] at hbytes
  constructor
  case type =>
    unfold validateType at htype
    split at htype
    · rename_i hsyslog
      simp only [List.append_eq_nil_iff, require_eq_nil, Bool.or_eq_true, decide_eq_true_eq,
        or_assoc] at htype
      exact .inl ⟨hsyslog, htype.1⟩
    · split at htype
      · exact .inr ‹_›
      · cases htype
  case messageBytes => exact hbytes.1
  case datagram =>
    intro hudp
    exact not_lt.mp (hbytes.2.resolve_left (not_not.mpr hudp))
  case framing =>
    simpa only [require_eq_nil, Bool.or_eq_true, decide_eq_true_eq, or_assoc] using hframing

theorem Source.Valid.of_prepareSource {k : Checks} {s s' : Source}
    (h : prepareSource k s = .ok s') : s'.Valid := by
  simp only [prepareSource] at h
  split at h
  · cases h
    exact .of_validateSource ‹_›
  · cases h

/-- Every source of an accepted file passed the body of the loop. -/
theorem validateSources_mem {k : Checks} {queue : QueueConfig} {i : Nat} {seen : Seen}
    {sources : List Source} (h : validateSources k queue i seen sources = []) {s : Source}
    (hs : s ∈ sources) : ∃ p seen, checkSource k queue p seen s = [] := by
  induction sources generalizing i seen with
  | nil => cases hs
  | cons s₀ sources ih =>
    obtain ⟨hhead, htail⟩ := List.append_eq_nil_iff.mp h
    obtain rfl | hs := List.mem_cons.mp hs
    · exact ⟨_, _, hhead⟩
    · exact ih htail hs

/-- The limits that hold between the settings of an accepted file. -/
structure IngestionConfig.Valid (c : IngestionConfig) : Prop where
  messages : 0 < c.queue.maxMessages
  queue : 1048576 ≤ c.queue.maxBytes
  workers : 0 ≤ c.parseWorkers
  writers : 0 < c.writers
  body : 1048576 ≤ c.http.maxBodyBytes
  events : 1 ≤ c.http.maxEvents
  sources : ∀ s ∈ c.sources, s.Valid ∧ s.maxMessageBytes + 512 ≤ c.queue.maxBytes

theorem IngestionConfig.Valid.of_validate {k : Checks} {elsewhere : List String}
    {c : IngestionConfig} (h : validate k elsewhere c = []) : c.Valid := by
  obtain ⟨hhead, hsources⟩ := List.append_eq_nil_iff.mp h
  have hsection := (List.append_eq_nil_iff.mp hhead).2
  simp only [validateIngestion, List.append_eq_nil_iff, require_eq_nil, Bool.and_eq_true,
    decide_eq_true_eq, and_assoc] at hsection
  obtain ⟨hmessages, hqueue, hworkers, -, -, -, hwriters, -, -, -, -, -, -, -, -, hbody, hevents, -⟩ :=
    hsection
  refine ⟨hmessages, hqueue, hworkers, hwriters, hbody, hevents, fun s hs => ?_⟩
  obtain ⟨p, seen, hcheck⟩ := validateSources_mem hsources hs
  simp only [checkSource, List.append_eq_nil_iff, require_eq_nil, decide_eq_true_eq] at hcheck
  exact ⟨.of_validateSource hcheck.1.1.1, hcheck.2⟩

end Syslogc.Config
