-- SUMMARY: The printer of the effective configuration.
import Syslogc.Config.Validate

/-!
# The printed configuration

`Config.YAML` turns the effective configuration into a tree of maps, lists and scalars
under the configuration's own key names, and renders the tree. The printer walks the
value by reflection: it knows of a field only its tags, and hides what is tagged so.
-/

namespace Syslogc.Config

/-! ## Values and trees -/

/-- A value as reflection shows it. -/
inductive Reflected where
  /-- A value that marshals itself to text, and whether it is the zero value. -/
  | text (zero : Bool) (t : String)
  | bool (b : Bool)
  | int (n : Int)
  | string (s : String)
  | pointer (target : Option Reflected)
  /-- The fields of a struct: the tag `koanf`, the tag `redact`, and the value. -/
  | struct (fields : List (String × Bool × Reflected))
  /-- A slice, `none` for the nil one. -/
  | slice (elems : Option (List Reflected))
  /-- A map from strings, `none` for the nil one. -/
  | map (entries : Option (List (String × Reflected)))

/-- What is handed to the YAML package. -/
inductive Node where
  | null
  | bool (b : Bool)
  | int (n : Int)
  | string (s : String)
  | list (elems : List Node)
  | map (entries : List (String × Node))

mutual

/-- `reflect.Value.IsZero`. -/
def Reflected.isZero : Reflected → Bool
  | .text zero _ => zero
  | .bool b => !b
  | .int n => n = 0
  | .string s => s = ""
  | .pointer target => target.isNone
  | .struct fields => fieldsZero fields
  | .slice elems => elems.isNone
  | .map entries => entries.isNone

def Reflected.fieldsZero : List (String × Bool × Reflected) → Bool
  | [] => true
  | (_, _, v) :: fields => v.isZero && fieldsZero fields

end

mutual

def toTree : Reflected → Node
  | .text _ t => .string t
  | .bool b => .bool b
  | .int n => .int n
  | .string s => .string s
  | .pointer none => .null
  | .pointer (some v) => toTree v
  | .struct fields => .map (fieldTrees fields)
  | .slice none => .list []
  | .slice (some elems) => .list (elemTrees elems)
  | .map none => .map []
  | .map (some entries) => .map (entryTrees entries)

def fieldTrees : List (String × Bool × Reflected) → List (String × Node)
  | [] => []
  | (tag, redact, v) :: fields =>
    if tag = "" ∨ tag = "-" then fieldTrees fields
    else (tag, if redact && !v.isZero then .string "[REDACTED]" else toTree v) :: fieldTrees fields

def elemTrees : List Reflected → List Node
  | [] => []
  | v :: elems => toTree v :: elemTrees elems

def entryTrees : List (String × Reflected) → List (String × Node)
  | [] => []
  | (key, v) :: entries => (key, toTree v) :: entryTrees entries

end

/-- The child of a map under a key. -/
def Node.child (key : String) : Node → Option Node
  | .map entries => entries.lookup key
  | _ => none

/-! ## The configuration by reflection -/

/-- `ByteSize.String`. -/
def byteSizeText (b : Int) : String :=
  if b ≠ 0 ∧ b % 2 ^ 30 = 0 then toString (b / 2 ^ 30) ++ "GiB"
  else if b ≠ 0 ∧ b % 2 ^ 20 = 0 then toString (b / 2 ^ 20) ++ "MiB"
  else if b ≠ 0 ∧ b % 2 ^ 10 = 0 then toString (b / 2 ^ 10) ++ "KiB"
  else toString b

/-- A day, in nanoseconds. -/
def day : Int := 86400000000000

-- `time.Duration.String`
variable (goDuration : Int → String)

/-- `Duration.String`. -/
def durationText (d : Int) : String :=
  if d ≠ 0 ∧ d % day = 0 then toString (d / day) ++ "d" else goDuration d

/-- A field that is not tagged for redaction. -/
def field (tag : String) (v : Reflected) : String × Bool × Reflected := (tag, false, v)

namespace Reflected

def size (b : Int) : Reflected := .text (b = 0) (byteSizeText b)

def duration (d : Int) : Reflected := .text (d = 0) (durationText goDuration d)

def strings (ss : List String) : Reflected := .slice (some (ss.map .string))

end Reflected

open Reflected

def ExtractRule.reflect (r : ExtractRule) : Reflected :=
  .struct [field "name" (.string r.name), field "contains" (.string r.contains),
    field "regex" (.string r.regex), field "prefix" (.string r.fieldPrefix)]

def UDPConfig.reflect (u : UDPConfig) : Reflected :=
  .struct [field "sockets" (.int u.sockets), field "read_buffer_bytes" (size u.readBufferBytes)]

def ACMEConfig.reflect (a : ACMEConfig) : Reflected :=
  .struct [field "enabled" (.bool a.enabled), field "domains" (strings a.domains),
    field "email" (.string a.email), field "staging" (.bool a.staging),
    field "accept_terms" (.bool a.acceptTerms), field "skip_preflight" (.bool a.skipPreflight)]

def TLSConfig.reflect (t : TLSConfig) : Reflected :=
  .struct [field "cert_file" (.string t.certFile), field "key_file" (.string t.keyFile),
    field "cert" (.string t.cert), field "key" (.string t.key),
    field "min_version" (.string t.minVersion), field "client_auth" (.string t.clientAuth),
    field "client_ca_file" (.string t.clientCAFile), field "client_ca" (.string t.clientCA),
    field "acme" t.acme.reflect]

def Source.reflect (s : Source) : Reflected :=
  .struct [field "name" (.string s.name), field "type" (.string s.type),
    field "enabled" (.pointer (s.enabled.map .bool)), field "protocol" (.string s.protocol),
    field "address" (.string s.address), field "format" (.string s.format),
    field "timezone" (.string s.timezone), field "allowed_cidrs" (strings s.allowedCIDRs),
    field "max_message_bytes" (size s.maxMessageBytes), field "raw_message" (.string s.rawMessage),
    field "hostname_fallback" (.string s.hostnameFallback), field "sd_flatten" (.string s.sdFlatten),
    field "labels" (.map (some (s.labels.map fun l => (l.1, .string l.2)))),
    field "tenant" (.string s.tenant), field "framing" (.string s.framing),
    field "max_connections" (.int s.maxConnections),
    field "idle_timeout" (duration goDuration s.idleTimeout),
    field "extract" (.slice (some (s.extract.map (·.reflect)))),
    field "template" (.string s.template), field "template_parts" (strings s.templateParts),
    field "udp" s.udp.reflect, field "tls" s.tls.reflect]

def IngestionConfig.reflect (c : IngestionConfig) : Reflected :=
  .struct [
    field "queue" (.struct [field "max_messages" (.int c.queue.maxMessages),
      field "max_bytes" (size c.queue.maxBytes)]),
    field "parse_workers" (.int c.parseWorkers),
    field "batch" (.struct [field "max_rows" (.int c.batch.maxRows),
      field "max_bytes" (size c.batch.maxBytes),
      field "max_wait" (duration goDuration c.batch.maxWait)]),
    field "writers" (.int c.writers),
    field "batch_queue" (.int c.batchQueue),
    field "retry" (.struct [field "initial_backoff" (duration goDuration c.retry.initialBackoff),
      field "max_backoff" (duration goDuration c.retry.maxBackoff)]),
    field "time" (.struct [field "max_future_skew" (duration goDuration c.time.maxFutureSkew),
      field "max_past_age" (duration goDuration c.time.maxPastAge)]),
    field "limits" (.struct [field "max_fields" (.int c.limits.maxFields),
      field "max_field_value_bytes" (size c.limits.maxFieldValueBytes),
      field "max_field_name_bytes" (.int c.limits.maxFieldNameBytes)]),
    field "http" (.struct [field "max_body_bytes" (size c.http.maxBodyBytes),
      field "max_events" (.int c.http.maxEvents),
      field "enqueue_timeout" (duration goDuration c.http.enqueueTimeout)]),
    field "sources" (.slice (some (c.sources.map (·.reflect goDuration))))]

/-- The effective configuration: the ingestion section, and the other sections as
reflection shows them. -/
structure Effective where
  ingestion : IngestionConfig
  sections : List (String × Bool × Reflected) := []

def Effective.reflect (c : Effective) : Reflected :=
  .struct (field "ingestion" (c.ingestion.reflect goDuration) :: c.sections)

/-- What `Config.YAML` renders. -/
def Effective.tree (c : Effective) : Node := toTree (c.reflect goDuration)

/-! ## What the tree shows -/

theorem elemTrees_eq_map (elems : List Reflected) : elemTrees elems = elems.map toTree := by
  induction elems with
  | nil => rfl
  | cons v elems ih => rw [elemTrees, ih, List.map_cons]

/-- The printed sources. -/
theorem Effective.tree_sources (c : Effective) :
    ((c.tree goDuration).child "ingestion").bind (Node.child "sources") =
      some (.list (c.ingestion.sources.map fun s => toTree (s.reflect goDuration))) := by
  show some (Node.list (elemTrees (c.ingestion.sources.map (·.reflect goDuration)))) = _
  rw [elemTrees_eq_map, List.map_map]
  rfl

/-- A printed source shows its private key. -/
theorem Source.tree_key (s : Source) :
    ((toTree (s.reflect goDuration)).child "tls").bind (Node.child "key") = some (.string s.tls.key) :=
  rfl

/-- Configurations that print alike have the same private keys. -/
theorem Effective.keys_eq_of_tree_eq {c c' : Effective} (h : c.tree goDuration = c'.tree goDuration) :
    c.ingestion.sources.map (·.tls.key) = c'.ingestion.sources.map (·.tls.key) := by
  have htrees : c.ingestion.sources.map (fun s => toTree (s.reflect goDuration)) =
      c'.ingestion.sources.map fun s => toTree (s.reflect goDuration) := by
    have hsources := c.tree_sources goDuration
    rw [h, c'.tree_sources goDuration] at hsources
    exact (Node.list.inj (Option.some.inj hsources)).symm
  have hkeys := congrArg
    (List.map fun n : Node => (n.child "tls").bind (Node.child "key")) htrees
  simp only [List.map_map, Function.comp_def, Source.tree_key] at hkeys
  have hinj : Function.Injective fun k : String => some (Node.string k) := fun a b hab => by
    cases hab
    rfl
  exact hinj.list_map (by simpa only [List.map_map, Function.comp_def] using hkeys)

end Syslogc.Config
