-- SUMMARY: Source definitions that arrive through the API.
import Syslogc.Api.Ingest
import Syslogc.Config.Load

/-!
# Sources through the API

A create or update body is completed and validated on its own, and checked against the
sources of the configuration file and the other stored sources.
-/

namespace Syslogc.Api

open Config
open Fallible (bind_eq_ok)

structure SourceInput where
  config : Source
  enabled : Option Bool := none

/-- A source of the metadata database. Its definition is stored as JSON, and `none` if
that cannot be read. -/
structure ManagedSource where
  id : Nat
  name : String
  config : Option Source
  enabled : Bool
  adopted : Bool

/-- A certificate and its key, from files or as text. -/
structure Material where
  certFile : String
  keyFile : String
  cert : String
  key : String

def Material.isEmpty (m : Material) : Bool := blank m.cert && m.certFile = "" && m.keyFile = ""

/-- What a request reads beside its body. -/
structure SourceEnv where
  checks : Checks
  /-- Whether there is a metadata database. -/
  hasStore : Bool
  tenant : String
  fileSources : List Source
  managed : Except ApiError (List ManagedSource)
  /-- The error of `certs.ClientCAs`. -/
  clientCAs : String → String → Option String
  /-- The error of `certs.Load`. -/
  load : Material → Option String

/-- `strings.TrimSpace`. -/
def trimText (s : String) : String :=
  String.ofList ((s.toList.dropWhile isSpace).rdropWhile isSpace)

def badRequest (code pointer detail : String) : ApiError where
  status := if code = "bad_request" then 400 else 422
  code
  detail
  pointer

variable (env : SourceEnv)

def invalidTLS (field error : String) : ApiError :=
  badRequest "validation_failed" ("/config/tls" ++ field) error

/-- Fail unless a condition holds. -/
def check (holds : Bool) (error : ApiError) : Except ApiError Unit :=
  if holds then .ok () else .error error

/-- Fail with an error if there is one. -/
def refuse (error : String → ApiError) : Option String → Except ApiError Unit
  | none => .ok ()
  | some e => .error (error e)

/-- Keep a stored private key that an edit leaves out, and check that the material
works. -/
def resolveTLSMaterial (sc : Source) (self : Option ManagedSource) : Except ApiError Source :=
  let clientCAs := refuse (invalidTLS "/client_ca") (env.clientCAs sc.tls.clientCA sc.tls.clientCAFile)
  if sc.protocol ≠ protocolTLS then .ok sc
  else if sc.tls.acme.enabled then do
    clientCAs
    return sc
  else do
    let stored := if blank sc.tls.key then self.bind (·.config) else none
    let sc := { sc with tls := { sc.tls with key := (stored.map (·.tls.key)).getD sc.tls.key } }
    let material : Material := ⟨sc.tls.certFile, sc.tls.keyFile, sc.tls.cert, sc.tls.key⟩
    check (!material.isEmpty) (invalidTLS ""
      "a TLS source needs a certificate: paste it, or give the path to one on the server")
    refuse (invalidTLS "/cert") (env.load material)
    clientCAs
    return sc

/-- The first reason why a source cannot run alongside one of the others. -/
def conflict (k : Checks) (sc : Source) (others : List Source) : Option String :=
  (others.map (sc.conflictsWith k)).find? (· ≠ "")

/-- The entries of the file a source can collide with: an adopted source replaces its
own. -/
def otherFileSources (self : Option ManagedSource) : List Source :=
  env.fileSources.filter fun other =>
    !self.any fun m => m.adopted && env.checks.equalFold other.name m.name

/-- The other stored sources whose definition can be read. -/
def otherManaged (self : Option ManagedSource) (managed : List ManagedSource) : List Source :=
  managed.filterMap fun m =>
    if self.any (·.id = m.id) then none
    else m.config.map fun sc => { sc with name := m.name, enabled := some m.enabled }

/-- `decodeSource`: the definition a create or update body asks for. -/
def decodeSource (body : Except ApiError SourceInput) (self : Option ManagedSource) :
    Except ApiError (SourceInput × Source) := do
  check env.hasStore ⟨404, "not_found", "source management requires a metadata database", ""⟩
  let input ← body
  let sc := { input.config with
    name := trimText input.config.name
    enabled := input.enabled.or input.config.enabled }
  let sc ← resolveTLSMaterial env sc self
  let sc ← (prepareSource env.checks sc).mapError fun errs =>
    badRequest "validation_failed" "/config" (("\n".intercalate errs).replace "\n" "; ")
  check (sc.tenant = env.tenant) (badRequest "validation_failed" "/config/tenant"
    ("tenant must be " ++ env.checks.quote env.tenant))
  refuse (fun reason => badRequest "validation_failed" "/config"
      ("conflicts with a source from the configuration file: " ++ reason))
    (conflict env.checks sc (otherFileSources env self))
  let managed ← env.managed
  refuse (badRequest "validation_failed" "/config")
    (conflict env.checks sc (otherManaged self managed))
  return (input, sc)

/-- What decoding accepts was prepared, and so validated. -/
theorem decodeSource_valid {env : SourceEnv} {body : Except ApiError SourceInput}
    {self : Option ManagedSource} {input : SourceInput} {sc : Source}
    (h : decodeSource env body self = .ok (input, sc)) : sc.Valid := by
  simp only [decodeSource, bind_eq_ok] at h
  obtain ⟨-, -, input', -, resolved, -, prepared, hprepared, -, -, -, -, managed, -, -, -, hresult⟩ := h
  cases hresult
  cases hprepare : prepareSource env.checks resolved with
  | error errs =>
    rw [hprepare] at hprepared
    cases hprepared
  | ok s =>
    rw [hprepare] at hprepared
    cases hprepared
    exact .of_prepareSource hprepare

theorem check_eq_ok {holds : Bool} {error : ApiError} {u : Unit} :
    check holds error = .ok u ↔ holds = true := by
  cases holds with
  | true => simp [check]
  | false => simp [check]

theorem refuse_eq_ok {error : String → ApiError} {e : Option String} {u : Unit} :
    refuse error e = .ok u ↔ e = none := by
  cases e with
  | none => simp [refuse]
  | some e => simp [refuse]

/-- The material is resolved into the key alone. -/
theorem resolveTLSMaterial_keeps {env : SourceEnv} {sc sc' : Source} {self : Option ManagedSource}
    (h : resolveTLSMaterial env sc self = .ok sc') : ∃ key, sc' = { sc with tls := { sc.tls with key } } := by
  simp only [resolveTLSMaterial] at h
  split_ifs at h
  · cases h
    exact ⟨sc.tls.key, rfl⟩
  · obtain ⟨-, -, h⟩ := bind_eq_ok.mp h
    cases h
    exact ⟨sc.tls.key, rfl⟩
  · simp only [bind_eq_ok] at h
    obtain ⟨-, -, -, -, -, -, h⟩ := h
    cases h
    exact ⟨_, rfl⟩
  · simp only [bind_eq_ok] at h
    obtain ⟨-, -, -, -, -, -, h⟩ := h
    cases h
    exact ⟨_, rfl⟩

/-- What holds of a definition that a body was decoded to. -/
structure Decoded (env : SourceEnv) (edited : Option ManagedSource) (input : SourceInput) (sc : Source) :
    Prop where
  name : sc.name = trimText input.config.name
  enabled : sc.enabled = input.enabled.or input.config.enabled
  prepared : ∃ given, prepareSource env.checks given = .ok sc
  files : conflict env.checks sc (otherFileSources env edited) = none
  managed : ∃ managed, env.managed = .ok managed ∧
    conflict env.checks sc (otherManaged edited managed) = none

theorem decodeSource_decoded {env : SourceEnv} {body : Except ApiError SourceInput}
    {self : Option ManagedSource} {input : SourceInput} {sc : Source}
    (h : decodeSource env body self = .ok (input, sc)) : body = .ok input ∧ Decoded env self input sc := by
  simp only [decodeSource, bind_eq_ok, check_eq_ok, refuse_eq_ok, Fallible.mapError_eq_ok] at h
  obtain ⟨-, -, input', hbody, resolved, hresolved, prepared, hprepared, -, -, -, hfiles, managed,
    hmanaged, -, hconflict, hresult⟩ := h
  cases hresult
  obtain ⟨key, rfl⟩ := resolveTLSMaterial_keeps hresolved
  have hdefaults : applySourceDefaults _ = sc := (prepareSource_eq_ok.mp hprepared).1
  refine ⟨hbody, ?_, ?_, ⟨_, hprepared⟩, hfiles, managed, hmanaged, hconflict⟩
  · rw [← hdefaults]
    rfl
  · rw [← hdefaults]
    rfl

end Syslogc.Api
